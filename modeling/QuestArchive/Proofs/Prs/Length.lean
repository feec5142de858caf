import Mathlib.Algebra.Order.Floor.Div
import QuestArchive.Proofs.Prs.Pruning
import QuestArchive.Proofs.Prs.RoundTrip

/-!
# The length of a compressed form

A stream takes a byte for each data byte of its tokens and one for every eight control bits
begun.  A literal takes as many of both as it stands for bytes.  A short copy may take one bit
more than that, but it stands for three bytes and takes one, and the two bytes saved always pay
for the control byte that this bit may begin.  So data that cannot be compressed grows by its
control bits alone.
-/

namespace QuestArchive
namespace Prs

def bitCount (items : List Item) : Nat := items.countP (· matches .bit _)

def byteCount (items : List Item) : Nat := items.countP (· matches .byte _)

theorem bitCount_append (front back : List Item) :
    bitCount (front ++ back) = bitCount front + bitCount back := List.countP_append

theorem byteCount_append (front back : List Item) :
    byteCount (front ++ back) = byteCount front + byteCount back := List.countP_append

/-- The bytes behind a control byte with some room left: a new control byte for every eight bits
that find no room. -/
theorem length_gather {room : Nat} (h : room ≤ 7) (items : List Item) :
    (gather room items).2.length = byteCount items + (bitCount items + 7 - room) / 8 := by
  induction items generalizing room with
  | nil =>
    show 0 = 0 + (0 + 7 - room) / 8
    omega
  | cons item items ih =>
    cases item with
    | byte b =>
      have hbytes : byteCount (.byte b :: items) = byteCount items + 1 :=
        List.countP_cons_of_pos rfl
      have hbits : bitCount (.byte b :: items) = bitCount items := List.countP_cons_of_neg nofun
      rw [gather_byte, List.length_cons, ih h, hbytes, hbits]
      omega
    | bit b =>
      have hbytes : byteCount (.bit b :: items) = byteCount items := List.countP_cons_of_neg nofun
      have hbits : bitCount (.bit b :: items) = bitCount items + 1 := List.countP_cons_of_pos rfl
      cases room with
      | zero =>
        rw [gather_bit_zero, List.length_cons, ih (Nat.le_refl 7), hbytes, hbits]
        omega
      | succ room =>
        rw [gather_bit_succ, ih (by omega), hbytes, hbits]
        omega

def Token.Worthwhile : Token → Prop
  | literal _ => True
  | short _ length | long _ length => minMatch ≤ length

theorem worthwhile_chooseToken (data : Array UInt8) (pos length distance : Nat) :
    (chooseToken data pos length distance).Worthwhile := by
  unfold chooseToken
  split
  · trivial
  · next h =>
    split
    · exact Nat.le_of_not_lt h
    · exact Nat.le_of_not_lt h

theorem worthwhile_tokens (data : Bytes) : ∀ t ∈ tokens data, t.Worthwhile := by
  rw [tokens_eq_searches]
  intro t ht
  obtain ⟨search, -, rfl⟩ := List.mem_map.1 ht
  exact worthwhile_chooseToken _ _ _ _

/-- What a token takes, against what it stands for.  Twice the bits and once the bytes leave a
short copy of three bytes with nothing to spare. -/
theorem cost_token {t : Token} (h : t.Worthwhile) :
    byteCount t.items ≤ t.extent ∧ 2 * bitCount t.items + byteCount t.items ≤ 3 * t.extent := by
  cases t with
  | literal b =>
    show 1 ≤ 1 ∧ 2 * 1 + 1 ≤ 3 * 1
    omega
  | short distance length =>
    have h : 3 ≤ length := h
    show 1 ≤ length ∧ 2 * 4 + 1 ≤ 3 * length
    omega
  | long distance length =>
    have h : 3 ≤ length := h
    by_cases hl : length ≤ 9
    · have hbytes : byteCount (Token.long distance length).items = 2 := by
        simp [Token.items, hl, Word.encode, byteCount]
      have hbits : bitCount (Token.long distance length).items = 2 := by
        simp [Token.items, hl, Word.encode, bitCount]
      rw [hbytes, hbits]
      show 2 ≤ length ∧ 2 * 2 + 2 ≤ 3 * length
      omega
    · have hbytes : byteCount (Token.long distance length).items = 3 := by
        simp [Token.items, hl, Word.encode, byteCount]
      have hbits : bitCount (Token.long distance length).items = 2 := by
        simp [Token.items, hl, Word.encode, bitCount]
      rw [hbytes, hbits]
      show 3 ≤ length ∧ 2 * 2 + 3 ≤ 3 * length
      omega

theorem cost_tokens {data : Array UInt8} {ts : List Token} {pos : Nat} (hc : Covers data pos ts)
    (hw : ∀ t ∈ ts, t.Worthwhile) :
    let items := ts.flatMap Token.items
    byteCount items + pos ≤ data.size ∧
      2 * bitCount items + byteCount items + 3 * pos ≤ 3 * data.size := by
  induction ts generalizing pos with
  | nil =>
    have he : pos = data.size := hc
    simp [he, byteCount, bitCount]
  | cons t ts ih =>
    obtain ⟨ht, hw⟩ := List.forall_mem_cons.1 hw
    obtain ⟨hbytes, hboth⟩ := cost_token ht
    have ih := ih hc.2 hw
    simp only [List.flatMap_cons, byteCount_append, bitCount_append] at ih ⊢
    omega

/-- The bytes of a compressed form: the data bytes and the control bits of its tokens, and those
of the end marker. -/
theorem length_compress (data : Bytes) :
    ∃ bytes bits, (compress data).length = bytes + 2 + (bits + 9) / 8 ∧
      bytes ≤ data.length ∧ 2 * bits + bytes ≤ 3 * data.length := by
  obtain ⟨hbytes, hboth⟩ := cost_tokens (tokens_spec data).1 (worthwhile_tokens data)
  refine ⟨_, _, ?_, hbytes, hboth⟩
  show (pack ((tokens data).flatMap Token.items ++ endItems)).length = _
  rw [pack_eq, length_gather (Nat.zero_le 7), byteCount_append, bitCount_append]
  rfl

theorem length_compress_le (data : Bytes) : (compress data).length ≤ 3 * data.length + 4 := by
  obtain ⟨bytes, bits, hlen, hbytes, hboth⟩ := length_compress data
  omega

/-- Compression adds at most the two bytes of the end marker, and a control byte for every eight
bits begun, one bit for each byte of the data and two for the marker. -/
theorem compress_overhead_le (data : Bytes) :
    (compress data).length ≤ data.length + 2 + (data.length + 2) ⌈/⌉ 8 := by
  obtain ⟨bytes, bits, hlen, hbytes, hboth⟩ := length_compress data
  rw [Nat.ceilDiv_eq_add_pred_div, hlen]
  omega

/-- Where nothing repeats it adds as much as that. -/
example : (compress [1, 2, 3, 4, 5, 6, 7]).length = 7 + 2 + 2 := by cbv

theorem compress_ne_nil (data : Bytes) : compress data ≠ [] := by
  intro h
  obtain ⟨hcov, hstore⟩ := tokens_spec data
  have hd := decompress_encode hcov hstore
  have hnil : decompress [] = .error (.compressedEnd 0) := by cbv
  rw [show encode (tokens data) = [] from h, hnil] at hd
  cases hd

end Prs
end QuestArchive
