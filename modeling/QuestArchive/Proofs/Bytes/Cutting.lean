import QuestArchive.Proofs.Bytes.Field

/-!
# Texts that are too long for their field

A field keeps as many bytes of a text as it has.  These are the whole characters that fit, and
half of one more where the end of the field is inside a pair of units, which is read as a
replacement character.
-/

namespace QuestArchive
namespace Text

/-- The longest start of a text, in whole characters, that takes no more than some bytes. -/
structure Cut (size : Nat) (t p : Text) : Prop where
  start : p <+: t
  fits : (unitBytes p).length ≤ size
  longest : ∀ q, q <+: t → (unitBytes q).length ≤ size → q <+: p

theorem unitBytes_append (t u : Text) : unitBytes (t ++ u) = unitBytes t ++ unitBytes u := by
  induction t with
  | nil => rfl
  | cons r t ih =>
    cases r with
    | char c => rw [List.cons_append, unitBytes, unitBytes, ih, List.append_assoc]
    | surrogate n => exact ih

theorem exists_cut (size : Nat) (t : Text) : ∃ p, Cut size t p := by
  induction t generalizing size with
  | nil =>
    refine ⟨[], List.prefix_rfl, Nat.zero_le size, fun q hq _ => hq⟩
  | cons r t ih =>
    by_cases hr : (unitBytes [r]).length ≤ size
    · obtain ⟨p, hstart, hfits, hlongest⟩ := ih (size - (unitBytes [r]).length)
      have hlen (q : Text) : (unitBytes (r :: q)).length =
          (unitBytes [r]).length + (unitBytes q).length := by
        rw [← List.singleton_append, unitBytes_append, List.length_append]
      refine ⟨r :: p, List.cons_prefix_cons.2 ⟨rfl, hstart⟩, by rw [hlen]; omega, ?_⟩
      intro q hq hsize
      cases q with
      | nil => exact List.nil_prefix
      | cons r' q =>
        obtain ⟨rfl, hstart⟩ := List.cons_prefix_cons.1 hq
        rw [hlen] at hsize
        exact List.cons_prefix_cons.2 ⟨rfl, hlongest q hstart (by omega)⟩
    · refine ⟨[], List.nil_prefix, Nat.zero_le size, ?_⟩
      intro q hq hsize
      cases q with
      | nil => exact List.prefix_rfl
      | cons r' q =>
        obtain ⟨rfl, hq⟩ := List.cons_prefix_cons.1 hq
        rw [← List.singleton_append, unitBytes_append, List.length_append] at hsize
        omega

theorem decode16_unitBytes_append {t : Text} (h : Encodable t) (bs : Bytes) :
    decode16 (unitBytes t ++ bs) = t ++ decode16 bs := by
  induction t with
  | nil => rfl
  | cons r t ih =>
    cases r with
    | char c =>
      rw [unitBytes, List.append_assoc, decode16_charBytes, ih h.tail]
      rfl
    | surrogate n => exact absurd List.mem_cons_self (h n)

theorem length_charUnits_le (c : Char) : (charUnits c).length ≤ 2 := by
  unfold charUnits
  split
  · exact Nat.le_succ 1
  · exact Nat.le_refl 2

theorem beforeNull_of_noNull {units : Bytes} (h : NoNull units) : beforeNull units = units := by
  simpa using beforeNull_append_zeros h 0

theorem half_charBytes {c : Char} (h : (charBytes c).length = 4) :
    NoNull ((charBytes c).take 2) ∧ decode16 ((charBytes c).take 2) = [.replacement] := by
  have hc : ¬c.toNat < 0x10000 := by
    intro hc
    rw [length_charBytes, charUnits, if_pos hc] at h
    cases h
  obtain ⟨-, hmax⟩ := toNat_bounds c
  have htake : (charBytes c).take 2 = Word.encode 2 (0xD800 + (c.toNat - 0x10000) / 0x400) := by
    rw [charBytes, charUnits, if_neg hc]
    rfl
  rw [htake]
  refine ⟨noNull_word (by omega) (by omega), ?_⟩
  have hw := decode_word (n := 0xD800 + (c.toNat - 0x10000) / 0x400) (by omega)
  have hlow : isLowUnit (0xD800 + (c.toNat - 0x10000) / 0x400) = false := by
    simp only [isLowUnit, Bool.and_eq_false_iff, decide_eq_false_iff_not]
    omega
  have hhigh : isHighUnit (0xD800 + (c.toNat - 0x10000) / 0x400) = true := by
    simp only [isHighUnit, Bool.and_eq_true, decide_eq_true_eq]
    omega
  rw [decode16.eq_def]
  simp only [Word.encode] at hw ⊢
  simp only [hw, hlow, hhigh, Bool.false_eq_true, if_false, if_true]

/-- What a cut text goes on with does not fit any more. -/
theorem Cut.next {size : Nat} {t p rest : Text} {c : Char} (h : Cut size t p)
    (ht : t = p ++ .char c :: rest) :
    size < (unitBytes p).length + (charBytes c).length := by
  by_contra hle
  have hq : (unitBytes (p ++ [.char c])).length ≤ size := by
    rw [unitBytes_append, List.length_append, unitBytes, unitBytes, List.append_nil]
    omega
  have hlen := (h.longest (p ++ [.char c]) ⟨rest, by rw [ht]; simp⟩ hq).length_le
  rw [List.length_append, List.length_singleton] at hlen
  omega

end Text

namespace Field

open Text (unitBytes charBytes)

theorem fixed_of_lt {size : Nat} {bs : Bytes} (h : size ≤ bs.length) :
    fixed size bs = bs.take size := by
  unfold fixed truncate zeros Cursor.clamp
  rw [if_neg (by omega)]
  dsimp only
  rw [Int.toNat_natCast, Nat.min_eq_left h, List.length_take, Nat.min_eq_left h, Int.sub_self]
  simp

theorem exists_text_cut {t p : Text} {size : Nat} (henc : t.Encodable)
    (hnull : Rune.char '\x00' ∉ t) (hs : size % 2 = 0) (h : Text.Cut size t p) :
    ∃ bs, text t size = .ok bs ∧ bs.length = size ∧ Text.decode16 (Text.beforeNull bs) =
      if p = t ∨ (unitBytes p).length = size then p else p ++ [.replacement] := by
  refine ⟨fixed size (unitBytes t), ?_, length_fixed _ _, ?_⟩
  · unfold text textBytes
    rw [Text.encode16_of_encodable henc]
    rfl
  obtain ⟨rest, rfl⟩ := h.start
  have hencp : p.Encodable := fun n hn => henc n (List.mem_append_left rest hn)
  have hnullp := Text.noNull_unitBytes fun hm => hnull (List.mem_append_left rest hm)
  cases rest with
  | nil =>
    rw [List.append_nil] at henc hnull ⊢
    rw [if_pos (Or.inl rfl), fixed_of_le h.fits, Text.beforeNull_append_zeros hnullp,
      Text.decode16_unitBytes hencp]
  | cons r rest =>
    cases r with
    | surrogate n => exact absurd (List.mem_append_right p List.mem_cons_self) (henc n)
    | char c =>
      have hnext := h.next rfl
      have hfits := h.fits
      have hunits : unitBytes (p ++ .char c :: rest) =
          unitBytes p ++ (charBytes c ++ unitBytes rest) := by
        rw [Text.unitBytes_append, unitBytes]
      have hne : p ≠ p ++ .char c :: rest := fun he => by simpa using congrArg List.length he
      rw [hunits, fixed_of_lt (by simp only [List.length_append]; omega), List.take_append,
        List.take_of_length_le hfits]
      -- Between the end of the whole characters and the end of the field is room for one unit
      -- or none.
      by_cases hfull : (unitBytes p).length = size
      · rw [if_pos (Or.inr hfull), hfull, Nat.sub_self, List.take_zero, List.append_nil,
          Text.beforeNull_of_noNull hnullp, Text.decode16_unitBytes hencp]
      · have heven := Text.even_length_unitBytes p
        have hchar := Text.length_charBytes c
        have hone := Text.length_charUnits_le c
        have hroom : size - (unitBytes p).length = 2 := by omega
        have hlen : (charBytes c).length = 4 := by omega
        obtain ⟨hhalf, hread⟩ := Text.half_charBytes hlen
        rw [if_neg (not_or.2 ⟨hne, hfull⟩), hroom, List.take_append_of_le_length (by omega),
          Text.beforeNull_of_noNull (hnullp.append hhalf),
          Text.decode16_unitBytes_append hencp, hread]

end Field

/-- A cursor that stands where a field was written meets the bytes of the field. -/
theorem Cursor.view_of_put {w : Writer} {bs : Bytes} {c : Cursor} (hw : w.pos ≤ w.bytes.length)
    (hc : c.Inside) (hdata : c.data = (w.put bs).bytes.toArray) (hpos : c.pos = w.pos)
    (hstop : c.pos + bs.length ≤ c.stop) : ∃ rest, c.view = bs ++ rest := by
  have hlow := hc.low
  have hhigh := hc.high
  refine ⟨span c.data (c.pos + bs.length) c.stop, ?_⟩
  rw [view, ← span_append hlow (by omega : c.pos ≤ c.pos + bs.length) hstop hhigh]
  have hfront : (w.bytes.take w.pos).length = w.pos := by
    rw [List.length_take, Nat.min_eq_left hw]
  have hbytes : (w.put bs).bytes =
      w.bytes.take w.pos ++ (bs ++ w.bytes.drop (w.pos + bs.length)) :=
    List.append_assoc _ _ _
  have hmiddle := span_middle (w.bytes.take w.pos) bs (w.bytes.drop (w.pos + bs.length))
  rw [hfront, ← hbytes, ← hdata, ← hpos] at hmiddle
  rw [hmiddle]

/-- A text without lone surrogates and null characters that is written to a field of whole units
is read back as its longest start that fits the field, and as this start with a replacement
character just if the text goes on and the start leaves room for a unit. -/
theorem Read.text_of_write {t : Text} {size : Nat} (henc : t.Encodable)
    (hnull : Rune.char '\x00' ∉ t) (hs : size % 2 = 0) :
    ∃ p, Text.Cut size t p ∧ ∀ w : Writer, w.pos ≤ w.bytes.length →
      ∃ w', w.write (Field.text t size) = .ok w' ∧ w'.pos = w.pos + size ∧
        ∀ c : Cursor, c.Inside → c.data = w'.bytes.toArray → c.pos = w.pos →
          c.pos + size ≤ c.stop → Read.text size c =
            .ok (if p = t ∨ (Text.unitBytes p).length = size then p else p ++ [.replacement])
              (c.advance size) := by
  obtain ⟨p, hp⟩ := Text.exists_cut size t
  obtain ⟨bs, hbs, hlen, hread⟩ := Field.exists_text_cut henc hnull hs hp
  refine ⟨p, hp, fun w hw => ⟨w.put bs, by rw [hbs]; rfl, by rw [← hlen]; rfl, ?_⟩⟩
  intro c hc hdata hpos hstop
  rw [← hlen] at hstop
  obtain ⟨rest, hview⟩ := Cursor.view_of_put hw hc hdata hpos hstop
  rw [← hread, (Read.describes_fieldText size).accepts hc hview ⟨hlen, rfl⟩, hlen]

theorem Read.text_of_write_name :
    let t : Text := List.replicate 31 (.char 'a') ++ [.char '😀']
    t.Encodable ∧ Rune.char '\x00' ∉ t ∧ 64 % 2 = 0 ∧
      ∃ p, Text.Cut 64 t p ∧ ∀ w : Writer, w.pos ≤ w.bytes.length →
        ∃ w', w.write (Field.text t 64) = .ok w' ∧ w'.pos = w.pos + 64 ∧
          ∀ c : Cursor, c.Inside → c.data = w'.bytes.toArray → c.pos = w.pos →
            c.pos + 64 ≤ c.stop → Read.text 64 c =
              .ok (if p = t ∨ (Text.unitBytes p).length = 64 then p else p ++ [.replacement])
                (c.advance 64) := by
  intro t
  have henc : t.Encodable := fun n hn => by simp [t] at hn
  have hnull : Rune.char '\x00' ∉ t := by decide
  exact ⟨henc, hnull, rfl, Read.text_of_write henc hnull rfl⟩

/-- The name is not cut behind its letters, which are all that fits: the character that does not
fit leaves a replacement character. -/
theorem Read.text_inside_pair :
    let p : Text := List.replicate 31 (.char 'a')
    Text.Cut 64 (p ++ [.char '😀']) p ∧
      ∃ w, ({} : Writer).write (Field.text (p ++ [.char '😀']) 64) = .ok w ∧
        Read.within (.whole w.bytes.toArray) (Read.text 64) = .ok (p ++ [.replacement]) := by
  intro p
  refine ⟨⟨List.prefix_append _ _, by decide, fun q hq hsize => ?_⟩, ?_⟩
  · rcases List.prefix_concat_iff.1 hq with rfl | hq
    · exact absurd hsize (by decide)
    · exact hq
  · exact ⟨_, rfl, by decide +kernel⟩

end QuestArchive
