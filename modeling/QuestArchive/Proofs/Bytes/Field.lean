import Mathlib.Data.List.TakeWhile
import QuestArchive.Bytes.Field
import QuestArchive.Proofs.Bytes.Reading
import QuestArchive.Proofs.Lists

/-!
# Fields that are written and read again

A text that fits its field fills it up with null bytes and is read back from it.  So is a
name.  The other way round, whatever a field of whole units holds is read as a text that
fits it.
-/

namespace QuestArchive

namespace Text

/-- A text can be kept in a field of some bytes.  One that fills the field has no null unit
behind it. -/
structure Fits (size : Nat) (t : Text) : Prop where
  encodable : t.Encodable
  noNull : Rune.char '\x00' ∉ t
  length : (unitBytes t).length ≤ size

theorem fits_ofString {s : String} {size : Nat} (hz : '\x00' ∉ s.toList)
    (hl : (unitBytes (.ofString s)).length ≤ size) : Fits size (.ofString s) := by
  refine ⟨fun n hn => ?_, fun hm => hz ?_, hl⟩
  · obtain ⟨c, -, hc⟩ := List.mem_map.1 hn
    cases hc
  · obtain ⟨c, hm, hc⟩ := List.mem_map.1 hm
    exact Rune.char.inj hc ▸ hm

/-- Null bytes behind a text, a whole number of units or not, are not part of it. -/
theorem beforeNull_append_zeros {units : Bytes} (h : NoNull units) (n : Nat) :
    beforeNull (units ++ List.replicate n 0) = units := by
  fun_induction NoNull units with
  | case1 =>
    rcases n with _ | _ | n
    · rfl
    · rfl
    · rfl
  | case2 => exact h.elim
  | case3 a b rest ih =>
    show (if a = 0 ∧ b = 0 then [] else a :: b :: beforeNull (rest ++ List.replicate n 0)) = _
    rw [if_neg h.1, ih h.2]

theorem beforeNull_prefix (bs : Bytes) : beforeNull bs <+: bs := by
  fun_induction beforeNull bs with
  | case1 => exact List.nil_prefix
  | case2 a b rest _ ih => exact List.cons_prefix_cons.2 ⟨rfl, List.cons_prefix_cons.2 ⟨rfl, ih⟩⟩
  | case3 => exact List.nil_prefix

theorem noNull_beforeNull (bs : Bytes) :
    NoNull (beforeNull bs) ∧ (beforeNull bs).length ≤ bs.length := by
  fun_induction beforeNull bs with
  | case1 => exact ⟨trivial, Nat.zero_le _⟩
  | case2 a b rest h ih => exact ⟨⟨h, ih.1⟩, by simpa using ih.2⟩
  | case3 => exact ⟨trivial, Nat.zero_le _⟩

theorem Fits.cons {c : Char} {t : Text} {m n : Nat} (h : t.Fits n) (hc : c ≠ '\x00')
    (hm : (charBytes c).length + n ≤ m) : Text.Fits m (.char c :: t) := by
  refine ⟨h.encodable.cons, fun hz => ?_, ?_⟩
  · rcases List.mem_cons.1 hz with hz | hz
    · exact hc (Rune.char.inj hz).symm
    · exact h.noNull hz
  · rw [unitBytes, List.length_append]
    exact Nat.le_trans (Nat.add_le_add_left h.length _) hm

theorem fits_decode16 {bs : Bytes} (h : NoNull bs) : (decode16 bs).Fits bs.length := by
  have nil : ∀ n, Text.Fits n [] := fun n =>
    ⟨fun _ => List.not_mem_nil, List.not_mem_nil, Nat.zero_le n⟩
  have replaced : ∀ {t : Text} {m n : Nat}, t.Fits n → 2 + n ≤ m →
      Text.Fits m (.replacement :: t) := fun ht hm => ht.cons (by decide) hm
  fun_induction decode16 bs with
  | case1 => exact nil _
  | case2 => exact h.elim
  | case3 a b rest u hlow ih =>
    exact replaced (ih h.2) (by simp only [List.length_cons]; omega)
  | case4 a b u hl hh c d rest hl' ih =>
    obtain ⟨char, hjoin, hchar⟩ := charBytes_join hh hl'
    rw [hjoin]
    refine (ih h.2.2).cons ?_ ?_
    · intro hz
      rw [hz] at hchar
      exact absurd (congrArg List.length hchar) (by simp [charBytes, charUnits, Word.encode])
    · rw [hchar]
      simp only [List.length_cons, List.length_nil]
      omega
  | case5 a b u hl hh c d rest hl' ih =>
    exact replaced (ih h.2) (by simp only [List.length_cons]; omega)
  | case6 a b rest u hl hh hrest =>
    exact replaced (nil 0) (by simp only [List.length_cons]; omega)
  | case7 a b rest u hl hh ih =>
    have hchar := charBytes_ofNat (a := a) (b := b) (by simpa using hl) (by simpa using hh)
    refine (ih h.2).cons ?_ ?_
    · intro hz
      rw [hz] at hchar
      have hzero : charBytes '\x00' = [0, 0] := rfl
      rw [hzero] at hchar
      cases hchar
      exact h.1 ⟨rfl, rfl⟩
    · rw [hchar]
      simp only [List.length_cons, List.length_nil]
      omega

theorem Fits.mono {m n : Nat} {t : Text} (h : t.Fits m) (hmn : m ≤ n) : t.Fits n :=
  ⟨h.encodable, h.noNull, Nat.le_trans h.length hmn⟩

theorem fits_field (bs : Bytes) : (decode16 (beforeNull bs)).Fits bs.length := by
  obtain ⟨hn, hl⟩ := noNull_beforeNull bs
  exact (fits_decode16 hn).mono hl

end Text

/-! ## Integers -/

namespace Word

theorem wrap_signed {width n : Nat} (h : n < bound width) : wrap width (signed width n) = n := by
  unfold wrap signed
  split
  · rw [Int.emod_eq_of_lt (by omega) (by omega), Int.toNat_natCast]
  · rw [Int.sub_emod_right, Int.emod_eq_of_lt (by omega) (by omega), Int.toNat_natCast]

theorem wrap_decode (bs : Bytes) : wrap bs.length (signed bs.length (decode bs)) = decode bs :=
  wrap_signed (decode_lt bs)

theorem signed_wrap {width : Nat} {n : Int} (hl : -(bound width : Int) ≤ 2 * n)
    (hh : 2 * n < bound width) : signed width (wrap width n) = n := by
  unfold wrap signed
  by_cases hn : n < 0
  · have hmod : n % (bound width : Int) = n + bound width := by
      rw [← Int.add_emod_right, Int.emod_eq_of_lt (by omega) (by omega)]
    rw [hmod, if_neg (by omega)]
    omega
  · rw [Int.emod_eq_of_lt (by omega) (by omega), if_pos (by omega)]
    omega

theorem wrap_lt (width : Nat) (n : Int) : wrap width n < bound width := by
  have hpos : 0 < bound width := Nat.pow_pos (by decide)
  have := Int.emod_lt_of_pos n (Int.natCast_pos.2 hpos)
  unfold wrap
  omega

def Fits (width : Nat) (n : Int) : Prop := 0 ≤ n ∧ n < bound width

instance (width : Nat) (n : Int) : Decidable (Fits width n) :=
  inferInstanceAs (Decidable (0 ≤ n ∧ n < bound width))

theorem fits_decode {width : Nat} {bs : Bytes} (h : bs.length = width) :
    Fits width (decode bs) := by
  have hlt := decode_lt bs
  rw [h] at hlt
  exact ⟨by omega, by omega⟩

/-- Four bytes, read in two's complement, are an integer of that range. -/
theorem signed_bounds {bs : Bytes} (h : bs.length = 4) :
    -0x80000000 ≤ signed 4 (decode bs) ∧ signed 4 (decode bs) < 0x80000000 := by
  have hb : bound 4 = 0x100000000 := rfl
  have hlt := decode_lt bs
  rw [h, hb] at hlt
  unfold signed
  rw [hb]
  split <;> omega

end Word

namespace Read

theorem length_groups (width count : Nat) (bs : Bytes) :
    (groups width count bs).length = count := by
  induction count generalizing bs with
  | zero => rfl
  | succ count ih => simp [groups, ih]

theorem groups_flatten {width : Nat} {pieces : List Bytes} (h : ∀ p ∈ pieces, p.length = width)
    (rest : Bytes) : groups width pieces.length (pieces.flatten ++ rest) = pieces := by
  induction pieces with
  | nil => rfl
  | cons p pieces ih =>
    have hp := h p List.mem_cons_self
    rw [List.length_cons, groups, List.flatten_cons, List.append_assoc, List.take_left' hp,
      List.drop_left' hp, ih fun q hq => h q (List.mem_cons_of_mem _ hq)]

/-- Cutting leaves every byte in its place. -/
theorem flatten_groups {width count : Nat} {bs : Bytes} (h : width * count ≤ bs.length) :
    (∀ g ∈ groups width count bs, g.length = width) ∧
      (groups width count bs).flatten = bs.take (width * count) := by
  induction count generalizing bs with
  | zero => exact ⟨fun g hg => absurd hg List.not_mem_nil, by simp [groups]⟩
  | succ count ih =>
    rw [Nat.mul_succ] at h ⊢
    obtain ⟨hlen, hflat⟩ := @ih (bs.drop width) (by rw [List.length_drop]; omega)
    constructor
    · intro g hg
      rcases List.mem_cons.1 hg with rfl | hg
      · rw [List.length_take]
        omega
      · exact hlen g hg
    · rw [groups, List.flatten_cons, hflat, Nat.add_comm, List.take_add]

theorem groups_take (width count : Nat) (bs : Bytes) :
    groups width count (bs.take (width * count)) = groups width count bs := by
  induction count generalizing bs with
  | zero => rfl
  | succ count ih =>
    rw [groups, groups, ← ih (bs.drop width), List.take_take, List.drop_take, Nat.mul_succ,
      Nat.min_eq_left (Nat.le_add_left _ _), Nat.add_sub_cancel]

end Read

namespace Field

theorem unsigned_byte (b : UInt8) : unsigned 1 (b.toNat : Int) = .ok [b] := by
  have hb := b.toNat_lt
  unfold unsigned
  rw [if_pos (by rw [show Word.bound 1 = 256 from rfl]; omega)]
  show Except.ok [UInt8.ofNat (b.toNat % 256)] = _
  rw [Nat.mod_eq_of_lt hb, UInt8.ofNat_toNat]

theorem unsigned_decode (bs : Bytes) : unsigned bs.length (Word.decode bs : Int) = .ok bs := by
  have hlt := Word.decode_lt bs
  unfold unsigned
  rw [if_pos ⟨by omega, by omega⟩, Int.toNat_natCast, Word.encode_decode]

/-- An unsigned integer is written as the bytes that it is read from. -/
theorem unsigned_eq_ok_iff {width : Nat} {n : Int} {bs : Bytes} :
    unsigned width n = .ok bs ↔ bs.length = width ∧ n = Word.decode bs := by
  constructor
  · intro h
    unfold unsigned at h
    split at h
    · cases h
      refine ⟨Word.length_encode _ _, ?_⟩
      rw [Word.decode_encode (by omega)]
      omega
    · cases h
  · rintro ⟨rfl, rfl⟩
    exact unsigned_decode bs

theorem exists_unsigned {width : Nat} {n : Int} (h : Word.Fits width n) :
    ∃ bs : Bytes, bs.length = width ∧ n = Word.decode bs ∧ unsigned width n = .ok bs := by
  have hw : unsigned width n = .ok (Word.encode width n.toNat) := if_pos h
  obtain ⟨hlen, hn⟩ := unsigned_eq_ok_iff.1 hw
  exact ⟨_, hlen, hn, hw⟩

theorem forall₂_unsigned {width : Nat} {ns : List Int} (h : ∀ n ∈ ns, Word.Fits width n) :
    ∃ pieces : List Bytes, List.Forall₂ (fun n p => unsigned width n = .ok p) ns pieces ∧
      (∀ p ∈ pieces, p.length = width) ∧ pieces.map (fun p => (Word.decode p : Int)) = ns := by
  induction ns with
  | nil => exact ⟨[], .nil, fun p hp => absurd hp List.not_mem_nil, rfl⟩
  | cons n ns ih =>
    obtain ⟨pieces, hw, hlen, hns⟩ := ih fun m hm => h m (List.mem_cons_of_mem _ hm)
    obtain ⟨bs, hbs, hn, hu⟩ := exists_unsigned (h n List.mem_cons_self)
    refine ⟨bs :: pieces, .cons hu hw, ?_, ?_⟩
    · intro p hp
      rcases List.mem_cons.1 hp with rfl | hp
      · exact hbs
      · exact hlen p hp
    · rw [List.map_cons, hns, ← hn]

theorem exists_signed {width : Nat} {n : Int} (hl : -(Word.bound width : Int) ≤ 2 * n)
    (hh : 2 * n < Word.bound width) :
    ∃ bs : Bytes, bs.length = width ∧ n = Word.signed width (Word.decode bs) ∧
      signed width n = .ok bs := by
  refine ⟨Word.encode width (Word.wrap width n), Word.length_encode _ _, ?_, if_pos ⟨hl, hh⟩⟩
  rw [Word.decode_encode (Word.wrap_lt width n), Word.signed_wrap hl hh]

/-- A signed integer is written as the bytes that it is read from. -/
theorem i32_eq_ok_iff {n : Int} {bs : Bytes} :
    i32 n = .ok bs ↔ bs.length = 4 ∧ n = Word.signed 4 (Word.decode bs) := by
  have hb : Word.bound 4 = 0x100000000 := rfl
  have hs : ∀ m : Nat, Word.signed 4 m =
      if 2 * m < 0x100000000 then (m : Int) else (m : Int) - 0x100000000 := fun _ => rfl
  unfold i32 signed
  rw [hb]
  constructor
  · intro h
    split at h
    · cases h
      refine ⟨Word.length_encode _ _, ?_⟩
      have hw : Word.wrap 4 n = (n % 0x100000000).toNat := rfl
      rw [Word.decode_encode (by rw [hw, hb]; omega), hs, hw]
      split <;> omega
    · cases h
  · rintro ⟨hlen, rfl⟩
    have hlt := Word.decode_lt bs
    have he := Word.encode_decode bs
    have hwrap := Word.wrap_decode bs
    rw [hlen] at hlt he hwrap
    rw [if_pos, hwrap, he]
    rw [hs]
    split
    · omega
    · omega

theorem exists_i32 {n : Int} (h : -0x80000000 ≤ n ∧ n < 0x80000000) : ∃ bs, i32 n = .ok bs := by
  have hb : Word.bound 4 = 0x100000000 := rfl
  exact ⟨_, if_pos (by rw [hb]; omega)⟩

theorem i32_eq_error {n : Int} (h : ¬(-0x80000000 ≤ n ∧ n < 0x80000000)) :
    i32 n = .error .fieldRange := by
  have hb : Word.bound 4 = 0x100000000 := rfl
  exact if_neg (by rw [hb]; omega)

/-! ## Texts and names -/

theorem fixed_of_le {size : Nat} {bs : Bytes} (h : bs.length ≤ size) :
    fixed size bs = bs ++ List.replicate (size - bs.length) 0 := by
  have hcut : truncate size bs = bs := by
    unfold truncate Cursor.clamp
    rw [if_neg (by omega)]
    exact List.take_of_length_le (by omega)
  unfold fixed zeros
  dsimp only
  rw [hcut]
  congr 2
  omega

theorem length_fixed (size : Nat) (bs : Bytes) : (fixed size bs).length = size := by
  unfold fixed truncate zeros Cursor.clamp
  rw [if_neg (by omega)]
  simp only [List.length_append, List.length_take, List.length_replicate]
  omega

theorem exists_text {size : Nat} {t : Text} (h : t.Fits size) :
    ∃ bs, text t size = .ok bs ∧ bs.length = size ∧ Text.decode16 (Text.beforeNull bs) = t := by
  refine ⟨fixed size (Text.unitBytes t), ?_, length_fixed _ _, ?_⟩
  · unfold text textBytes
    rw [Text.encode16_of_encodable h.encodable]
    rfl
  · rw [fixed_of_le h.length, Text.beforeNull_append_zeros (Text.noNull_unitBytes h.noNull),
      Text.decode16_unitBytes h.encodable]

def IsName (name : String) : Prop := ∀ c ∈ name.toList, c.toNat < 128 ∧ c ≠ '\x00'

instance (name : String) : Decidable (IsName name) :=
  List.decidableBAll (fun c : Char => c.toNat < 128 ∧ c ≠ '\x00') name.toList

theorem asciiBytes_eq_ok_iff {name : List Char} {bs : Bytes} : asciiBytes name = .ok bs ↔
    (∀ c ∈ name, c.toNat < 128) ∧ bs = name.map fun c => UInt8.ofNat c.toNat := by
  have hall : (name.dropWhile fun c => c.toNat < 128).isEmpty = true ↔
      ∀ c ∈ name, c.toNat < 128 := by
    rw [List.isEmpty_iff, List.dropWhile_eq_nil_iff]
    simp only [decide_eq_true_eq]
  unfold asciiBytes
  dsimp only
  split
  · next h =>
    rw [Except.ok.injEq]
    exact ⟨fun he => ⟨hall.1 h, he.symm⟩, fun he => he.2.symm⟩
  · next h => exact iff_of_false (fun he => by cases he) fun he => h (hall.2 he.1)

/-- The byte of an ASCII character is read as it, and is null if the character is. -/
theorem asciiChar_ofNat {c : Char} (h : c.toNat < 128) :
    Read.asciiChar (UInt8.ofNat c.toNat) = c ∧ (UInt8.ofNat c.toNat = 0 ↔ c = '\x00') := by
  have hnat : (UInt8.ofNat c.toNat).toNat = c.toNat := by
    rw [UInt8.toNat_ofNat']
    omega
  constructor
  · unfold Read.asciiChar
    rw [if_pos (UInt8.lt_iff_toNat_lt.2 (by rw [hnat]; exact h)), hnat, Char.ofNat_toNat]
  · constructor
    · intro hz
      rw [hz] at hnat
      rw [← Char.ofNat_toNat c, ← hnat]
      rfl
    · intro hc
      rw [hc]
      rfl

theorem asciiOf_append_zeros {name : List Char} (h : ∀ c ∈ name, c.toNat < 128) (n : Nat) :
    Read.asciiOf (name.map (fun c => UInt8.ofNat c.toNat) ++ List.replicate n 0) =
      String.ofList (name.takeWhile (· ≠ '\x00')) := by
  unfold Read.asciiOf
  congr 1
  induction name with
  | nil =>
    rw [List.map_nil, List.nil_append]
    cases n with
    | zero => rfl
    | succ n => rfl
  | cons c name ih =>
    obtain ⟨hc, hname⟩ := List.forall_mem_cons.1 h
    obtain ⟨hchar, hzero⟩ := asciiChar_ofNat hc
    rw [List.map_cons, List.cons_append, List.takeWhile_cons, List.takeWhile_cons]
    by_cases hnull : c = '\x00'
    · rw [if_neg (by simpa using hzero.2 hnull), if_neg (by simpa using hnull)]
      rfl
    · rw [if_pos (by simpa using fun hz => hnull (hzero.1 hz)), if_pos (by simpa using hnull),
        List.map_cons, hchar, ih hname]

theorem length_ascii {size : Nat} {name : String} {bs : Bytes} (h : ascii name size = .ok bs) :
    bs.length = size := by
  obtain ⟨units, -, h⟩ := bind_eq_ok_iff.1 h
  cases h
  exact length_fixed _ _

/-- The field of a name shows the name up to its first null character. -/
theorem asciiOf_ascii {size : Nat} {name : String} {bs : Bytes} (h : ascii name size = .ok bs)
    (hl : name.length ≤ size) : (∀ c ∈ name.toList, c.toNat < 128) ∧
      Read.asciiOf bs = String.ofList (name.toList.takeWhile (· ≠ '\x00')) := by
  unfold ascii at h
  obtain ⟨units, hunits, h⟩ := bind_eq_ok_iff.1 h
  obtain ⟨hall, rfl⟩ := asciiBytes_eq_ok_iff.1 hunits
  cases h
  rw [fixed_of_le (by rw [List.length_map, String.length_toList]; exact hl)]
  exact ⟨hall, asciiOf_append_zeros hall _⟩

theorem exists_ascii {size : Nat} {name : String} (h : IsName name) (hl : name.length ≤ size) :
    ∃ bs, ascii name size = .ok bs ∧ bs.length = size ∧ Read.asciiOf bs = name := by
  have hw : ascii name size =
      .ok (fixed size (name.toList.map fun c => UInt8.ofNat c.toNat)) := by
    unfold ascii
    rw [asciiBytes_eq_ok_iff.2 ⟨fun c hc => (h c hc).1, rfl⟩]
    rfl
  refine ⟨_, hw, length_ascii hw, ?_⟩
  rw [(asciiOf_ascii hw hl).2, List.takeWhile_eq_self_iff.2 fun c hc => decide_eq_true (h c hc).2,
    String.ofList_toList]

end Field
end QuestArchive
