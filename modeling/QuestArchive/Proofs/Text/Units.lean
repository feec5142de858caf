import QuestArchive.Text.Utf16

/-!
# Text and its 16-bit units

A text without lone surrogates has units, and reading them gives the text back.  The
other way round units are lost only where a replacement character stands in their place.
-/

namespace QuestArchive
namespace Text

/-- No surrogate stands alone, so that the text can be encoded. -/
def Encodable (t : Text) : Prop := ∀ n, Rune.surrogate n ∉ t

def charBytes (c : Char) : Bytes := (charUnits c).flatMap (Word.encode 2)

def unitBytes : Text → Bytes
  | [] => []
  | .char c :: t => charBytes c ++ unitBytes t
  | .surrogate _ :: t => unitBytes t

theorem Encodable.tail {r : Rune} {t : Text} (h : Encodable (r :: t)) : Encodable t :=
  fun n hn => h n (List.mem_cons_of_mem r hn)

theorem encode16_go_of_encodable {t : Text} (h : Encodable t) :
    ∀ position, encode16.go position t = .ok (unitBytes t) := by
  induction t with
  | nil => intro _; rfl
  | cons r t ih =>
    intro position
    cases r with
    | char c =>
      rw [encode16.go, ih h.tail]
      rfl
    | surrogate n => exact absurd List.mem_cons_self (h n)

theorem encode16_of_encodable {t : Text} (h : Encodable t) : encode16 t = .ok (unitBytes t) :=
  encode16_go_of_encodable h 0

theorem encodable_of_encode16_go {t : Text} : ∀ {position : Nat} {bs : Bytes},
    encode16.go position t = .ok bs → Encodable t := by
  induction t with
  | nil => intro _ _ _ n hn; cases hn
  | cons r t ih =>
    intro position bs h
    cases r with
    | char c =>
      rw [encode16.go] at h
      cases ht : encode16.go (position + 1) t with
      | error e => rw [ht] at h; cases h
      | ok rest =>
        intro n hn
        rcases List.mem_cons.1 hn with hn | hn
        · cases hn
        · exact ih ht n hn
    | surrogate n => cases h

theorem encodable_of_encode16 {t : Text} {bs : Bytes} (h : encode16 t = .ok bs) : Encodable t :=
  encodable_of_encode16_go h

theorem length_charBytes (c : Char) : (charBytes c).length = 2 * (charUnits c).length := by
  unfold charBytes charUnits
  split <;> rfl

theorem even_length_unitBytes (t : Text) : (unitBytes t).length % 2 = 0 := by
  induction t with
  | nil => rfl
  | cons r t ih =>
    cases r with
    | char c =>
      rw [unitBytes, List.length_append, length_charBytes]
      omega
    | surrogate n => exact ih

theorem size16_of_encodable {t : Text} (h : Encodable t) : size16 t = (unitBytes t).length := by
  induction t with
  | nil => rfl
  | cons r t ih =>
    cases r with
    | char c =>
      have ht := ih h.tail
      unfold size16 at ht
      rw [size16, List.foldr_cons, ht, unitBytes, List.length_append, length_charBytes]
    | surrogate n => exact absurd List.mem_cons_self (h n)

/-! ## Reading units -/

theorem decode_word {n : Nat} (h : n < 65536) : Word.decode (Word.encode 2 n) = n :=
  @Word.decode_encode 2 n h

theorem toNat_bounds (c : Char) :
    (c.toNat < 0xD800 ∨ 0xE000 ≤ c.toNat) ∧ c.toNat < 0x110000 := by
  have h : c.toNat < 0xD800 ∨ 0xDFFF < c.toNat ∧ c.toNat < 0x110000 := c.valid
  omega

theorem decode16_charBytes (c : Char) (rest : Bytes) :
    decode16 (charBytes c ++ rest) = .char c :: decode16 rest := by
  obtain ⟨hc, hmax⟩ := toNat_bounds c
  by_cases hp : c.toNat < 0x10000
  · have hw := decode_word hp
    have hlow : isLowUnit c.toNat = false := by
      simp only [isLowUnit, Bool.and_eq_false_iff, decide_eq_false_iff_not]
      omega
    have hhigh : isHighUnit c.toNat = false := by
      simp only [isHighUnit, Bool.and_eq_false_iff, decide_eq_false_iff_not]
      omega
    simp only [charBytes, charUnits, hp, if_true, List.flatMap_cons, List.flatMap_nil,
      List.append_nil, Word.encode, List.cons_append, List.nil_append] at hw ⊢
    rw [decode16.eq_def]
    simp only [hw, hlow, hhigh, Bool.false_eq_true, if_false, Char.ofNat_toNat]
  · obtain ⟨d, hd⟩ : ∃ d, c.toNat = 0x10000 + d := ⟨c.toNat - 0x10000, by omega⟩
    have hsub : c.toNat - 0x10000 = d := by omega
    have hw := decode_word (n := 0xD800 + d / 0x400) (by omega)
    have hw' := decode_word (n := 0xDC00 + d % 0x400) (by omega)
    have hlow : isLowUnit (0xD800 + d / 0x400) = false := by
      simp only [isLowUnit, Bool.and_eq_false_iff, decide_eq_false_iff_not]
      omega
    have hhigh : isHighUnit (0xD800 + d / 0x400) = true := by
      simp only [isHighUnit, Bool.and_eq_true, decide_eq_true_eq]
      omega
    have hlow' : isLowUnit (0xDC00 + d % 0x400) = true := by
      simp only [isLowUnit, Bool.and_eq_true, decide_eq_true_eq]
      omega
    have hjoin : Rune.join (0xD800 + d / 0x400) (0xDC00 + d % 0x400) = .char c := by
      have hn : 0x10000 + (0xD800 + d / 0x400 - 0xD800) * 0x400 +
          (0xDC00 + d % 0x400 - 0xDC00) = c.toNat := by omega
      rw [Rune.join, hn, Char.ofNat_toNat]
    simp only [charBytes, charUnits, hp, if_false, hsub, List.flatMap_cons, List.flatMap_nil,
      List.append_nil, Word.encode, List.cons_append, List.nil_append] at hw hw' ⊢
    rw [decode16.eq_def]
    simp only [hw, hw', hlow, hhigh, hlow', hjoin, Bool.false_eq_true, if_false, if_true]

/-- Encoding loses nothing. -/
theorem decode16_unitBytes {t : Text} (h : Encodable t) : decode16 (unitBytes t) = t := by
  induction t with
  | nil => rw [unitBytes, decode16]
  | cons r t ih =>
    cases r with
    | char c => rw [unitBytes, decode16_charBytes, ih h.tail]
    | surrogate n => exact absurd List.mem_cons_self (h n)

theorem charBytes_ofNat {a b : UInt8} (hlow : isLowUnit (Word.decode [a, b]) = false)
    (hhigh : isHighUnit (Word.decode [a, b]) = false) :
    charBytes (Char.ofNat (Word.decode [a, b])) = [a, b] := by
  have hlt : Word.decode [a, b] < Word.bound 2 := Word.decode_lt [a, b]
  have hbound : Word.bound 2 = 0x10000 := rfl
  rw [hbound] at hlt
  simp only [isLowUnit, isHighUnit, Bool.and_eq_false_iff, decide_eq_false_iff_not] at hlow hhigh
  have hvalid : (Word.decode [a, b]).isValidChar := by
    unfold Nat.isValidChar
    omega
  have hn : (Char.ofNat (Word.decode [a, b])).toNat = Word.decode [a, b] := by
    rw [Char.ofNat, dif_pos hvalid]
    rfl
  unfold charBytes charUnits
  rw [hn, if_pos hlt]
  exact (List.append_nil _).trans (Word.encode_decode [a, b])

theorem charBytes_join {a b c d : UInt8} (hhigh : isHighUnit (Word.decode [a, b]) = true)
    (hlow : isLowUnit (Word.decode [c, d]) = true) :
    ∃ char, Rune.join (Word.decode [a, b]) (Word.decode [c, d]) = .char char ∧
      charBytes char = [a, b, c, d] := by
  refine ⟨_, rfl, ?_⟩
  simp only [isLowUnit, isHighUnit, Bool.and_eq_true, decide_eq_true_eq] at hlow hhigh
  have hu : Word.encode 2 (Word.decode [a, b]) = [a, b] := Word.encode_decode [a, b]
  have hv : Word.encode 2 (Word.decode [c, d]) = [c, d] := Word.encode_decode [c, d]
  generalize Word.decode [a, b] = u at hhigh hu
  generalize Word.decode [c, d] = v at hlow hv
  have hvalid : (0x10000 + (u - 0xD800) * 0x400 + (v - 0xDC00)).isValidChar := by
    unfold Nat.isValidChar
    omega
  have hn : (Char.ofNat (0x10000 + (u - 0xD800) * 0x400 + (v - 0xDC00))).toNat =
      0x10000 + (u - 0xD800) * 0x400 + (v - 0xDC00) := by
    rw [Char.ofNat, dif_pos hvalid]
    rfl
  have hfirst : 0xD800 + (0x10000 + (u - 0xD800) * 0x400 + (v - 0xDC00) - 0x10000) / 0x400 = u := by
    omega
  have hsecond :
      0xDC00 + (0x10000 + (u - 0xD800) * 0x400 + (v - 0xDC00) - 0x10000) % 0x400 = v := by
    omega
  unfold charBytes charUnits
  rw [hn, if_neg (by omega), hfirst, hsecond]
  show Word.encode 2 u ++ (Word.encode 2 v ++ []) = [a, b] ++ [c, d]
  rw [List.append_nil, hu, hv]

theorem Encodable.cons {c : Char} {t : Text} (h : Encodable t) : Encodable (.char c :: t) := by
  intro n hn
  rcases List.mem_cons.1 hn with hn | hn
  · cases hn
  · exact h n hn

/-- Whatever bytes are read, no surrogate stands alone. -/
theorem encodable_decode16 (bs : Bytes) : Encodable (decode16 bs) := by
  have nil : Encodable [] := fun _ => List.not_mem_nil
  fun_induction decode16 bs with
  | case1 => exact nil
  | case2 | case6 => exact nil.cons
  | case3 _ _ _ _ _ ih => exact ih.cons
  | case4 _ _ _ _ _ _ _ _ _ ih => exact ih.cons
  | case5 _ _ _ _ _ _ _ _ _ ih => exact ih.cons
  | case7 _ _ _ _ _ _ ih => exact ih.cons

/-- Units read without a replacement are the units of the text. -/
theorem unitBytes_decode16 {bs : Bytes} (h : Rune.replacement ∉ decode16 bs) :
    Encodable (decode16 bs) ∧ unitBytes (decode16 bs) = bs := by
  fun_induction decode16 bs with
  | case1 => exact ⟨fun _ => List.not_mem_nil, rfl⟩
  | case2 | case3 | case5 | case6 => exact absurd List.mem_cons_self h
  | case4 a b u hl hh c d rest hl' ih =>
    obtain ⟨char, hjoin, hchar⟩ := charBytes_join hh hl'
    rw [hjoin] at h ⊢
    obtain ⟨henc, hunits⟩ := ih fun hm => h (List.mem_cons_of_mem _ hm)
    refine ⟨henc.cons, ?_⟩
    rw [unitBytes, hchar, hunits]
    rfl
  | case7 a b rest u hl hh ih =>
    obtain ⟨henc, hunits⟩ := ih fun hm => h (List.mem_cons_of_mem _ hm)
    refine ⟨henc.cons, ?_⟩
    rw [unitBytes, charBytes_ofNat (by simpa using hl) (by simpa using hh), hunits]
    rfl

/-! ## The null unit behind a text -/

def NoNull : Bytes → Prop
  | [] => True
  | [_] => False
  | a :: b :: rest => ¬(a = 0 ∧ b = 0) ∧ NoNull rest

theorem NoNull.append {xs ys : Bytes} (hx : NoNull xs) (hy : NoNull ys) : NoNull (xs ++ ys) := by
  fun_induction NoNull xs with
  | case1 => exact hy
  | case2 => exact hx.elim
  | case3 a b rest ih => exact ⟨hx.1, ih hx.2⟩

theorem noNull_word {n : Nat} (h0 : 0 < n) (h : n < 65536) : NoNull (Word.encode 2 n) := by
  refine ⟨fun ⟨ha, hb⟩ => ?_, trivial⟩
  have hw := decode_word h
  have hz : Word.encode 2 n = [0, 0] := by
    show [UInt8.ofNat (n % 256), UInt8.ofNat (n / 256 % 256)] = _
    rw [ha, hb]
  rw [hz] at hw
  have : Word.decode [0, 0] = 0 := rfl
  omega

theorem noNull_charBytes {c : Char} (h : c ≠ '\x00') : NoNull (charBytes c) := by
  obtain ⟨hc, hmax⟩ := toNat_bounds c
  have h0 : c.toNat ≠ 0 := fun hz => h (by rw [← Char.ofNat_toNat c, hz])
  unfold charBytes charUnits
  split
  · simp only [List.flatMap_cons, List.flatMap_nil, List.append_nil]
    exact noNull_word (by omega) (by omega)
  · simp only [List.flatMap_cons, List.flatMap_nil, List.append_nil]
    exact (noNull_word (by omega) (by omega)).append (noNull_word (by omega) (by omega))

theorem noNull_unitBytes {t : Text} (h : Rune.char '\x00' ∉ t) : NoNull (unitBytes t) := by
  induction t with
  | nil => trivial
  | cons r t ih =>
    have ht := ih fun hm => h (List.mem_cons_of_mem r hm)
    cases r with
    | char c =>
      refine (noNull_charBytes fun hc => ?_).append ht
      rw [hc] at h
      exact h List.mem_cons_self
    | surrogate n => exact ht

end Text
end QuestArchive
