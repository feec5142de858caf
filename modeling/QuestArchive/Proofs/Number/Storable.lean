import QuestArchive.Proofs.Number.Error
import QuestArchive.Value.Field

/-!
# Numbers that four bytes hold

A number of single precision, a NaN among them, is written as four bytes that are read as
this number.  The integers among these numbers can stand for labels: rounding a number of
single precision gives one of them, and the number that stands for it is rounded to it.
-/

namespace QuestArchive
namespace Double

open BinaryFormat

def IsSingle (x : Double) : Prop := ∃ s, x = ofSingle s

theorem isSingle_singleOf (bs : Bytes) : (Read.singleOf bs).IsSingle := ⟨_, rfl⟩

theorem isSingle_zero : zero.IsSingle := ⟨0, by decide +kernel⟩

theorem isSingle_nan : nan.IsSingle := ⟨0x7FC00000, by decide +kernel⟩

/-- Narrowing a NaN gives a pattern that is widened to the same NaN. -/
theorem exists_toSingle?_nan {s : UInt32}
    (h : BinaryFormat.single.infinity < s.toNat % 0x80000000) :
    ∃ s', (ofSingle s).toSingle? = some s' ∧ ofSingle s' = ofSingle s := by
  have hinf : BinaryFormat.single.infinity = 0x7F800000 := rfl
  obtain ⟨negative, hneg⟩ : ∃ negative, negative = decide (0x80000000 ≤ s.toNat) := ⟨_, rfl⟩
  obtain ⟨p, hp⟩ : ∃ p, p = s.toNat % 0x80000000 % 0x400000 := ⟨_, rfl⟩
  have hplt : p < 0x400000 := by omega
  have hof : ofSingle s = ofCode negative (0x7FF8000000000000 + p * 0x20000000) := by
    unfold ofSingle
    dsimp only
    rw [if_pos h, hneg, hp]
  have hsign : 0x7FF8000000000000 + p * 0x20000000 < signBit := by
    unfold signBit
    omega
  obtain ⟨sign, hs⟩ : ∃ sign, sign = if negative = true then 0x80000000 else 0 := ⟨_, rfl⟩
  have hsmall : sign = 0x80000000 ∧ negative = true ∨ sign = 0 ∧ negative = false := by
    cases negative with
    | true => exact Or.inl ⟨hs, rfl⟩
    | false => exact Or.inr ⟨hs, rfl⟩
  have hnat : (UInt32.ofNat (sign + 0x7FC00000 + p)).toNat = sign + 0x7FC00000 + p := by
    rw [UInt32.toNat_ofNat']
    omega
  refine ⟨UInt32.ofNat (sign + 0x7FC00000 + p), ?_, ?_⟩
  · have hnan := ofSingle_nan h
    unfold toSingle?
    dsimp only
    rw [hnan, if_pos rfl, hof, negative_ofCode hsign, code_ofCode hsign, hs]
    congr 3
    omega
  · have hcode : (sign + 0x7FC00000 + p) % 0x80000000 = 0x7FC00000 + p := by omega
    have hrest : (0x7FC00000 + p) % 0x400000 = p := by omega
    have hback : decide (0x80000000 ≤ sign + 0x7FC00000 + p) = negative := by
      rcases hsmall with ⟨h1, h2⟩ | ⟨h1, h2⟩
      · rw [h2, decide_eq_true_eq]
        omega
      · rw [h2, decide_eq_false_iff_not]
        omega
    rw [hof]
    unfold ofSingle
    dsimp only
    rw [hnat, hcode, hrest, hback, if_pos (by rw [hinf]; omega)]

theorem not_nan_of_le {s : UInt32} (h : s.toNat % 0x80000000 ≤ BinaryFormat.single.infinity) :
    (ofSingle s).isNaN = false := by
  rcases Nat.lt_or_eq_of_le h with hlt | heq
  · obtain ⟨code, hof, hcode, -⟩ := ofSingle_finite hlt
    rw [hof, isNaN, code_ofCode (hcode.trans (by decide)), decide_eq_false_iff_not]
    omega
  · rw [ofSingle_infinite heq, isNaN, code_ofCode (by decide), decide_eq_false_iff_not]
    omega

/-- A number of single precision is written as bytes that are read as this number. -/
theorem exists_single_field {x : Double} (h : x.IsSingle) :
    ∃ bs : Bytes, bs.length = 4 ∧ x = Read.singleOf bs ∧ Field.single x = .ok bs := by
  obtain ⟨s, rfl⟩ := h
  have narrow : ∃ s', (ofSingle s).toSingle? = some s' ∧ ofSingle s' = ofSingle s := by
    by_cases hn : BinaryFormat.single.infinity < s.toNat % 0x80000000
    · exact exists_toSingle?_nan hn
    · exact ⟨s, toSingle?_ofSingle (not_nan_of_le (Nat.not_lt.1 hn)), rfl⟩
  obtain ⟨s', hs, he⟩ := narrow
  refine ⟨Word.encode 4 s'.toNat, Word.length_encode 4 _, ?_, ?_⟩
  · unfold Read.singleOf
    rw [Word.decode_encode s'.toNat_lt, UInt32.ofNat_toNat, he]
  · unfold Field.single
    rw [hs]

/-! ## Labels as numbers -/

/-- What has the value of a finite code is rounded to this code. -/
theorem round_value {f : BinaryFormat} {code num den : Nat} (hd : 0 < den)
    (hc : code < f.infinity) (hv : (num : ℚ) / den = f.value code) : f.round num den = code := by
  obtain ⟨k, hk, hcode, hm, hb⟩ := parts_spec f code
  rw [value, hk] at hv
  exact (round_exact hd hm (hcode ▸ hc) hb hv).trans hcode.symm

theorem code_unique {c c' : Nat} (hc : c < infinityCode) (hc' : c' < infinityCode)
    (hv : BinaryFormat.double.value c = BinaryFormat.double.value c') : c = c' := by
  have hratio : (((BinaryFormat.double.parts c).1 * pow2 (BinaryFormat.double.parts c).2.toNat :
      Nat) : ℚ) / (pow2 (-(BinaryFormat.double.parts c).2).toNat : Nat) =
      BinaryFormat.double.value c := by
    rw [value, zpow_split]
    push_cast
    rw [pow2_eq, pow2_eq]
    ring
  have h := round_value (pow2_pos _) hc hratio
  have h' := round_value (pow2_pos _) hc' (hratio.trans hv)
  exact h.symm.trans h'

/-- A value is written with a significand that has its leading bit in place, unless the
exponent is the least one. -/
theorem exists_normal (unit : Nat) {m : Nat} (hm : m < 2 * unit) (k : Nat) :
    ∃ k' m', k' ≤ k ∧ m' < 2 * unit ∧ (k' = 0 ∨ unit ≤ m') ∧ m' * 2 ^ k' = m * 2 ^ k := by
  induction k generalizing m with
  | zero => exact ⟨0, m, Nat.le_refl 0, hm, Or.inl rfl, rfl⟩
  | succ k ih =>
    by_cases hle : unit ≤ m
    · exact ⟨k + 1, m, Nat.le_refl _, hm, Or.inr hle, rfl⟩
    · obtain ⟨k', m', hk, hm', hb, he⟩ := ih (m := 2 * m) (by omega)
      refine ⟨k', m', by omega, hm', hb, ?_⟩
      rw [he, pow_succ]
      ring

/-- A number of double precision with a short significand is one of single precision. -/
theorem isSingle_of_value {code m : Nat} {e : Int} (negative : Bool) (hc : code < infinityCode)
    (hm : m < 2 ^ 24) (he : -149 ≤ e) (he' : e ≤ 104)
    (hv : BinaryFormat.double.value code = m * 2 ^ e) : (ofCode negative code).IsSingle := by
  obtain ⟨k, m', hk, hm', hb, hmul⟩ := exists_normal (2 ^ 23) (m := m) (by omega) (e + 149).toNat
  have hunit : pow2 (BinaryFormat.single.precision - 1) = 2 ^ 23 := rfl
  have hk' : k ≤ 253 := by omega
  obtain ⟨sc, hsc⟩ : ∃ sc, sc = k * 2 ^ 23 + m' := ⟨_, rfl⟩
  have hinf : sc < BinaryFormat.single.infinity := by
    show sc < 0x7F800000
    omega
  have hlt : sc < 0x7F800000 := hinf
  have hparts : BinaryFormat.single.parts sc = (m', BinaryFormat.single.least + k) := by
    have hp := parts_split (f := BinaryFormat.single) (m := m') (k := k)
      (by rw [hunit]; exact hm') (by rw [hunit]; exact hb)
    rw [hunit, ← hsc] at hp
    exact hp
  obtain ⟨sign, hsign⟩ : ∃ sign, sign = if negative = true then 0x80000000 else 0 := ⟨_, rfl⟩
  have hs : sign = 0x80000000 ∧ negative = true ∨ sign = 0 ∧ negative = false := by
    cases negative with
    | true => exact Or.inl ⟨hsign, rfl⟩
    | false => exact Or.inr ⟨hsign, rfl⟩
  have hnat : (UInt32.ofNat (sign + sc)).toNat = sign + sc := by
    rw [UInt32.toNat_ofNat']
    omega
  have hmod : (UInt32.ofNat (sign + sc)).toNat % 0x80000000 = sc := by
    rw [hnat]
    omega
  have hneg : decide (0x80000000 ≤ (UInt32.ofNat (sign + sc)).toNat) = negative := by
    rw [hnat]
    rcases hs with ⟨h1, h2⟩ | ⟨h1, h2⟩
    · rw [h2, decide_eq_true_eq]
      omega
    · rw [h2, decide_eq_false_iff_not]
      omega
  obtain ⟨code', hof, hcode', hvalue⟩ := ofSingle_finite (s := UInt32.ofNat (sign + sc))
    (by rw [hmod]; exact hinf)
  rw [hmod, hparts] at hvalue
  have hsame : code' = code := by
    refine code_unique hcode' hc ?_
    rw [hv, value, hvalue]
    have hleast : (BinaryFormat.single.least : Int) + k = (k : Int) + (-149) := by
      show (-149 : Int) + k = k + -149
      omega
    have hnat' : ((e + 149).toNat : Int) + (-149) = e := by omega
    have hq : (m' : ℚ) * 2 ^ k = m * 2 ^ (e + 149).toNat := by exact_mod_cast hmul
    rw [hleast, ← hnat', zpow_add₀ (by norm_num), zpow_add₀ (by norm_num), zpow_natCast,
      zpow_natCast, ← mul_assoc, ← mul_assoc, hq]
  exact ⟨_, by rw [hof, hneg, hsame]⟩

def IsLabel (n : Int) : Prop := ∃ m e : Nat, n.natAbs = m * 2 ^ e ∧ m < 2 ^ 24 ∧ e ≤ 104

theorem isLabel_of_le {n : Int} (h : n.natAbs ≤ 2 ^ 24) : IsLabel n := by
  rcases Nat.lt_or_eq_of_le h with hlt | heq
  · exact ⟨n.natAbs, 0, by rw [pow_zero, Nat.mul_one], hlt, Nat.zero_le _⟩
  · exact ⟨1, 24, by rw [heq, Nat.one_mul], by decide, by decide⟩

theorem finite_bounds {x : Double} (h : x.isFinite = true) :
    x.isNaN = false ∧ x.isInfinite = false := by
  have hf := of_decide_eq_true h
  exact ⟨decide_eq_false (by omega), decide_eq_false (by omega)⟩

/-- A label is a number of single precision, which is rounded to it. -/
theorem exists_number {n : Int} (h : IsLabel n) :
    ∃ x, Field.number n = .ok x ∧ x.IsSingle ∧ x.isFinite = true ∧ x.roundInt = n := by
  by_cases h0 : n = 0
  · subst h0
    exact ⟨⟨0⟩, by decide +kernel, ⟨0, by decide +kernel⟩, by decide +kernel, by decide +kernel⟩
  obtain ⟨m, e, hn, hm, he⟩ := h
  have hm0 : 0 < m := by
    rcases Nat.eq_zero_or_pos m with rfl | hm0
    · rw [Nat.zero_mul] at hn
      omega
    · exact hm0
  obtain ⟨code, hlt, hvalue, -⟩ := widen (e := e) hm0 hm (by omega) (by omega)
  have hsign : code < signBit := hlt.trans (by decide)
  have hnatAbs : ((n.natAbs : Nat) : ℚ) = m * 2 ^ (e : Int) := by
    rw [hn, zpow_natCast]
    push_cast
    rfl
  have hx : ofRatio (n < 0) n.natAbs 1 0 = ofCode (n < 0) code := by
    unfold ofRatio
    rw [@round_value _ code _ _ (by decide) hlt]
    rw [value, hvalue, ← hnatAbs]
    simp [pow2]
  have hcode := @code_ofCode (n < 0) code hsign
  have hfin : (ofCode (n < 0) code).isFinite = true := by
    unfold isFinite
    rw [hcode]
    exact decide_eq_true hlt
  refine ⟨ofCode (n < 0) code, ?_, isSingle_of_value (n < 0) hlt hm (by omega) (by omega) hvalue,
    hfin, ?_⟩
  · unfold Field.number ofInt?
    dsimp only
    rw [hx, hfin, if_pos rfl]
  · have hmag : (ofCode (n < 0) code).magnitude = n.natAbs := by
      rw [magnitude, Double.parts, hcode, hvalue, hnatAbs]
    have hr := roundInt_of_near (x := ofCode (n < 0) code) (n := n.natAbs)
      (negative_ofCode hsign) (by rw [hmag, sub_self, abs_zero]; norm_num)
    rw [hr]
    by_cases hneg : n < 0
    · rw [if_pos (decide_eq_true hneg)]
      omega
    · rw [if_neg (by simpa using hneg)]
      omega

theorem natAbs_roundInt (x : Double) :
    x.roundInt.natAbs = roundRatio x.ratio.1 x.ratio.2 := by
  unfold roundInt
  dsimp only
  split
  · rw [Int.natAbs_neg, Int.natAbs_natCast]
  · rw [Int.natAbs_natCast]

theorem finite_of_ofSingle {s : UInt32} (h : (ofSingle s).isFinite = true) :
    s.toNat % 0x80000000 < BinaryFormat.single.infinity := by
  obtain ⟨hnan, hinf⟩ := finite_bounds h
  rcases Nat.lt_trichotomy (s.toNat % 0x80000000) BinaryFormat.single.infinity with hlt | heq | hgt
  · exact hlt
  · rw [ofSingle_infinite heq, isInfinite, code_ofCode (by decide)] at hinf
    simp at hinf
  · rw [ofSingle_nan hgt] at hnan
    cases hnan

theorem isLabel_roundInt {x : Double} (h : x.IsSingle) (hf : x.isFinite = true) :
    IsLabel x.roundInt := by
  obtain ⟨s, rfl⟩ := h
  have hlt := finite_of_ofSingle hf
  obtain ⟨code, hof, hcode, hvalue⟩ := ofSingle_finite hlt
  obtain ⟨k, hk, hsplit, hm, hb⟩ := parts_spec BinaryFormat.single (s.toNat % 0x80000000)
  obtain ⟨m, hmdef⟩ : ∃ m, m = (BinaryFormat.single.parts (s.toNat % 0x80000000)).1 := ⟨_, rfl⟩
  have hunit : pow2 (BinaryFormat.single.precision - 1) = 2 ^ 23 := rfl
  have hinf : BinaryFormat.single.infinity = 0x7F800000 := rfl
  have hleast : BinaryFormat.single.least = -149 := rfl
  rw [hunit, ← hmdef] at hm hsplit hb
  have hk' : k ≤ 253 := by omega
  rw [hk, ← hmdef, hleast] at hvalue
  have hratio : ((ofSingle s).ratio.1 : ℚ) / (ofSingle s).ratio.2 = m * 2 ^ ((-149 : Int) + k) := by
    rw [ratio_div, Double.parts, hof, code_ofCode (hcode.trans (by decide)), hvalue]
  rcases Nat.lt_or_ge k 149 with hsmall | hlarge
  · -- Below 2²³ a number may have a fraction, and is rounded to a small integer.
    have herr := (abs_le.1
      (@roundRatio_error (ofSingle s).ratio.1 _ (ratio_pos (ofSingle s)))).2
    rw [hratio] at herr
    have hpow : (2 : ℚ) ^ ((-149 : Int) + k) ≤ 1 / 2 := by
      rw [show (1 : ℚ) / 2 = 2 ^ (-1 : Int) by norm_num]
      exact zpow_le_zpow_right₀ (by norm_num) (by omega)
    have hmq : (m : ℚ) < 2 ^ 24 := by
      have h : m < 2 ^ 24 := by omega
      exact_mod_cast h
    have hm0 : (0 : ℚ) ≤ m := Nat.cast_nonneg m
    refine isLabel_of_le ?_
    rw [natAbs_roundInt]
    have hle : (roundRatio (ofSingle s).ratio.1 (ofSingle s).ratio.2 : ℚ) ≤ 2 ^ 24 := by
      nlinarith
    exact_mod_cast hle
  · refine ⟨m, k - 149, ?_, by omega, by omega⟩
    have hexp : ((-149 : Int) + k) = ((k - 149 : Nat) : Int) := by omega
    have hint : ((ofSingle s).ratio.1 : ℚ) / (ofSingle s).ratio.2 = (m * 2 ^ (k - 149) : Nat) := by
      rw [hratio, hexp, zpow_natCast]
      push_cast
      rfl
    rw [natAbs_roundInt]
    refine roundRatio_eq (ratio_pos _) ?_ ?_ fun _ => ⟨?_, ?_⟩
    all_goals
      rw [hint]
      linarith

end Double
end QuestArchive
