import QuestArchive.Number.Double
import QuestArchive.Proofs.Number.Rounding

/-!
# Single precision inside double precision

A number of single precision has a double-precision form of the same value, so that
narrowing what was widened gives the same pattern.  Only a NaN is changed on the way.
-/

namespace QuestArchive
namespace Double

open BinaryFormat

theorem code_ofCode {negative : Bool} {code : Nat} (h : code < signBit) :
    (ofCode negative code).code = code := by
  unfold signBit at h
  cases negative with
  | false =>
    simp only [Double.code, ofCode, signBit, UInt64.toNat_ofNat', if_neg Bool.false_ne_true]
    omega
  | true =>
    simp only [Double.code, ofCode, signBit, UInt64.toNat_ofNat', if_true]
    omega

theorem negative_ofCode {negative : Bool} {code : Nat} (h : code < signBit) :
    (ofCode negative code).negative = negative := by
  unfold signBit at h
  cases negative with
  | false =>
    simp only [Double.negative, ofCode, signBit, UInt64.toNat_ofNat', if_neg Bool.false_ne_true,
      decide_eq_false_iff_not]
    omega
  | true =>
    simp only [Double.negative, ofCode, signBit, UInt64.toNat_ofNat', if_true, decide_eq_true_eq]
    omega

theorem ratio_div (x : Double) : (x.ratio.1 : ℚ) / x.ratio.2 = x.parts.1 * 2 ^ x.parts.2 := by
  unfold ratio
  rw [zpow_split]
  simp only [Nat.cast_mul, pow2_eq]
  ring

theorem ratio_pos (x : Double) : 0 < x.ratio.2 := pow2_pos _

theorem exists_shift {m top : Nat} (hm : 0 < m) (ht : Nat.log2 m ≤ top) :
    ∃ shift, shift + Nat.log2 m = top ∧ 2 ^ top ≤ m * 2 ^ shift ∧ m * 2 ^ shift < 2 * 2 ^ top := by
  have b1 : 2 ^ Nat.log2 m ≤ m := Nat.log2_self_le (by omega)
  have b2 : m < 2 ^ (Nat.log2 m + 1) := Nat.lt_log2_self
  obtain ⟨shift, hshift⟩ : ∃ shift, shift + Nat.log2 m = top := ⟨top - Nat.log2 m, by omega⟩
  refine ⟨shift, hshift, ?_, ?_⟩
  · calc 2 ^ top = 2 ^ Nat.log2 m * 2 ^ shift := by rw [← pow_add, Nat.add_comm, hshift]
      _ ≤ m * 2 ^ shift := Nat.mul_le_mul_right _ b1
  · calc m * 2 ^ shift < 2 ^ (Nat.log2 m + 1) * 2 ^ shift :=
          Nat.mul_lt_mul_of_pos_right b2 (Nat.two_pow_pos shift)
      _ = 2 * 2 ^ (shift + Nat.log2 m) := by rw [pow_add 2 shift, pow_succ]; ring
      _ = 2 * 2 ^ top := by rw [hshift]

/-- A significand of at most 24 bits above an exponent of single precision, as the code
of a number of double precision. -/
theorem widen {m : Nat} {e : Int} (hm : 0 < m) (hm' : m < 2 ^ 24) (he : -149 ≤ e) (he' : e ≤ 104) :
    ∃ code, code < infinityCode ∧
      ((BinaryFormat.double.parts code).1 : ℚ) * 2 ^ (BinaryFormat.double.parts code).2 =
        m * 2 ^ e ∧
      BinaryFormat.double.round (m * pow2 e.toNat) (pow2 (-e).toNat) = code := by
  have hb : Nat.log2 m < 24 := (Nat.log2_lt (by omega)).2 hm'
  obtain ⟨shift, hshift, low, high⟩ := @exists_shift m 52 hm (by omega)
  obtain ⟨k, hk⟩ : ∃ k : Nat, (k : Int) = e - shift + 1074 := ⟨(e - shift + 1074).toNat, by omega⟩
  have hunit : pow2 (BinaryFormat.double.precision - 1) = 2 ^ 52 := rfl
  have hk' : k + 52 = (e + Nat.log2 m + 1074).toNat := by omega
  have hklt : k ≤ 1149 := by omega
  have hinf : k * 2 ^ 52 + m * 2 ^ shift < BinaryFormat.double.infinity := by
    show k * 2 ^ 52 + m * 2 ^ shift < 0x7FF0000000000000
    omega
  have value : (m : ℚ) * 2 ^ e = (m * 2 ^ shift : Nat) * 2 ^ (BinaryFormat.double.least + k) := by
    have hz : e = shift + (BinaryFormat.double.least + k) := by
      show e = shift + ((-1074 : Int) + k)
      omega
    rw [hz, zpow_add₀ (by norm_num), zpow_natCast]
    push_cast
    ring
  have hparts : BinaryFormat.double.parts (k * 2 ^ 52 + m * 2 ^ shift) =
      (m * 2 ^ shift, BinaryFormat.double.least + k) := by
    have hdiv : (k * 2 ^ 52 + m * 2 ^ shift) / 2 ^ 52 = k + 1 := by omega
    have hmod : (k * 2 ^ 52 + m * 2 ^ shift) % 2 ^ 52 = m * 2 ^ shift - 2 ^ 52 := by omega
    unfold BinaryFormat.parts
    simp only [hunit, hdiv, hmod]
    rw [if_neg (Nat.succ_ne_zero k)]
    refine Prod.ext ?_ ?_
    · show 2 ^ 52 + (m * 2 ^ shift - 2 ^ 52) = m * 2 ^ shift
      omega
    · show (-1074 : Int) + (k + 1 : Nat) - 1 = -1074 + k
      omega
  refine ⟨k * 2 ^ 52 + m * 2 ^ shift, hinf, ?_, ?_⟩
  · rw [hparts, value]
  · refine round_exact (f := BinaryFormat.double) (pow2_pos _) high hinf (Or.inr low) ?_
    rw [← value, zpow_split, Nat.cast_mul, pow2_eq, pow2_eq]
    ring

/-- A finite pattern of single precision keeps its sign, and its value under another
code. -/
theorem ofSingle_finite {s : UInt32} (h : s.toNat % 0x80000000 < BinaryFormat.single.infinity) :
    ∃ code, Double.ofSingle s = ofCode (0x80000000 ≤ s.toNat) code ∧ code < infinityCode ∧
      ((BinaryFormat.double.parts code).1 : ℚ) * 2 ^ (BinaryFormat.double.parts code).2 =
        (BinaryFormat.single.parts (s.toNat % 0x80000000)).1 *
          2 ^ (BinaryFormat.single.parts (s.toNat % 0x80000000)).2 := by
  obtain ⟨k, hk, hcode, hm, hb⟩ := parts_spec BinaryFormat.single (s.toNat % 0x80000000)
  have hunit : pow2 (BinaryFormat.single.precision - 1) = 2 ^ 23 := rfl
  have hleast : BinaryFormat.single.least = -149 := rfl
  have hinf : BinaryFormat.single.infinity = 0x7F800000 := rfl
  rw [hunit] at hcode hm hb
  have hof : Double.ofSingle s = ofCode (0x80000000 ≤ s.toNat)
      (BinaryFormat.double.round
        ((BinaryFormat.single.parts (s.toNat % 0x80000000)).1 *
          pow2 (BinaryFormat.single.parts (s.toNat % 0x80000000)).2.toNat)
        (pow2 (-(BinaryFormat.single.parts (s.toNat % 0x80000000)).2).toNat)) := by
    unfold ofSingle
    simp only
    rw [if_neg (by omega), if_neg (by omega), ofRatio, Nat.one_mul]
  rcases Nat.eq_zero_or_pos (BinaryFormat.single.parts (s.toNat % 0x80000000)).1 with h0 | h0
  · refine ⟨0, ?_, by decide, ?_⟩
    · rw [hof, h0, Nat.zero_mul]
      rfl
    · rw [h0]
      show ((0 : Nat) : ℚ) * _ = _
      simp
  · have hk' : k ≤ 253 := by omega
    obtain ⟨code, hlt, hvalue, hround⟩ :=
      widen (e := (BinaryFormat.single.parts (s.toNat % 0x80000000)).2) h0 (by omega)
        (by rw [hk, hleast]; omega) (by rw [hk, hleast]; omega)
    exact ⟨code, by rw [hof, hround], hlt, hvalue⟩

theorem ofSingle_infinite {s : UInt32}
    (h : s.toNat % 0x80000000 = BinaryFormat.single.infinity) :
    ofSingle s = ofCode (0x80000000 ≤ s.toNat) infinityCode := by
  unfold ofSingle
  simp only
  rw [if_neg (by omega), if_pos h]

theorem ofSingle_nan {s : UInt32} (h : BinaryFormat.single.infinity < s.toNat % 0x80000000) :
    (Double.ofSingle s).isNaN = true := by
  unfold ofSingle
  simp only
  rw [if_pos h, isNaN, code_ofCode (by unfold signBit; omega), decide_eq_true_eq]
  show 0x7FF0000000000000 < _
  omega

theorem toSingle?_ofSingle {s : UInt32} (h : (Double.ofSingle s).isNaN = false) :
    (Double.ofSingle s).toSingle? = some s := by
  have hlt : s.toNat < 0x100000000 := s.toNat_lt
  have hinf : BinaryFormat.single.infinity = 0x7F800000 := rfl
  have hdbl : infinityCode = 0x7FF0000000000000 := rfl
  -- The sign and the code of the pattern make the pattern up.
  have whole : UInt32.ofNat ((if decide (0x80000000 ≤ s.toNat) = true then 0x80000000 else 0) +
      s.toNat % 0x80000000) = s := by
    have hs : (if decide (0x80000000 ≤ s.toNat) = true then 0x80000000 else 0) +
        s.toNat % 0x80000000 = s.toNat := by
      by_cases hn : 0x80000000 ≤ s.toNat
      · rw [if_pos (decide_eq_true hn)]
        omega
      · rw [if_neg (by simpa using hn)]
        omega
    rw [hs]
    exact UInt32.ofNat_toNat
  rcases Nat.lt_trichotomy (s.toNat % 0x80000000) BinaryFormat.single.infinity with hc | hc | hc
  · obtain ⟨code, hof, hcode, hvalue⟩ := ofSingle_finite hc
    obtain ⟨k, hk, hsplit, hm, hb⟩ := parts_spec BinaryFormat.single (s.toNat % 0x80000000)
    have hsign : code < signBit := by
      unfold signBit
      omega
    have hround : BinaryFormat.single.round (Double.ofSingle s).ratio.1
        (Double.ofSingle s).ratio.2 = s.toNat % 0x80000000 := by
      rw [hsplit]
      refine round_exact (ratio_pos _) hm (by rw [← hsplit]; exact hc) hb ?_
      rw [ratio_div, hof, Double.parts, code_ofCode hsign, hvalue, hk]
    unfold toSingle?
    simp only
    rw [h, if_neg Bool.false_ne_true, if_neg, hround, if_neg (Nat.ne_of_lt hc), hof,
      negative_ofCode hsign, whole]
    rw [hof, isInfinite, code_ofCode hsign, decide_eq_true_eq]
    exact Nat.ne_of_lt hcode
  · have hof := ofSingle_infinite hc
    have hsign : infinityCode < signBit := by decide
    unfold toSingle?
    simp only
    rw [h, if_neg Bool.false_ne_true, if_pos, hof, negative_ofCode hsign, ← hc, whole]
    rw [hof, isInfinite, code_ofCode hsign, decide_eq_true_eq]
  · rw [ofSingle_nan hc] at h
    cases h

/-- A significand of at most 24 bits is a number of single precision. -/
theorem round_single {m num den : Nat} (hm : 0 < m) (hm' : m < 2 ^ 24) (hd : 0 < den)
    (value : (num : ℚ) / den = m) :
    BinaryFormat.single.round num den < BinaryFormat.single.infinity := by
  have hb : Nat.log2 m < 24 := (Nat.log2_lt (by omega)).2 hm'
  obtain ⟨shift, hshift, low, high⟩ := @exists_shift m 23 hm (by omega)
  obtain ⟨k, hk⟩ : ∃ k, k + shift = 149 := ⟨149 - shift, by omega⟩
  have hinf : k * 2 ^ 23 + m * 2 ^ shift < BinaryFormat.single.infinity := by
    show k * 2 ^ 23 + m * 2 ^ shift < 0x7F800000
    omega
  have hval : (num : ℚ) / den = (m * 2 ^ shift : Nat) * 2 ^ (BinaryFormat.single.least + k) := by
    have he : BinaryFormat.single.least + (k : Int) = -(shift : Int) := by
      show (-149 : Int) + k = -shift
      omega
    rw [value, he, zpow_neg, zpow_natCast]
    push_cast
    field_simp
  have hr := round_exact (f := BinaryFormat.single) hd high hinf (Or.inr low) hval
  rw [hr]
  exact hinf

theorem exists_ofInt? {n : Int} (h : n.natAbs < 2 ^ 24) :
    ∃ x, ofInt? n = some x ∧ x.toSingle? ≠ none := by
  by_cases h0 : n = 0
  · subst h0
    exact ⟨_, rfl, by decide⟩
  obtain ⟨code, hlt, hvalue, hround⟩ := widen (m := n.natAbs) (e := 0) (by omega) h
    (by decide) (by decide)
  have hsign : code < signBit := hlt.trans (by decide)
  have hx : ofRatio (n < 0) n.natAbs 1 0 = ofCode (n < 0) code := by
    unfold ofRatio
    rw [← hround]
    rfl
  have hcode := @code_ofCode (n < 0) code hsign
  have hfin : (ofCode (n < 0) code).isFinite = true := by
    unfold isFinite
    rw [hcode]
    exact decide_eq_true hlt
  have hsingle := round_single (m := n.natAbs) (by omega) h (ratio_pos (ofCode (n < 0) code)) (by
    rw [ratio_div]
    unfold parts
    rw [hcode, hvalue, zpow_zero, mul_one])
  refine ⟨ofCode (n < 0) code, ?_, ?_⟩
  · unfold ofInt?
    simp only [hx, hfin, if_true]
  · unfold toSingle?
    have hnan : (ofCode (n < 0) code).isNaN = false := by
      unfold isNaN
      rw [hcode]
      exact decide_eq_false (by omega)
    have hinf : (ofCode (n < 0) code).isInfinite = false := by
      unfold isInfinite
      rw [hcode]
      exact decide_eq_false (by omega)
    simp only [hnan, hinf, Bool.false_eq_true, if_false]
    rw [if_neg (Nat.ne_of_lt hsingle)]
    exact Option.some_ne_none _

end Double
end QuestArchive
