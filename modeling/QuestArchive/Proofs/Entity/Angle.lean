import QuestArchive.Entity.Record
import QuestArchive.Proofs.Number.Error

/-!
# Angles keep their count of units

The radians of a count are rounded, and so is the quotient that gives the count again.  For
a count of 32 bits both errors together stay far below one half.
-/

namespace QuestArchive
namespace Angle

open Double

theorem normal_bounds : (2 : ℚ) ^ (-1022 : Int) ≤ 1 / 2 ^ 20 ∧ (2 : ℚ) ^ 40 < 2 ^ (1023 : Int) := by
  constructor
  · rw [show (1 : ℚ) / 2 ^ 20 = 2 ^ (-20 : Int) by norm_num]
    exact zpow_le_zpow_right₀ (by norm_num) (by norm_num)
  · rw [show (2 : ℚ) ^ 40 = 2 ^ (40 : Int) by norm_num]
    exact zpow_lt_zpow_right₀ (by norm_num) (by norm_num)

theorem unit_regular : unit.negative = false ∧ unit.isNaN = false ∧ unit.isInfinite = false ∧
    unit.isZero = false := by decide +kernel

theorem unit_parts : unit.parts = (7074345697977201, -66) := by decide +kernel

theorem unit_bounds : (1 : ℚ) / 2 ^ 14 ≤ unit.magnitude ∧ unit.magnitude ≤ 1 / 2 ^ 13 := by
  unfold magnitude
  rw [unit_parts]
  constructor
  · norm_num
  · norm_num

theorem mul_unit {x : Double} {negative : Bool} {v : ℚ} (h : x.Approximates negative v)
    (low : 1 ≤ v) (high : v ≤ 2 ^ 32) :
    (x.mul unit).Approximates negative (x.magnitude * unit.magnitude) := by
  have hu := unit_bounds
  have hx := h.bounds
  have hpos : 1 / 2 ≤ x.magnitude := by
    refine le_trans ?_ hx.1
    nlinarith
  have htop : x.magnitude ≤ 2 ^ 33 := by
    refine le_trans hx.2 ?_
    nlinarith
  have hmul : x.mul unit = ofRatio negative (x.parts.1 * unit.parts.1) 1
      (x.parts.2 + unit.parts.2) := by
    obtain ⟨hneg, hnan, hinf, -⟩ := unit_regular
    have hsign : (x.negative != unit.negative) = negative := by rw [h.sign, hneg, Bool.bne_false]
    unfold Double.mul
    simp only [h.not_nan, h.not_infinite, hnan, hinf, hsign, Bool.or_self, Bool.false_eq_true,
      if_false]
  rw [hmul]
  refine approximates_ofRatio negative (Nat.mul_pos (h.pos (by linarith)) ?_) Nat.one_pos ?_ ?_ ?_
  · rw [unit_parts]
    decide
  · unfold magnitude
    rw [zpow_add₀ (by norm_num)]
    push_cast
    ring
  · refine le_trans normal_bounds.1 ?_
    nlinarith
  · refine lt_of_le_of_lt ?_ normal_bounds.2
    nlinarith

theorem div_unit {x : Double} {negative : Bool} {v : ℚ} (h : x.Approximates negative v)
    (low : 1 / 2 ^ 15 ≤ v) (high : v ≤ 2 ^ 20) :
    (x.div unit).Approximates negative (x.magnitude / unit.magnitude) := by
  obtain ⟨hu1, hu2⟩ := unit_bounds
  have hx := h.bounds
  have hupos : 0 < unit.magnitude := by linarith
  have hpos : 1 / 2 ^ 16 ≤ x.magnitude := by
    refine le_trans ?_ hx.1
    nlinarith
  have htop : x.magnitude ≤ 2 ^ 21 := by
    refine le_trans hx.2 ?_
    nlinarith
  have hdiv : x.div unit = ofRatio negative x.parts.1 unit.parts.1
      (x.parts.2 - unit.parts.2) := by
    obtain ⟨hneg, hnan, hinf, hzero⟩ := unit_regular
    have hsign : (x.negative != unit.negative) = negative := by rw [h.sign, hneg, Bool.bne_false]
    unfold Double.div
    simp only [h.not_nan, h.not_infinite, hnan, hinf, hzero, hsign, Bool.or_self,
      Bool.false_eq_true, if_false]
  rw [hdiv]
  refine approximates_ofRatio negative (h.pos (by linarith)) ?_ ?_ ?_ ?_
  · rw [unit_parts]
    decide
  · unfold magnitude
    rw [zpow_sub₀ (by norm_num), unit_parts]
    field_simp
  · refine le_trans normal_bounds.1 ?_
    rw [le_div_iff₀ hupos]
    nlinarith
  · refine lt_of_le_of_lt ?_ normal_bounds.2
    rw [div_le_iff₀ hupos]
    nlinarith

/-- A count of units that a record can hold is found again from its angle. -/
theorem toUnits_ofUnits {n : Int} (low : -2 ^ 31 ≤ n) (high : n < 2 ^ 31) :
    ∃ x, ofUnits n = .ok x ∧ toUnits x = .ok n := by
  by_cases h0 : n = 0
  · subst h0
    exact ⟨⟨0⟩, by decide +kernel, by decide +kernel⟩
  have hn1 : (1 : ℚ) ≤ n.natAbs := by
    have h : 1 ≤ n.natAbs := by omega
    exact_mod_cast h
  have hn2 : (n.natAbs : ℚ) ≤ 2 ^ 31 := by
    have h : n.natAbs ≤ 2 ^ 31 := by omega
    exact_mod_cast h
  -- The count as a number, its angle, and the quotient.
  have hx : (ofRatio (n < 0) n.natAbs 1 0).Approximates (n < 0) n.natAbs := by
    refine approximates_ofRatio (n < 0) (by omega) Nat.one_pos (by simp) ?_ ?_
    · exact normal_bounds.1.trans (by linarith)
    · exact lt_of_le_of_lt (by linarith) normal_bounds.2
  obtain ⟨hx1, hx2⟩ := hx.bounds
  have hy := mul_unit hx hn1 (by linarith)
  obtain ⟨hu1, hu2⟩ := unit_bounds
  obtain ⟨hy1, hy2⟩ := hy.bounds
  have hq := div_unit hy (by nlinarith) (by nlinarith)
  obtain ⟨hq1, hq2⟩ := hq.bounds
  have hupos : 0 < unit.magnitude := by linarith
  -- Each of the three roundings adds its part of the count.
  have hquot1 : (ofRatio (n < 0) n.natAbs 1 0).magnitude * (1 - 1 / 2 ^ (53 : Int)) ≤
      ((ofRatio (n < 0) n.natAbs 1 0).mul unit).magnitude / unit.magnitude := by
    rw [le_div_iff₀ hupos]
    linarith
  have hquot2 : ((ofRatio (n < 0) n.natAbs 1 0).mul unit).magnitude / unit.magnitude ≤
      (ofRatio (n < 0) n.natAbs 1 0).magnitude * (1 + 1 / 2 ^ (53 : Int)) := by
    rw [div_le_iff₀ hupos]
    linarith
  have heps : (1 : ℚ) / 2 ^ (53 : Int) = 1 / 9007199254740992 := by norm_num
  rw [heps] at hx1 hx2 hq1 hq2 hquot1 hquot2
  have hnear : |(((ofRatio (n < 0) n.natAbs 1 0).mul unit).div unit).magnitude - n.natAbs| <
      1 / 2 := by
    rw [abs_lt]
    constructor
    · linarith
    · linarith
  have hround := roundInt_of_near hq.sign hnear
  have hnumber : Field.number n = .ok (ofRatio (n < 0) n.natAbs 1 0) := by
    unfold Field.number ofInt?
    simp only [hx.finite, if_true]
  refine ⟨(ofRatio (n < 0) n.natAbs 1 0).mul unit, ?_, ?_⟩
  · unfold ofUnits
    rw [hnumber]
    rfl
  · unfold toUnits
    simp only [hq.not_nan, hq.not_infinite, hround, Bool.false_eq_true, if_false, Except.ok.injEq]
    by_cases hneg : n < 0
    · rw [if_pos (decide_eq_true hneg)]
      omega
    · rw [if_neg (by simpa using hneg)]
      omega

end Angle
end QuestArchive
