import Mathlib.Data.Int.Log
import Mathlib.Data.Rat.Floor
import Mathlib.Tactic.FieldSimp
import Mathlib.Tactic.Linarith
import Mathlib.Tactic.Positivity
import Mathlib.Tactic.Ring
import QuestArchive.Number.Binary

/-!
# Rounding to the nearest value of a format

A code `k * 2 ^ (precision - 1) + m` stands for the value `m * 2 ^ (least + k)`.  What
lies nearer to that value than to its neighbours is rounded to it.  The neighbour
below a power of two is only half as far away as the one above, and has an exponent of
its own, so it is treated apart.
-/

namespace QuestArchive

theorem pow2_eq (n : Nat) : (pow2 n : ℚ) = 2 ^ n := by
  simp [pow2]

namespace BinaryFormat

theorem two_zpow_pos (e : Int) : (0 : ℚ) < 2 ^ e := zpow_pos (by norm_num) e

theorem zpow_split (b : ℚ) (e : Int) : b ^ e = b ^ e.toNat / b ^ (-e).toNat := by
  rcases Int.le_total 0 e with h | h
  · have h0 : (-e).toNat = 0 := by omega
    rw [h0, pow_zero, div_one, ← zpow_natCast, Int.toNat_of_nonneg h]
  · have h0 : e.toNat = 0 := by omega
    rw [h0, pow_zero, ← zpow_natCast, Int.toNat_of_nonneg (by omega), zpow_neg, one_div, inv_inv]

theorem inUnits_div (num den : Nat) (e : Int) :
    ((inUnits num den e).1 : ℚ) / (inUnits num den e).2 = num / den / 2 ^ e := by
  rw [zpow_split]
  simp only [inUnits, Nat.cast_mul, pow2_eq]
  rcases Nat.eq_zero_or_pos den with h | h
  · simp [h]
  · field_simp

theorem inUnits_pos {num den : Nat} (hn : 0 < num) (hd : 0 < den) (e : Int) :
    0 < (inUnits num den e).1 ∧ 0 < (inUnits num den e).2 :=
  ⟨Nat.mul_pos hn (pow2_pos _), Nat.mul_pos hd (pow2_pos _)⟩

theorem leadingBit_eq {num den : Nat} (hn : 0 < num) (hd : 0 < den) :
    leadingBit num den = Int.log 2 ((num : ℚ) / den) := by
  have hnq : (0 : ℚ) < num := by exact_mod_cast hn
  have hdq : (0 : ℚ) < den := by exact_mod_cast hd
  have hv : (0 : ℚ) < num / den := div_pos hnq hdq
  have n1 : (2 : ℚ) ^ Nat.log2 num ≤ num := by exact_mod_cast Nat.log2_self_le (by omega)
  have n2 : (num : ℚ) < 2 ^ (Nat.log2 num + 1) := by exact_mod_cast Nat.lt_log2_self
  have d1 : (2 : ℚ) ^ Nat.log2 den ≤ den := by exact_mod_cast Nat.log2_self_le (by omega)
  have d2 : (den : ℚ) < 2 ^ (Nat.log2 den + 1) := by exact_mod_cast Nat.lt_log2_self
  have hg : (2 : ℚ) ^ ((Nat.log2 num : Int) - Nat.log2 den) =
      2 ^ Nat.log2 num / 2 ^ Nat.log2 den := by
    rw [zpow_sub₀ (by norm_num), zpow_natCast, zpow_natCast]
  -- The guess is the exponent or one more.
  have low : (2 : ℚ) ^ ((Nat.log2 num : Int) - Nat.log2 den - 1) ≤ num / den := by
    rw [zpow_sub_one₀ (by norm_num), hg, le_div_iff₀ hdq]
    calc (2 : ℚ) ^ Nat.log2 num / 2 ^ Nat.log2 den * 2⁻¹ * den
        ≤ 2 ^ Nat.log2 num / 2 ^ Nat.log2 den * 2⁻¹ * 2 ^ (Nat.log2 den + 1) := by gcongr
      _ = 2 ^ Nat.log2 num := by rw [pow_succ]; field_simp
      _ ≤ num := n1
  have high : (num : ℚ) / den < 2 ^ ((Nat.log2 num : Int) - Nat.log2 den + 1) := by
    rw [zpow_add_one₀ (by norm_num), hg, div_lt_iff₀ hdq]
    calc (num : ℚ) < 2 ^ (Nat.log2 num + 1) := n2
      _ = 2 ^ Nat.log2 num / 2 ^ Nat.log2 den * 2 * 2 ^ Nat.log2 den := by
          rw [pow_succ]; field_simp
      _ ≤ 2 ^ Nat.log2 num / 2 ^ Nat.log2 den * 2 * den := by gcongr
  have h1 := (Int.zpow_le_iff_le_log (b := 2) (by decide) hv).1 low
  have h2 := (Int.lt_zpow_iff_log_lt (b := 2) (by decide) hv).1 high
  -- The comparison tells which.
  obtain ⟨hp, hq⟩ := inUnits_pos hn hd ((Nat.log2 num : Int) - Nat.log2 den)
  have hcmp : (inUnits num den ((Nat.log2 num : Int) - Nat.log2 den)).1 <
        (inUnits num den ((Nat.log2 num : Int) - Nat.log2 den)).2 ↔
      Int.log 2 ((num : ℚ) / den) < (Nat.log2 num : Int) - Nat.log2 den := by
    have hqq : (0 : ℚ) < (inUnits num den ((Nat.log2 num : Int) - Nat.log2 den)).2 := by
      exact_mod_cast hq
    rw [← Int.lt_zpow_iff_log_lt (b := 2) (by decide) hv, Nat.cast_ofNat,
      ← div_lt_one (two_zpow_pos _), ← inUnits_div, div_lt_one hqq, Nat.cast_lt]
  unfold leadingBit
  simp only
  split
  · next h =>
    have := hcmp.1 h
    omega
  · next h =>
    have := mt hcmp.2 h
    omega

/-- An integer within half a unit of a ratio is the one it is rounded to, on a tie if it
is even. -/
theorem roundRatio_eq {num den m : Nat} (hd : 0 < den)
    (low : (m : ℚ) - 1 / 2 ≤ num / den) (high : (num : ℚ) / den ≤ m + 1 / 2)
    (odd : m % 2 = 1 → (m : ℚ) - 1 / 2 < num / den ∧ (num : ℚ) / den < m + 1 / 2) :
    roundRatio num den = m := by
  have hdq : (0 : ℚ) < den := by exact_mod_cast hd
  have low' : 2 * m * den ≤ 2 * num + den := by
    rw [le_div_iff₀ hdq] at low
    have : (2 * m * den : ℚ) ≤ 2 * num + den := by linarith
    exact_mod_cast this
  have high' : 2 * num ≤ 2 * m * den + den := by
    rw [div_le_iff₀ hdq] at high
    have : (2 * num : ℚ) ≤ 2 * m * den + den := by linarith
    exact_mod_cast this
  have odd' : m % 2 = 1 → 2 * m * den < 2 * num + den ∧ 2 * num < 2 * m * den + den := by
    intro h
    obtain ⟨o1, o2⟩ := odd h
    rw [lt_div_iff₀ hdq] at o1
    rw [div_lt_iff₀ hdq] at o2
    have o1' : (2 * m * den : ℚ) < 2 * num + den := by linarith
    have o2' : (2 * num : ℚ) < 2 * m * den + den := by linarith
    exact ⟨by exact_mod_cast o1', by exact_mod_cast o2'⟩
  have assoc : 2 * m * den = 2 * (m * den) := Nat.mul_assoc 2 m den
  rw [assoc] at low' high' odd'
  have hdiv : num = num / den * den + num % den := (Nat.div_add_mod' num den).symm
  have hmod : num % den < den := Nat.mod_lt num hd
  have hm : m = num / den ∨ m = num / den + 1 := by
    rcases Nat.lt_or_ge m (num / den) with h | h
    · have := Nat.mul_le_mul_right den (Nat.succ_le_of_lt h)
      rw [Nat.succ_mul] at this
      omega
    · rcases Nat.lt_or_ge (num / den + 1) m with h' | h'
      · have := Nat.mul_le_mul_right den (Nat.succ_le_of_lt h')
        rw [Nat.succ_mul, Nat.succ_mul] at this
        omega
      · omega
  unfold roundRatio
  rcases hm with hm | hm
  · subst hm
    simp only
    split
    · rfl
    · split
      · omega
      · split
        · rfl
        · omega
  · have hs : m * den = num / den * den + den := by rw [hm, Nat.succ_mul]
    simp only
    split
    · omega
    · split
      · exact hm.symm
      · split
        · omega
        · exact hm.symm

variable {f : BinaryFormat} {num den m k : Nat}

/-- The exponent that rounding works with, for a ratio that lies in a binade of the
format, or below the first one. -/
theorem exponent_eq (hn : 0 < num) (hd : 0 < den)
    (low : k = 0 ∨ (pow2 (f.precision - 1) : ℚ) ≤ num / den / 2 ^ (f.least + k))
    (high : (num : ℚ) / den / 2 ^ (f.least + k) < 2 * pow2 (f.precision - 1)) :
    max f.least (leadingBit num den - (f.precision - 1 : Nat)) = f.least + k := by
  have hnq : (0 : ℚ) < num := by exact_mod_cast hn
  have hdq : (0 : ℚ) < den := by exact_mod_cast hd
  have hv : (0 : ℚ) < num / den := div_pos hnq hdq
  have above : leadingBit num den < f.least + k + (f.precision - 1 : Nat) + 1 := by
    rw [leadingBit_eq hn hd]
    refine (Int.lt_zpow_iff_log_lt (b := 2) (by decide) hv).1 ?_
    rw [div_lt_iff₀ (two_zpow_pos _), pow2_eq] at high
    rw [Nat.cast_ofNat, zpow_add_one₀ (by norm_num), zpow_add₀ (by norm_num), zpow_natCast]
    linarith
  rcases low with rfl | low
  · simp only [Nat.cast_zero, Int.add_zero] at above ⊢
    omega
  · have below : f.least + k + (f.precision - 1 : Nat) ≤ leadingBit num den := by
      rw [leadingBit_eq hn hd]
      refine (Int.zpow_le_iff_le_log (b := 2) (by decide) hv).1 ?_
      rw [le_div_iff₀ (two_zpow_pos _), pow2_eq] at low
      rw [Nat.cast_ofNat, zpow_add₀ (by norm_num), zpow_natCast]
      linarith
    omega

/-- What lies within half a unit of a value, and not below its binade, is rounded to
it. -/
theorem round_eq (hn : 0 < num) (hd : 0 < den) (hm : m < 2 * pow2 (f.precision - 1))
    (hk : k * pow2 (f.precision - 1) + m < f.infinity)
    (binade : k = 0 ∨ (pow2 (f.precision - 1) : ℚ) ≤ num / den / 2 ^ (f.least + k))
    (low : (m : ℚ) - 1 / 2 ≤ num / den / 2 ^ (f.least + k))
    (high : (num : ℚ) / den / 2 ^ (f.least + k) ≤ m + 1 / 2)
    (odd : m % 2 = 1 → (m : ℚ) - 1 / 2 < num / den / 2 ^ (f.least + k) ∧
      (num : ℚ) / den / 2 ^ (f.least + k) < m + 1 / 2) :
    f.round num den = k * pow2 (f.precision - 1) + m := by
  have hm' : (m : ℚ) + 1 ≤ 2 * pow2 (f.precision - 1) := by exact_mod_cast hm
  have he := exponent_eq (f := f) hn hd binade (by linarith)
  have hr := roundRatio_eq (m := m) (inUnits_pos hn hd (f.least + k)).2
    (by rw [inUnits_div]; exact low) (by rw [inUnits_div]; exact high)
    (by rw [inUnits_div]; exact odd)
  have hle : (f.least + k - f.least).toNat = k := by omega
  unfold round
  rw [if_neg (by omega)]
  simp only
  rw [he, hr, hle]
  omega

/-- The least value of a binade is also met from a quarter of a unit below, where the
exponent is one less. -/
theorem round_eq_of_narrow (hn : 0 < num) (hd : 0 < den)
    (hk : (k + 1) * pow2 (f.precision - 1) + pow2 (f.precision - 1) < f.infinity)
    (low : (pow2 (f.precision - 1) : ℚ) - 1 / 4 ≤ num / den / 2 ^ (f.least + (k + 1 : Nat)))
    (high : (num : ℚ) / den / 2 ^ (f.least + (k + 1 : Nat)) < pow2 (f.precision - 1)) :
    f.round num den = (k + 1) * pow2 (f.precision - 1) + pow2 (f.precision - 1) := by
  have hu : (1 : ℚ) ≤ pow2 (f.precision - 1) := by exact_mod_cast pow2_pos (f.precision - 1)
  have hx : (num : ℚ) / den / 2 ^ (f.least + k) =
      2 * (num / den / 2 ^ (f.least + (k + 1 : Nat))) := by
    have hz : (2 : ℚ) ^ (f.least + (k + 1 : Nat)) = 2 ^ (f.least + k) * 2 := by
      rw [← zpow_add_one₀ (by norm_num)]
      congr 1
      push_cast
      ring
    rw [hz]
    have := two_zpow_pos (f.least + k)
    field_simp
  have he := exponent_eq (f := f) (k := k) hn hd (Or.inr (by rw [hx]; linarith))
    (by rw [hx]; linarith)
  have hr := roundRatio_eq (m := 2 * pow2 (f.precision - 1)) (inUnits_pos hn hd (f.least + k)).2
    (by rw [inUnits_div, hx, Nat.cast_mul, Nat.cast_ofNat]; linarith)
    (by rw [inUnits_div, hx, Nat.cast_mul, Nat.cast_ofNat]; linarith) (by omega)
  have hle : (f.least + k - f.least).toNat = k := by omega
  unfold round
  rw [if_neg (by omega)]
  simp only
  rw [he, hr, hle, Nat.add_one_mul k]
  rw [Nat.add_one_mul k] at hk
  omega

theorem round_exact (hd : 0 < den) (hm : m < 2 * pow2 (f.precision - 1))
    (hk : k * pow2 (f.precision - 1) + m < f.infinity)
    (binade : k = 0 ∨ pow2 (f.precision - 1) ≤ m)
    (value : (num : ℚ) / den = m * 2 ^ (f.least + k)) :
    f.round num den = k * pow2 (f.precision - 1) + m := by
  have hdq : (0 : ℚ) < den := by exact_mod_cast hd
  have hx : (num : ℚ) / den / 2 ^ (f.least + k) = m := by
    rw [value]
    exact mul_div_cancel_right₀ _ (two_zpow_pos _).ne'
  rcases Nat.eq_zero_or_pos num with rfl | hn
  · have hm0 : m = 0 := by
      rw [Nat.cast_zero, zero_div, zero_div] at hx
      exact_mod_cast hx.symm
    have hk0 : k = 0 := by
      rcases binade with h | h
      · exact h
      · have := pow2_pos (f.precision - 1)
        omega
    simp [round, hm0, hk0]
  · refine round_eq hn hd hm hk ?_ (by rw [hx]; linarith) (by rw [hx]; linarith)
      (fun _ => by rw [hx]; constructor <;> linarith)
    rcases binade with h | h
    · exact Or.inl h
    · exact Or.inr (by rw [hx]; exact_mod_cast h)

/-- A finite code by its significand and its binade. -/
theorem parts_spec (f : BinaryFormat) (code : Nat) :
    ∃ k : Nat, (f.parts code).2 = f.least + k ∧
      code = k * pow2 (f.precision - 1) + (f.parts code).1 ∧
      (f.parts code).1 < 2 * pow2 (f.precision - 1) ∧
      (k = 0 ∨ pow2 (f.precision - 1) ≤ (f.parts code).1) := by
  have hu := pow2_pos (f.precision - 1)
  have hmod := Nat.mod_lt code hu
  have hdiv := Nat.div_add_mod' code (pow2 (f.precision - 1))
  unfold parts
  simp only
  split
  · next h =>
    refine ⟨0, by simp, by simp, ?_, Or.inl rfl⟩
    rw [h, Nat.zero_mul] at hdiv
    omega
  · next h =>
    obtain ⟨j, hj⟩ : ∃ j, code / pow2 (f.precision - 1) = j + 1 := ⟨_, (Nat.succ_pred h).symm⟩
    rw [hj, Nat.succ_mul] at hdiv
    refine ⟨j, ?_, by omega, by omega, Or.inr (by omega)⟩
    rw [hj]
    push_cast
    ring

end BinaryFormat
end QuestArchive
