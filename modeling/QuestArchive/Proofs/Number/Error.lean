import QuestArchive.Proofs.Number.Single

/-!
# How far rounding goes

A ratio that lies among the normal numbers of double precision is rounded to a number that
is off by at most the part `2⁻⁵³` of it.  A few operations in a row then stay close to the
exact result, close enough to find an integer again.
-/

namespace QuestArchive
namespace BinaryFormat

variable {f : BinaryFormat} {num den m k : Nat}

def value (f : BinaryFormat) (code : Nat) : ℚ := (f.parts code).1 * 2 ^ (f.parts code).2

/-- A code made of a binade and a significand is taken apart into them. -/
theorem parts_split (hm : m < 2 * pow2 (f.precision - 1))
    (binade : k = 0 ∨ pow2 (f.precision - 1) ≤ m) :
    f.parts (k * pow2 (f.precision - 1) + m) = (m, f.least + k) := by
  have hu := pow2_pos (f.precision - 1)
  have hdiv : (k * pow2 (f.precision - 1) + m) / pow2 (f.precision - 1) =
      k + m / pow2 (f.precision - 1) := by
    rw [Nat.add_comm, Nat.add_mul_div_right _ _ hu, Nat.add_comm]
  have hmod : (k * pow2 (f.precision - 1) + m) % pow2 (f.precision - 1) =
      m % pow2 (f.precision - 1) := by
    rw [Nat.add_comm, Nat.add_mul_mod_self_right]
  unfold parts
  simp only [hdiv, hmod]
  by_cases hlt : m < pow2 (f.precision - 1)
  · have hk : k = 0 := binade.resolve_right (Nat.not_le.2 hlt)
    rw [hk, Nat.div_eq_of_lt hlt, if_pos rfl]
    simp
  · have hle := Nat.not_lt.1 hlt
    have hone : m / pow2 (f.precision - 1) = 1 := by
      rw [Nat.div_eq_iff hu]
      omega
    have hrest : m % pow2 (f.precision - 1) = m - pow2 (f.precision - 1) := by
      rw [Nat.mod_eq_sub_mod hle, Nat.mod_eq_of_lt (by omega)]
    rw [hone, hrest, if_neg (Nat.succ_ne_zero k)]
    refine Prod.ext ?_ ?_
    · dsimp only
      omega
    · dsimp only
      push_cast
      omega

theorem roundRatio_error (hd : 0 < den) : |(roundRatio num den : ℚ) - num / den| ≤ 1 / 2 := by
  have hdq : (0 : ℚ) < den := by exact_mod_cast hd
  have hsplit : ((num / den : Nat) : ℚ) * den + (num % den : Nat) = num := by
    exact_mod_cast Nat.div_add_mod' num den
  have hfrac : (num : ℚ) / den = (num / den : Nat) + ((num % den : Nat) : ℚ) / den := by
    rw [← hsplit]
    field_simp
  rw [hfrac, abs_le]
  have hr0 : (0 : ℚ) ≤ ((num % den : Nat) : ℚ) / den := by positivity
  have below : 2 * (num % den) ≤ den → ((num % den : Nat) : ℚ) / den ≤ 1 / 2 := by
    intro h
    have hq : (2 * (num % den : Nat) : ℚ) ≤ den := by exact_mod_cast h
    rw [div_le_iff₀ hdq]
    linarith
  have above : den ≤ 2 * (num % den) →
      1 / 2 ≤ ((num % den : Nat) : ℚ) / den ∧ ((num % den : Nat) : ℚ) / den ≤ 1 := by
    intro h
    have hq : (den : ℚ) ≤ 2 * (num % den : Nat) := by exact_mod_cast h
    have hlt : ((num % den : Nat) : ℚ) ≤ den := by exact_mod_cast (Nat.mod_lt num hd).le
    rw [le_div_iff₀ hdq, div_le_one hdq]
    exact ⟨by linarith, hlt⟩
  unfold roundRatio
  dsimp only
  split
  · have h := below (by omega)
    constructor <;> linarith
  · split
    · obtain ⟨h, h'⟩ := above (by omega)
      push_cast
      constructor <;> linarith
    · obtain ⟨h, h'⟩ := above (by omega)
      have hb := below (by omega)
      split
      · constructor <;> linarith
      · push_cast
        constructor <;> linarith

/-- In units of its last place a ratio has just as many bits as a significand. -/
theorem double_units_bounds (hn : 0 < num) (hd : 0 < den) :
    (2 : ℚ) ^ 52 ≤ num / den / 2 ^ (leadingBit num den - 52) ∧
      num / den / 2 ^ (leadingBit num den - 52) < (2 : ℚ) ^ 53 := by
  have hnq : (0 : ℚ) < num := by exact_mod_cast hn
  have hdq : (0 : ℚ) < den := by exact_mod_cast hd
  have hv : (0 : ℚ) < num / den := div_pos hnq hdq
  have hpos := two_zpow_pos (leadingBit num den - 52)
  have hl := Int.zpow_log_le_self (b := 2) (by decide) hv
  have hu := Int.lt_zpow_succ_log_self (b := 2) (by decide) ((num : ℚ) / den)
  rw [← leadingBit_eq hn hd] at hl hu
  constructor
  · rw [le_div_iff₀ hpos]
    refine le_trans (le_of_eq ?_) hl
    rw [← zpow_natCast, ← zpow_add₀ (by norm_num)]
    congr 1
    push_cast
    ring
  · rw [div_lt_iff₀ hpos]
    refine lt_of_lt_of_eq hu ?_
    rw [← zpow_natCast, ← zpow_add₀ (by norm_num)]
    congr 1
    push_cast
    ring

/-- A significand that rounds up to the next binade has the same value there. -/
theorem double_value_split (low : 2 ^ 52 ≤ m) (high : m ≤ 2 ^ 53) :
    double.value (k * 2 ^ 52 + m) = m * 2 ^ (double.least + k) := by
  have hunit : pow2 (double.precision - 1) = 2 ^ 52 := rfl
  unfold value
  rcases Nat.lt_or_eq_of_le high with hlt | rfl
  · have hp := parts_split (f := double) (m := m) (k := k) (by rw [hunit]; omega)
      (Or.inr (by rw [hunit]; exact low))
    rw [hunit] at hp
    rw [hp]
  · have hp := parts_split (f := double) (m := 2 ^ 52) (k := k + 1) (by rw [hunit]; omega)
      (Or.inr (by rw [hunit]))
    rw [hunit, show (k + 1) * 2 ^ 52 + 2 ^ 52 = k * 2 ^ 52 + 2 ^ 53 by omega] at hp
    rw [hp]
    push_cast
    rw [← add_assoc, zpow_add_one₀ (by norm_num)]
    ring

section Normal

variable (hn : 0 < num) (hd : 0 < den) (low : (2 : ℚ) ^ (-1022 : Int) ≤ num / den)
  (high : (num : ℚ) / den < 2 ^ (1023 : Int))

include hn hd low high

/-- A ratio among the normal numbers of double precision is rounded in units of its last place,
to a significand of 53 bits or to the first one of the next binade. -/
theorem double_round_normal :
    ∃ k m : Nat, double.round num den = k * 2 ^ 52 + m ∧ double.round num den < double.infinity ∧
      (2 ^ 52 ≤ m ∧ m ≤ 2 ^ 53) ∧ (2 : ℚ) ^ 52 ≤ num / den / 2 ^ (double.least + k) ∧
      |(m : ℚ) - num / den / 2 ^ (double.least + k)| ≤ 1 / 2 := by
  have hnq : (0 : ℚ) < num := by exact_mod_cast hn
  have hdq : (0 : ℚ) < den := by exact_mod_cast hd
  have hv : (0 : ℚ) < num / den := div_pos hnq hdq
  have hlow : -1022 ≤ leadingBit num den := by
    rw [leadingBit_eq hn hd]
    exact (Int.zpow_le_iff_le_log (b := 2) (by decide) hv).1 low
  have hhigh : leadingBit num den < 1023 := by
    rw [leadingBit_eq hn hd]
    exact (Int.lt_zpow_iff_log_lt (b := 2) (by decide) hv).1 high
  have hmax : max double.least (leadingBit num den - (double.precision - 1 : Nat)) =
      leadingBit num den - 52 := by
    show max (-1074 : Int) (leadingBit num den - 52) = leadingBit num den - 52
    omega
  obtain ⟨k, hk⟩ : ∃ k : Nat, (k : Int) = leadingBit num den + 1022 :=
    ⟨(leadingBit num den + 1022).toNat, by omega⟩
  have hE : leadingBit num den - 52 = double.least + k := by
    show leadingBit num den - 52 = (-1074 : Int) + k
    omega
  -- The ratio in units of its last place, and the significand it is rounded to.
  obtain ⟨m, hm⟩ : ∃ m, m = roundRatio (inUnits num den (double.least + k)).1
      (inUnits num den (double.least + k)).2 := ⟨_, rfl⟩
  have herr := @roundRatio_error (inUnits num den (double.least + k)).1 _
    (inUnits_pos hn hd (double.least + k)).2
  rw [← hm, inUnits_div] at herr
  obtain ⟨hs1, hs2⟩ := double_units_bounds hn hd
  rw [hE] at hs1 hs2
  obtain ⟨hbelow, habove⟩ := abs_le.1 herr
  have hm1 : 2 ^ 52 ≤ m := by
    have h : ((2 ^ 52 : Nat) : ℚ) < (m + 1 : Nat) := by
      push_cast
      linarith
    have h' : (2 ^ 52 : Nat) < m + 1 := by exact_mod_cast h
    omega
  have hm2 : m ≤ 2 ^ 53 := by
    have h : (m : ℚ) < ((2 ^ 53 + 1 : Nat) : ℚ) := by
      push_cast
      linarith
    have h' : m < 2 ^ 53 + 1 := by exact_mod_cast h
    omega
  have hinf : k * 2 ^ 52 + m < double.infinity := by
    show k * 2 ^ 52 + m < 0x7FF0000000000000
    omega
  have hround : double.round num den = k * 2 ^ 52 + m := by
    have hunit : pow2 (double.precision - 1) = 2 ^ 52 := rfl
    have hsub : (double.least + (k : Int) - double.least).toNat = k := by omega
    unfold round
    rw [if_neg (by omega)]
    dsimp only
    rw [hmax, hE, ← hm, hunit, hsub, Nat.min_eq_right hinf.le]
  exact ⟨k, m, hround, hround ▸ hinf, ⟨hm1, hm2⟩, hs1, herr⟩

/-- A ratio among the normal numbers of double precision is rounded to a finite one, with a
small relative error. -/
theorem double_round_error :
    double.round num den < double.infinity ∧
      |double.value (double.round num den) - num / den| ≤ num / den / 2 ^ (53 : Int) := by
  obtain ⟨k, m, hround, hinf, ⟨hm1, hm2⟩, hunits, herr⟩ := double_round_normal hn hd low high
  refine ⟨hinf, ?_⟩
  have hpos := two_zpow_pos (double.least + k)
  have hback : (num : ℚ) / den = num / den / 2 ^ (double.least + k) * 2 ^ (double.least + k) :=
    (div_mul_cancel₀ _ hpos.ne').symm
  have h53 : ((2 : ℚ) ^ (53 : Int)) = 2 ^ 53 := by norm_num
  rw [abs_le] at herr
  rw [hround, double_value_split hm1 hm2, abs_le, h53]
  have hhalf : (1 : ℚ) / 2 * 2 ^ (double.least + k) ≤ num / den / 2 ^ 53 := by
    rw [le_div_iff₀ (by norm_num)]
    rw [le_div_iff₀ hpos] at hunits
    linarith
  constructor
  · nlinarith
  · nlinarith

end Normal

end BinaryFormat

namespace Double

open BinaryFormat

def magnitude (x : Double) : ℚ := x.parts.1 * 2 ^ x.parts.2

/-- Whether a number is finite, has a sign, and is off from a value by a small part of it. -/
structure Approximates (x : Double) (negative : Bool) (v : ℚ) : Prop where
  finite : x.isFinite = true
  sign : x.negative = negative
  error : |x.magnitude - v| ≤ v / 2 ^ (53 : Int)

/-- Every operation gives a number close to the exact result, if that is a normal one. -/
theorem approximates_ofRatio {num den : Nat} {e : Int} {v : ℚ} (negative : Bool) (hn : 0 < num)
    (hd : 0 < den) (hv : (num : ℚ) / den * 2 ^ e = v) (low : (2 : ℚ) ^ (-1022 : Int) ≤ v)
    (high : v < 2 ^ (1023 : Int)) : (ofRatio negative num den e).Approximates negative v := by
  have hratio : ((num * pow2 e.toNat : Nat) : ℚ) / (den * pow2 (-e).toNat : Nat) = v := by
    rw [← hv, zpow_split]
    push_cast
    rw [pow2_eq, pow2_eq]
    field_simp
  have hnum := Nat.mul_pos hn (pow2_pos e.toNat)
  have hden := Nat.mul_pos hd (pow2_pos (-e).toNat)
  obtain ⟨hfin, herr⟩ := double_round_error hnum hden (by rw [hratio]; exact low)
    (by rw [hratio]; exact high)
  rw [hratio] at herr
  have hsign : double.round (num * pow2 e.toNat) (den * pow2 (-e).toNat) < signBit :=
    hfin.trans (by decide)
  unfold ofRatio
  refine ⟨?_, negative_ofCode hsign, ?_⟩
  · rw [isFinite, code_ofCode hsign]
    exact decide_eq_true hfin
  · rw [magnitude, Double.parts, code_ofCode hsign]
    exact herr

section

variable {x : Double} {negative : Bool} {v : ℚ}

theorem Approximates.not_nan (h : x.Approximates negative v) : x.isNaN = false := by
  have hf := of_decide_eq_true h.finite
  exact decide_eq_false (by omega)

theorem Approximates.not_infinite (h : x.Approximates negative v) : x.isInfinite = false := by
  have hf := of_decide_eq_true h.finite
  exact decide_eq_false (by omega)

theorem Approximates.bounds (h : x.Approximates negative v) :
    v * (1 - 1 / 2 ^ (53 : Int)) ≤ x.magnitude ∧ x.magnitude ≤ v * (1 + 1 / 2 ^ (53 : Int)) := by
  have he := abs_le.1 h.error
  constructor
  · linarith [he.1, mul_one_div v ((2 : ℚ) ^ (53 : Int))]
  · linarith [he.2, mul_one_div v ((2 : ℚ) ^ (53 : Int))]

theorem Approximates.pos (h : x.Approximates negative v) (hv : 0 < v) : 0 < x.parts.1 := by
  have hb := h.bounds.1
  have hpos : 0 < x.magnitude := by
    refine lt_of_lt_of_le (mul_pos hv ?_) hb
    norm_num
  unfold magnitude at hpos
  rcases Nat.eq_zero_or_pos x.parts.1 with h0 | h0
  · rw [h0] at hpos
    simp at hpos
  · exact h0

theorem roundInt_of_near {n : Nat} (hs : x.negative = negative) (h : |x.magnitude - n| < 1 / 2) :
    x.roundInt = if negative then -(n : Int) else n := by
  have hratio : (x.ratio.1 : ℚ) / x.ratio.2 = x.magnitude := ratio_div x
  obtain ⟨low, high⟩ := abs_lt.1 h
  have low' : (n : ℚ) - 1 / 2 < x.ratio.1 / x.ratio.2 := by linarith
  have high' : (x.ratio.1 : ℚ) / x.ratio.2 < n + 1 / 2 := by linarith
  have hr := roundRatio_eq (ratio_pos x) low'.le high'.le fun _ => ⟨low', high'⟩
  unfold roundInt
  dsimp only
  rw [hr, hs]

end

end Double
end QuestArchive
