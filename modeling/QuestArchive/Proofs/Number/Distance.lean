import QuestArchive.Npc.Identity
import QuestArchive.Proofs.Number.Storable

/-!
# How far from one

Codes ascend with their values, so a comparison of two numbers is one of their values, and
the distance of a number from one is off by a small part of it at most.  For the distance
that tells a special NPC from a regular one this leaves a block of patterns about that of one:
`lt_distance_iff` says which.
-/

namespace QuestArchive

namespace BinaryFormat

/-- The next code has a greater value, also across a power of two. -/
theorem value_strictMono (f : BinaryFormat) : StrictMono f.value := by
  refine strictMono_nat_of_lt_succ fun code => ?_
  obtain ⟨k, hk, hcode, hm, hb⟩ := parts_spec f code
  obtain ⟨m, hmdef⟩ : ∃ m, m = (f.parts code).1 := ⟨_, rfl⟩
  rw [← hmdef] at hcode hm hb
  have hpos := two_zpow_pos (f.least + k)
  have hvalue : f.value code = m * 2 ^ (f.least + k) := by rw [value, hk, ← hmdef]
  rw [hvalue]
  rcases Nat.lt_or_ge (m + 1) (2 * pow2 (f.precision - 1)) with hlt | hge
  · have hnext : f.value (code + 1) = (m + 1 : Nat) * 2 ^ (f.least + k) := by
      rw [value, hcode, Nat.add_assoc, parts_split hlt (hb.imp_right fun h => by omega)]
    rw [hnext]
    push_cast
    linarith
  · have hnext : f.value (code + 1) = (pow2 (f.precision - 1) : Nat) *
        2 ^ (f.least + (k + 1 : Nat)) := by
      have hu := pow2_pos (f.precision - 1)
      rw [value, show code + 1 = (k + 1) * pow2 (f.precision - 1) + pow2 (f.precision - 1) by
        rw [hcode, Nat.succ_mul]; omega, parts_split (by omega) (Or.inr (Nat.le_refl _))]
    have hlast : (m : ℚ) + 1 = 2 * pow2 (f.precision - 1) := by
      have h : m + 1 = 2 * pow2 (f.precision - 1) := by omega
      exact_mod_cast h
    rw [hnext, Nat.cast_add, Nat.cast_one, ← add_assoc, zpow_add_one₀ (by norm_num)]
    nlinarith

end BinaryFormat

namespace Double

open BinaryFormat

variable {x y : Double}

def signedValue (x : Double) : ℚ := if x.negative then -x.magnitude else x.magnitude

theorem magnitude_eq (x : Double) : x.magnitude = BinaryFormat.double.value x.code := rfl

theorem lt_iff (hx : x.isFinite = true) (hy : y.isFinite = true) (sx : x.negative = false)
    (sy : y.negative = false) : x.lt y = true ↔ x.magnitude < y.magnitude := by
  have nx : x.isNaN = false := decide_eq_false (by have := of_decide_eq_true hx; omega)
  have ny : y.isNaN = false := decide_eq_false (by have := of_decide_eq_true hy; omega)
  rw [magnitude_eq, magnitude_eq, BinaryFormat.double.value_strictMono.lt_iff_lt]
  unfold lt
  rw [nx, ny, sx, sy, Bool.or_false, if_neg Bool.false_ne_true]
  by_cases hz : (x.isZero && y.isZero) = true
  · obtain ⟨zx, zy⟩ := Bool.and_eq_true_iff.1 hz
    have zx : x.code = 0 := of_decide_eq_true zx
    have zy : y.code = 0 := of_decide_eq_true zy
    rw [if_pos hz, zx, zy]
    simp
  · rw [if_neg hz]
    exact decide_eq_true_iff

theorem countUnits_eq {e : Int} (h : e ≤ x.parts.2) :
    (x.countUnits e : ℚ) * 2 ^ e = x.signedValue := by
  have hshift : ((x.parts.1 * pow2 (x.parts.2 - e).toNat : Nat) : ℚ) * 2 ^ e = x.magnitude := by
    have hz : x.parts.2 = ((x.parts.2 - e).toNat : Int) + e := by omega
    rw [magnitude]
    conv_rhs => rw [hz, zpow_add₀ (by norm_num), zpow_natCast]
    rw [Nat.cast_mul, pow2_eq]
    ring
  unfold countUnits signedValue
  dsimp only
  split
  · rw [← hshift]
    push_cast
    ring
  · rw [← hshift, Int.cast_natCast]

/-- The distance from one is rounded, and is zero only for one itself. -/
theorem approximates_distance (hx : x.isFinite = true)
    (low : (2 : ℚ) ^ (-1022 : Int) ≤ |x.signedValue - 1|)
    (high : |x.signedValue - 1| < 2 ^ (1023 : Int)) :
    x.distanceFromOne.Approximates false |x.signedValue - 1| := by
  obtain ⟨hnan, hinf⟩ := finite_bounds hx
  obtain ⟨e, he⟩ : ∃ e, e = min x.parts.2 0 := ⟨_, rfl⟩
  have hdistance : x.distanceFromOne =
      ofRatio false (x.countUnits e - pow2 (-e).toNat).natAbs 1 e := by
    unfold distanceFromOne
    rw [hnan, hinf, if_neg Bool.false_ne_true, if_neg Bool.false_ne_true, he]
  have hone : ((pow2 (-e).toNat : Nat) : ℚ) * 2 ^ e = 1 := by
    rw [pow2_eq, ← zpow_natCast, ← zpow_add₀ (by norm_num),
      show ((-e).toNat : Int) + e = 0 by omega, zpow_zero]
  have hscaled : ((x.countUnits e - pow2 (-e).toNat : Int) : ℚ) * 2 ^ e = x.signedValue - 1 := by
    rw [Int.cast_sub, sub_mul, Int.cast_natCast, hone, countUnits_eq (by omega)]
  have hvalue : ((x.countUnits e - pow2 (-e).toNat).natAbs : ℚ) / (1 : Nat) * 2 ^ e =
      |x.signedValue - 1| := by
    rw [Nat.cast_one, div_one, Nat.cast_natAbs, Int.cast_abs, ← hscaled, abs_mul,
      abs_of_pos (two_zpow_pos e)]
  rw [hdistance]
  refine approximates_ofRatio false (Nat.pos_of_ne_zero fun h0 => ?_) Nat.one_pos hvalue low high
  rw [h0, Nat.cast_zero, zero_div, zero_mul] at hvalue
  rw [← hvalue] at low
  exact absurd low (not_le.2 (two_zpow_pos _))

/-! ## The tolerance of a regular scale -/

theorem magnitude_tolerance : (1 : ℚ) / 100001 ≤ NpcTraits.defaultTolerance.magnitude ∧
    NpcTraits.defaultTolerance.magnitude ≤ 1 / 99999 := by
  have hparts : NpcTraits.defaultTolerance.parts = (5902958103587057, -69) := by decide +kernel
  unfold magnitude
  rw [hparts]
  constructor
  · norm_num
  · norm_num

theorem normal_of_le {v : ℚ} (h : 1 / 2 ^ 24 ≤ v) : (2 : ℚ) ^ (-1022 : Int) ≤ v := by
  refine le_trans ?_ h
  rw [show (1 : ℚ) / 2 ^ 24 = 2 ^ (-24 : Int) by norm_num]
  exact zpow_le_zpow_right₀ (by norm_num) (by norm_num)

theorem normal_of_lt {v : ℚ} (h : v < 2 ^ 130) : v < 2 ^ (1023 : Int) := by
  refine lt_of_lt_of_le h ?_
  rw [show (2 : ℚ) ^ 130 = 2 ^ (130 : Int) by norm_num]
  exact zpow_le_zpow_right₀ (by norm_num) (by norm_num)

theorem lt_distance_of_far (hx : x.isFinite = true) (h : 1 / 99900 ≤ |x.signedValue - 1|)
    (high : |x.signedValue - 1| < 2 ^ 130) :
    NpcTraits.defaultTolerance.lt x.distanceFromOne = true := by
  have hd := approximates_distance hx (normal_of_le (le_trans (by norm_num) h))
    (normal_of_lt high)
  rw [lt_iff (by decide +kernel) hd.finite (by decide +kernel) hd.sign]
  refine lt_of_le_of_lt magnitude_tolerance.2 (lt_of_lt_of_le ?_ hd.bounds.1)
  refine lt_of_lt_of_le ?_ (mul_le_mul_of_nonneg_right h (by norm_num))
  norm_num

theorem not_lt_distance_of_near (hx : x.isFinite = true) (low : 1 / 2 ^ 24 ≤ |x.signedValue - 1|)
    (h : |x.signedValue - 1| ≤ 1 / 100400) :
    NpcTraits.defaultTolerance.lt x.distanceFromOne = false := by
  have hd := approximates_distance hx (normal_of_le low)
    (normal_of_lt (lt_of_le_of_lt h (by norm_num)))
  refine Bool.eq_false_iff.2 fun hlt => ?_
  rw [lt_iff (by decide +kernel) hd.finite (by decide +kernel) hd.sign] at hlt
  refine absurd hlt (not_lt.2 (le_trans hd.bounds.2 (le_trans ?_ magnitude_tolerance.1)))
  refine le_trans (mul_le_mul_of_nonneg_right h (by norm_num)) ?_
  norm_num

/-! ## Patterns of single precision -/

theorem signedValue_ofSingle {s : UInt32}
    (h : s.toNat % 0x80000000 < BinaryFormat.single.infinity) :
    (ofSingle s).isFinite = true ∧ (ofSingle s).signedValue =
      if 0x80000000 ≤ s.toNat then -BinaryFormat.single.value (s.toNat % 0x80000000)
      else BinaryFormat.single.value (s.toNat % 0x80000000) := by
  obtain ⟨code, hof, hcode, hvalue⟩ := ofSingle_finite h
  have hsign : code < signBit := hcode.trans (by decide)
  have hmagnitude : (ofSingle s).magnitude = BinaryFormat.single.value (s.toNat % 0x80000000) := by
    rw [hof, magnitude, Double.parts, code_ofCode hsign]
    exact hvalue
  constructor
  · rw [hof, isFinite, code_ofCode hsign]
    exact decide_eq_true hcode
  · rw [signedValue, hmagnitude, hof, negative_ofCode hsign]
    simp only [decide_eq_true_eq]

theorem single_value_ends :
    BinaryFormat.single.value 0x3F7FFF58 = 1 - 168 / 2 ^ 24 ∧
    BinaryFormat.single.value 0x3F7FFF59 = 1 - 167 / 2 ^ 24 ∧
    BinaryFormat.single.value 0x3F7FFFFF = 1 - 1 / 2 ^ 24 ∧
    BinaryFormat.single.value 0x3F800001 = 1 + 1 / 2 ^ 23 ∧
    BinaryFormat.single.value 0x3F800053 = 1 + 83 / 2 ^ 23 ∧
    BinaryFormat.single.value 0x3F800054 = 1 + 84 / 2 ^ 23 ∧
    BinaryFormat.single.value 0x7F7FFFFF < 2 ^ 128 := by
  refine ⟨?_, ?_, ?_, ?_, ?_, ?_, ?_⟩ <;>
    norm_num [BinaryFormat.value, BinaryFormat.parts, BinaryFormat.single, pow2]

theorem single_value_nonneg (c : Nat) : 0 ≤ BinaryFormat.single.value c :=
  mul_nonneg (Nat.cast_nonneg _) (two_zpow_pos _).le

/-- A finite pattern is no further from one than the tolerance just if it lies between the
patterns of two numbers about one. -/
theorem lt_distance_ofSingle {s : UInt32}
    (h : s.toNat % 0x80000000 < BinaryFormat.single.infinity) :
    NpcTraits.defaultTolerance.lt (ofSingle s).distanceFromOne =
      !decide (0x3F7FFF59 ≤ s.toNat ∧ s.toNat ≤ 0x3F800053) := by
  obtain ⟨hfin, hvalue⟩ := signedValue_ofSingle h
  obtain ⟨b1, b2, b3, b4, b5, b6, b7⟩ := single_value_ends
  have hinf : BinaryFormat.single.infinity = 0x7F800000 := rfl
  have mono : ∀ {c c'}, c ≤ c' → BinaryFormat.single.value c ≤ BinaryFormat.single.value c' :=
    fun hc => BinaryFormat.single.value_strictMono.monotone hc
  have hnonneg := single_value_nonneg (s.toNat % 0x80000000)
  have htop := mono (show s.toNat % 0x80000000 ≤ 0x7F7FFFFF by omega)
  by_cases hsign : 0x80000000 ≤ s.toNat
  · -- A negative number is further from one than zero is.
    rw [if_pos hsign] at hvalue
    have habs : |(ofSingle s).signedValue - 1| =
        1 + BinaryFormat.single.value (s.toNat % 0x80000000) := by
      rw [hvalue, abs_of_nonpos (by linarith)]
      ring
    rw [lt_distance_of_far hfin (by rw [habs]; linarith) (by rw [habs]; linarith),
      decide_eq_false (by omega)]
    rfl
  · rw [if_neg hsign, Nat.mod_eq_of_lt (by omega)] at hvalue
    rw [Nat.mod_eq_of_lt (by omega)] at hnonneg htop
    rcases Nat.lt_or_ge s.toNat 0x3F7FFF59 with hlow | hlow
    · have hle := mono (show s.toNat ≤ 0x3F7FFF58 by omega)
      have habs : |(ofSingle s).signedValue - 1| = 1 - BinaryFormat.single.value s.toNat := by
        rw [hvalue, abs_of_nonpos (by linarith)]
        ring
      rw [lt_distance_of_far hfin (by rw [habs]; linarith) (by rw [habs]; linarith),
        decide_eq_false (by omega)]
      rfl
    rcases Nat.lt_or_ge 0x3F800053 s.toNat with hhigh | hhigh
    · have hle := mono (show 0x3F800054 ≤ s.toNat by omega)
      have habs : |(ofSingle s).signedValue - 1| = BinaryFormat.single.value s.toNat - 1 := by
        rw [hvalue, abs_of_nonneg (by linarith)]
      rw [lt_distance_of_far hfin (by rw [habs]; linarith) (by rw [habs]; linarith),
        decide_eq_false (by omega)]
      rfl
    rw [decide_eq_true ⟨hlow, hhigh⟩]
    rcases Nat.lt_trichotomy s.toNat 0x3F800000 with hlt | heq | hgt
    · have hle := mono (show s.toNat ≤ 0x3F7FFFFF by omega)
      have hge := mono hlow
      have habs : |(ofSingle s).signedValue - 1| = 1 - BinaryFormat.single.value s.toNat := by
        rw [hvalue, abs_of_nonpos (by linarith)]
        ring
      exact not_lt_distance_of_near hfin (by rw [habs]; linarith) (by rw [habs]; linarith)
    · have hone : s = 0x3F800000 := UInt32.toNat_inj.1 heq
      rw [hone]
      decide +kernel
    · have hle := mono (show 0x3F800001 ≤ s.toNat by omega)
      have hge := mono hhigh
      have habs : |(ofSingle s).signedValue - 1| = BinaryFormat.single.value s.toNat - 1 := by
        rw [hvalue, abs_of_nonneg (by linarith)]
      exact not_lt_distance_of_near hfin (by rw [habs]; linarith) (by rw [habs]; linarith)

end Double
end QuestArchive
