import Mathlib.Tactic.NormNum
import QuestArchive.Number.Numeral
import QuestArchive.Proofs.Number.Single

/-!
# Decimals that read back

The decimal chosen to write a finite number lies in the interval of what is rounded to
this number.  Reading such a decimal, however its value is split between digits and
exponent, gives the number again.
-/

namespace QuestArchive

open BinaryFormat

def Decimal.value (d : Decimal) : ℚ := d.digits * 10 ^ d.exponent

theorem pow10_eq (n : Nat) : (pow10 n : ℚ) = 10 ^ n := by
  simp [pow10]

theorem ten_zpow_pos (e : Int) : (0 : ℚ) < 10 ^ e := zpow_pos (by norm_num) e

namespace Decimal

theorem compareBinary_sides (a : Nat) (i : Int) (n : Nat) (j : Int) :
    ((a : ℚ) * 10 ^ i < n * 2 ^ j ↔
      a * pow10 i.toNat * pow2 (-j).toNat < n * pow2 j.toNat * pow10 (-i).toNat) ∧
    ((a : ℚ) * 10 ^ i = n * 2 ^ j ↔
      a * pow10 i.toNat * pow2 (-j).toNat = n * pow2 j.toNat * pow10 (-i).toNat) := by
  have h10 : (0 : ℚ) < 10 ^ (-i).toNat := by positivity
  have h2 : (0 : ℚ) < 2 ^ (-j).toNat := by positivity
  have ha : (a : ℚ) * 10 ^ i = a * 10 ^ i.toNat / 10 ^ (-i).toNat := by
    rw [zpow_split, mul_div_assoc]
  have hn : (n : ℚ) * 2 ^ j = n * 2 ^ j.toNat / 2 ^ (-j).toNat := by
    rw [zpow_split, mul_div_assoc]
  rw [ha, hn, div_lt_div_iff₀ h10 h2, div_eq_div_iff h10.ne' h2.ne']
  simp only [← pow10_eq, ← pow2_eq]
  constructor
  · exact_mod_cast Iff.rfl
  · exact_mod_cast Iff.rfl

theorem compareBinary_lt {a n : Nat} {i j : Int} :
    compareBinary a i n j = .lt ↔ (a : ℚ) * 10 ^ i < n * 2 ^ j := by
  rw [(compareBinary_sides a i n j).1]
  exact Nat.compare_eq_lt

theorem compareBinary_eq {a n : Nat} {i j : Int} :
    compareBinary a i n j = .eq ↔ (a : ℚ) * 10 ^ i = n * 2 ^ j := by
  rw [(compareBinary_sides a i n j).2]
  exact Nat.compare_eq_eq

theorem compareBinary_gt {a n : Nat} {i j : Int} :
    compareBinary a i n j = .gt ↔ (n : ℚ) * 2 ^ j < a * 10 ^ i := by
  have hlt := compareBinary_lt (a := a) (n := n) (i := i) (j := j)
  have heq := compareBinary_eq (a := a) (n := n) (i := i) (j := j)
  rcases lt_trichotomy ((a : ℚ) * 10 ^ i) (n * 2 ^ j) with h | h | h
  · rw [hlt.2 h]
    exact ⟨fun hc => absurd hc (by decide), fun hc => absurd hc (not_lt_of_gt h)⟩
  · rw [heq.2 h]
    exact ⟨fun hc => absurd hc (by decide), fun hc => absurd h hc.ne'⟩
  · cases hc : compareBinary a i n j with
    | lt => exact absurd (hlt.1 hc) (not_lt_of_gt h)
    | eq => exact absurd (heq.1 hc) h.ne'
    | gt => exact iff_of_true rfl h

/-- What is rounded to a significand `m`, measured in units of its last place.  Below a
power of two the next value is half as far away. -/
structure Near (m : Nat) (narrow : Bool) (v : ℚ) : Prop where
  low : (m : ℚ) - (if narrow then 1 / 4 else 1 / 2) ≤ v
  high : v ≤ m + 1 / 2
  odd : m % 2 = 1 → (m : ℚ) - (if narrow then 1 / 4 else 1 / 2) < v ∧ v < m + 1 / 2

theorem near_self (m : Nat) (narrow : Bool) : Near m narrow m := by
  cases narrow <;> constructor <;> norm_num

theorem near_of_readsBack {m : Nat} {q : Int} {narrow : Bool} {d : Decimal} (hm : 0 < m)
    (h : readsBack m q narrow d = true) : Near m narrow (d.value / 2 ^ q) := by
  have hq := two_zpow_pos q
  have quarter : (2 : ℚ) ^ (q - 2) = 2 ^ q / 4 := by
    rw [zpow_sub₀ (by norm_num)]
    norm_num
  have side (n : Nat) : (n : ℚ) * 2 ^ (q - 2) = n / 4 * 2 ^ q := by
    rw [quarter]
    ring
  have low : (((if narrow then 4 * m - 1 else 4 * m - 2 : Nat) : ℚ)) / 4 =
      m - (if narrow then 1 / 4 else 1 / 2) := by
    cases narrow with
    | false =>
      rw [if_neg Bool.false_ne_true, if_neg Bool.false_ne_true, Nat.cast_sub (by omega)]
      push_cast
      ring
    | true =>
      rw [if_pos rfl, if_pos rfl, Nat.cast_sub (by omega)]
      push_cast
      ring
  have high : ((4 * m + 2 : Nat) : ℚ) / 4 = m + 1 / 2 := by
    push_cast
    ring
  simp only [readsBack, Bool.and_eq_true, Bool.or_eq_true, beq_iff_eq, decide_eq_true_eq,
    compareBinary_lt, compareBinary_eq, compareBinary_gt, side] at h
  rw [low, high] at h
  obtain ⟨h1, h2⟩ := h
  have hv : d.value / 2 ^ q * 2 ^ q = d.value := div_mul_cancel₀ _ hq.ne'
  change _ < d.value ∨ _ ∧ d.value = _ at h1
  change d.value < _ ∨ _ ∧ d.value = _ at h2
  rw [← hv, mul_lt_mul_iff_left₀ hq, mul_left_inj' hq.ne'] at h1
  rw [← hv, mul_lt_mul_iff_left₀ hq, mul_left_inj' hq.ne'] at h2
  refine ⟨?_, ?_, fun hodd => ⟨?_, ?_⟩⟩
  · rcases h1 with h1 | h1
    · exact h1.le
    · exact h1.2.ge
  · rcases h2 with h2 | h2
    · exact h2.le
    · exact h2.2.le
  · exact h1.resolve_right fun h => by omega
  · exact h2.resolve_right fun h => by omega

theorem readsBack_of_onGrid? {m : Nat} {q g : Int} {narrow : Bool} {d : Decimal}
    (h : onGrid? m q narrow g = some d) : readsBack m q narrow d = true := by
  unfold onGrid? at h
  simp only at h
  split at h
  · next hb ha =>
    cases h
    exact hb
  · next hb ha =>
    cases h
    exact ha
  · cases h
  · next hb ha =>
    split at h
    · cases h
      exact hb
    · cases h
      exact ha
    · cases h
      split
      · exact hb
      · exact ha

theorem value_strip (fuel : Nat) (d : Decimal) : (strip fuel d).value = d.value := by
  induction fuel generalizing d with
  | zero => rfl
  | succ fuel ih =>
    unfold strip
    split
    · next h =>
      rw [ih]
      have hd : d.digits = d.digits / 10 * 10 := by omega
      unfold value
      rw [zpow_add_one₀ (by norm_num)]
      conv_rhs => rw [hd]
      push_cast
      ring
    · rfl

theorem value_exact (m : Nat) (q : Int) : (exact m q).value = m * 2 ^ q := by
  unfold exact
  split
  · next h =>
    unfold value
    rw [zpow_split 2, Nat.cast_mul, pow2_eq, show (-q).toNat = 0 by omega]
    simp
  · next h =>
    obtain ⟨n, rfl⟩ : ∃ n : Nat, q = -(n : Int) := ⟨(-q).toNat, by omega⟩
    unfold value
    rw [zpow_neg, zpow_neg, zpow_natCast, zpow_natCast, Int.neg_neg, Int.toNat_natCast]
    have h10 : (10 : ℚ) ^ n = 5 ^ n * 2 ^ n := by rw [← mul_pow]; norm_num
    rw [h10]
    show ((m * 5 ^ n : Nat) : ℚ) * _ = _
    push_cast
    field_simp

theorem near_shortest {m : Nat} (q : Int) (narrow : Bool) (hm : 0 < m) :
    Near m narrow ((shortest m q narrow).value / 2 ^ q) := by
  unfold shortest
  simp only
  rw [value_strip]
  cases h : (List.range 17).findSome? fun n =>
      onGrid? m q narrow (magnitude m q - (n + 1 : Nat)) with
  | none =>
    rw [Option.getD_none, value_exact, mul_div_cancel_right₀ _ (two_zpow_pos q).ne']
    exact near_self m narrow
  | some d =>
    obtain ⟨n, -, hn⟩ := List.exists_of_findSome?_eq_some h
    exact near_of_readsBack hm (readsBack_of_onGrid? hn)

end Decimal

/-! ## Reading -/

namespace Double

/-- Whether the next number towards zero is only half as far away as the one on the other
side. -/
def narrow (x : Double) : Bool :=
  x.code % 0x10000000000000 = 0 && 0x20000000000000 ≤ x.code

/-- What is near to a finite number, in units of its last place, is rounded to it. -/
theorem round_of_near {x : Double} {num den : Nat} (hx : x.isFinite = true)
    (hm : 0 < x.parts.1) (hd : 0 < den)
    (h : Decimal.Near x.parts.1 x.narrow (num / den / 2 ^ x.parts.2)) :
    BinaryFormat.double.round num den = x.code := by
  obtain ⟨k, hk, hcode, hlt, hb⟩ := parts_spec BinaryFormat.double x.code
  have hinf : x.code < BinaryFormat.double.infinity := of_decide_eq_true hx
  have hunit : pow2 (BinaryFormat.double.precision - 1) = 2 ^ 52 := rfl
  change x.parts.2 = _ at hk
  change x.code = k * _ + x.parts.1 at hcode
  change x.parts.1 < _ at hlt
  change k = 0 ∨ _ ≤ x.parts.1 at hb
  rw [hk] at h
  have hm1 : (1 : ℚ) ≤ x.parts.1 := by exact_mod_cast hm
  have hn : 0 < num := by
    by_contra hn
    have h0 : (num : ℚ) = 0 := by exact_mod_cast Nat.eq_zero_of_not_pos hn
    have low := h.low
    rw [h0, zero_div, zero_div] at low
    split at low <;> linarith
  rw [hcode] at hinf ⊢
  by_cases hnarrow : x.narrow = true
  · -- The number is a power of two above the least binade.
    have hpow : x.code % 2 ^ 52 = 0 ∧ 2 ^ 53 ≤ x.code := by
      simpa [narrow] using hnarrow
    have hm52 : x.parts.1 = 2 ^ 52 := by
      rw [hunit] at hcode hlt hb
      omega
    obtain ⟨j, rfl⟩ : ∃ j, k = j + 1 := ⟨k - 1, by rw [hunit] at hcode; omega⟩
    have low := h.low
    have high := h.high
    rw [hnarrow, if_pos rfl] at low
    rw [hm52] at hinf low high ⊢
    rw [← hunit] at hinf low high ⊢
    by_cases hv : (num : ℚ) / den / 2 ^ (BinaryFormat.double.least + (j + 1 : Nat)) <
        pow2 (BinaryFormat.double.precision - 1)
    · exact round_eq_of_narrow hn hd hinf low hv
    · have hge := not_lt.1 hv
      exact round_eq hn hd (by rw [hunit]; decide) hinf (Or.inr hge) (by linarith) high
        (fun hodd => absurd hodd (by rw [hunit]; decide))
  · have low := h.low
    have odd := h.odd
    rw [if_neg hnarrow] at low odd
    refine round_eq hn hd hlt hinf ?_ low h.high odd
    by_cases hk0 : k = 0
    · exact Or.inl hk0
    · right
      have hge : 2 ^ 52 + 1 ≤ x.parts.1 := by
        by_contra hlt'
        rw [hunit] at hcode hb
        apply hnarrow
        simp only [narrow, Bool.and_eq_true, decide_eq_true_eq]
        omega
      have hgeq : (2 ^ 52 + 1 : ℚ) ≤ x.parts.1 := by exact_mod_cast hge
      rw [pow2_eq, show BinaryFormat.double.precision - 1 = 52 from rfl]
      linarith

theorem toDigits_bounds {n : Nat} (hn : 0 < n) :
    10 ^ ((Nat.toDigits 10 n).length - 1) ≤ n ∧ n < 10 ^ (Nat.toDigits 10 n).length := by
  have hpos := Nat.length_toDigits_pos (b := 10) (n := n)
  refine ⟨?_, (Nat.length_toDigits_le_iff (by decide) hpos).1 (Nat.le_refl _)⟩
  by_cases h1 : (Nat.toDigits 10 n).length = 1
  · rw [h1]
    exact hn
  · apply Nat.le_of_not_lt
    intro hlt
    have hle := (Nat.length_toDigits_le_iff (by decide) (by omega)).2 hlt
    omega

theorem exponent_bounds {x : Double} (hx : x.isFinite = true) :
    -1074 ≤ x.parts.2 ∧ x.parts.2 ≤ 972 ∧ x.parts.1 < 2 ^ 53 := by
  obtain ⟨k, hk, hcode, hlt, -⟩ := parts_spec BinaryFormat.double x.code
  have hinf : x.code < 2047 * 2 ^ 52 := of_decide_eq_true hx
  have hunit : pow2 (BinaryFormat.double.precision - 1) = 2 ^ 52 := rfl
  change x.parts.2 = -1074 + k at hk
  change x.code = k * _ + x.parts.1 at hcode
  change x.parts.1 < _ at hlt
  rw [hunit] at hcode hlt
  refine ⟨?_, ?_, ?_⟩ <;> omega

/-- A decimal lies between the powers of ten that its leading digit gives. -/
theorem lead_bounds {n : Nat} (hn : 0 < n) (e : Int) :
    (10 : ℚ) ^ ((Nat.toDigits 10 n).length + e - 1) ≤ n * 10 ^ e ∧
      (n : ℚ) * 10 ^ e < 10 ^ ((Nat.toDigits 10 n).length + e) := by
  obtain ⟨low, high⟩ := toDigits_bounds hn
  have hpos := Nat.length_toDigits_pos (b := 10) (n := n)
  have h10 := ten_zpow_pos e
  constructor
  · have hl : ((Nat.toDigits 10 n).length : Int) + e - 1 =
        ((Nat.toDigits 10 n).length - 1 : Nat) + e := by omega
    rw [hl, zpow_add₀ (by norm_num), zpow_natCast, mul_le_mul_iff_left₀ h10]
    exact_mod_cast low
  · rw [zpow_add₀ (by norm_num), zpow_natCast, mul_lt_mul_iff_left₀ h10]
    exact_mod_cast high

theorem small_le : (10 : ℚ) ^ (-401 : Int) ≤ 1 / 2 * 2 ^ (-1074 : Int) := by
  have h : (2 : ℚ) ^ 1075 ≤ 10 ^ 401 := by
    exact_mod_cast (by decide +kernel : 2 ^ 1075 ≤ 10 ^ 401)
  have h2 : (1 : ℚ) / 2 * 2 ^ (-1074 : Int) = (2 ^ 1075)⁻¹ := by
    rw [zpow_neg, show (1074 : Int) = (1074 : Nat) from rfl, zpow_natCast, pow_succ 2 1074]
    field_simp
  rw [h2, zpow_neg, show (401 : Int) = (401 : Nat) from rfl, zpow_natCast]
  exact inv_anti₀ (by positivity) h

theorem lt_large : (2 : ℚ) ^ 53 * 2 ^ (972 : Int) < 10 ^ (400 : Int) := by
  have h : (2 : ℚ) ^ 53 * 2 ^ 972 < 10 ^ 400 := by
    exact_mod_cast (by decide +kernel : 2 ^ 53 * 2 ^ 972 < 10 ^ 400)
  exact_mod_cast h

/-- A decimal near to a finite number is read as this number. -/
theorem ofDecimal_of_near {x : Double} {digits : Nat} {exponent : Int} (negative : Bool)
    (hx : x.isFinite = true) (hm : 0 < x.parts.1)
    (h : Decimal.Near x.parts.1 x.narrow ((digits : ℚ) * 10 ^ exponent / 2 ^ x.parts.2)) :
    ofDecimal negative digits exponent = ofCode negative x.code := by
  obtain ⟨hq1, hq2, hm53⟩ := exponent_bounds hx
  have hm1 : (1 : ℚ) ≤ x.parts.1 := by exact_mod_cast hm
  have hm2 : (x.parts.1 : ℚ) + 1 ≤ 2 ^ 53 := by exact_mod_cast hm53
  have hq := two_zpow_pos x.parts.2
  have low : (1 : ℚ) / 2 * 2 ^ x.parts.2 ≤ digits * 10 ^ exponent := by
    have hlow := h.low
    rw [le_div_iff₀ hq] at hlow
    refine le_trans ?_ hlow
    gcongr
    split <;> linarith
  have high : (digits : ℚ) * 10 ^ exponent < 2 ^ 53 * 2 ^ x.parts.2 := by
    have hhigh := h.high
    rw [div_le_iff₀ hq] at hhigh
    refine lt_of_le_of_lt hhigh ?_
    gcongr
    linarith
  have hd : 0 < digits := by
    by_contra hd
    have h0 : (digits : ℚ) = 0 := by exact_mod_cast Nat.eq_zero_of_not_pos hd
    rw [h0, zero_mul] at low
    linarith
  obtain ⟨b1, b2⟩ := lead_bounds hd exponent
  have notSmall : ¬ ((Nat.toDigits 10 digits).length + exponent < -400) := by
    intro hlead
    have h1 : (10 : ℚ) ^ ((Nat.toDigits 10 digits).length + exponent) ≤ 10 ^ (-401 : Int) :=
      zpow_le_zpow_right₀ (by norm_num) (by omega)
    have h2 : (1 : ℚ) / 2 * 2 ^ (-1074 : Int) ≤ 1 / 2 * 2 ^ x.parts.2 :=
      mul_le_mul_of_nonneg_left (zpow_le_zpow_right₀ (by norm_num) hq1) (by norm_num)
    exact absurd (h1.trans (small_le.trans (h2.trans low))) (not_le_of_gt b2)
  have notLarge : ¬ (400 < ((Nat.toDigits 10 digits).length : Int) + exponent) := by
    intro hlead
    have h1 : (10 : ℚ) ^ (400 : Int) ≤ 10 ^ ((Nat.toDigits 10 digits).length + exponent - 1) :=
      zpow_le_zpow_right₀ (by norm_num) (by omega)
    have h2 : (2 : ℚ) ^ 53 * 2 ^ x.parts.2 ≤ 2 ^ 53 * 2 ^ (972 : Int) :=
      mul_le_mul_of_nonneg_left (zpow_le_zpow_right₀ (by norm_num) hq2) (by positivity)
    exact absurd (h1.trans (b1.trans (high.le.trans h2))) (not_le_of_gt lt_large)
  unfold ofDecimal
  simp only
  rw [if_neg (by omega), if_neg notLarge]
  unfold ofRatio
  have hone : pow2 (-(0 : Int)).toNat = 1 := rfl
  have hone' : pow2 (0 : Int).toNat = 1 := rfl
  rw [hone, hone', Nat.mul_one, Nat.mul_one, round_of_near hx hm (pow10_pos _) ?_]
  rwa [Nat.cast_mul, pow10_eq, pow10_eq, mul_div_assoc, ← zpow_split]

theorem ofCode_code (x : Double) : ofCode x.negative x.code = x := by
  obtain ⟨bits⟩ := x
  unfold ofCode
  congr 1
  have hlt := bits.toNat_lt
  apply UInt64.toNat_inj.1
  rw [UInt64.toNat_ofNat']
  by_cases h : signBit ≤ bits.toNat
  · rw [show (⟨bits⟩ : Double).negative = true from decide_eq_true h, if_pos rfl]
    show (bits.toNat % signBit + signBit) % 2 ^ 64 = bits.toNat
    unfold signBit at h ⊢
    omega
  · rw [show (⟨bits⟩ : Double).negative = false from decide_eq_false h, if_neg Bool.false_ne_true]
    show (bits.toNat % signBit + 0) % 2 ^ 64 = bits.toNat
    unfold signBit at h ⊢
    omega

/-- The text of a finite number: a sign and the layout of a decimal near to it. -/
theorem render_eq {x : Double} (hx : x.isFinite = true) :
    ∃ d : Decimal, x.render = (if x.negative then ['-'] else []) ++ d.layout ∧
      (x.isZero = true → d = ⟨0, 0⟩) ∧
      (x.isZero = false → d = Decimal.shortest x.parts.1 x.parts.2 x.narrow) := by
  have hfin : x.code < infinityCode := of_decide_eq_true hx
  have hnan : x.isNaN = false := decide_eq_false (by omega)
  have hinf : x.isInfinite = false := decide_eq_false (by omega)
  unfold render
  rw [hnan, hinf]
  cases hz : x.isZero with
  | true => exact ⟨⟨0, 0⟩, rfl, fun _ => rfl, fun h => Bool.noConfusion h⟩
  | false => exact ⟨_, rfl, fun h => Bool.noConfusion h, fun _ => rfl⟩

end Double
end QuestArchive
