-- SUMMARY: The difficulty as a function of the timestamps: order, and the closed form of a whole history.
import Mathlib.Algebra.BigOperators.Intervals
import Mathlib.Algebra.Order.BigOperators.Ring.Finset
import BuenzliCoin.Chain.Difficulty
import BuenzliCoin.Lib.ClampedRatio

/-!
# Retargeting

The adjuster multiplies its difficulty by a clamped ratio, once in every period
of blocks. The two times of the ratio are computed with 64 bits each; the closed
form over the integers holds as long as that does not change the clamped ratio.
-/

namespace BuenzliCoin

open ClampedRatio

namespace DifficultyAdjuster

open ExactDouble

-- ---------------------------------------------------------------------------
-- One call
-- ---------------------------------------------------------------------------

/-- The clamp of the code, as that of the library. -/
theorem clamped_eq_clampedRatio {limit : ℚ} (hlimit : 1 ≤ limit) (expected actual : ℚ) :
    clamped limit expected actual = clampedRatio limit expected actual := by
  have hle : 1 / limit ≤ limit := by
    rw [one_div]
    exact inv_le_self hlimit
  unfold clamped clampedRatio
  rw [← one_div]
  split_ifs with hzero hlow hhigh
  · rfl
  · rw [min_eq_right (hlow.le.trans hle), max_eq_left hlow.le]
  · rw [min_eq_left (le_of_lt hhigh), max_eq_right hle]
  · rw [min_eq_right (not_lt.mp hhigh), max_eq_right (not_lt.mp hlow)]

theorem adjustFactor_eq_clampedRatio {limit : ℚ} (hlimit : 1 ≤ limit) {expected : UInt64}
    {actual : TimePoint} (hdivides : expected ≠ 0 ∨ actual ≠ 0) :
    adjustFactor expected actual limit =
      finite (clampedRatio limit (expected.toNat : ℚ) (actual.toInt : ℚ)) := by
  rw [adjustFactor_eq_clamped (one_pos.trans_le hlimit).ne' hdivides,
    clamped_eq_clampedRatio hlimit]

variable [Env]

/-- What a call that adjusts does to a difficulty that is a number. -/
theorem adjust_difficulty_of_finite {da da' : DifficultyAdjuster} {t : TimePoint} {d : ℚ}
    (hlimit : 1 ≤ config.blockgenDifficultyAdjustFactorLimit) (hadjusts : da.Adjusts)
    (hdivides : da.Divides t) (hd : da.difficulty = finite d) (h : da.adjust t = some da') :
    da'.difficulty = finite (d * clampedRatio config.blockgenDifficultyAdjustFactorLimit
      (totalTimeExpected.toNat : ℚ) ((t - da.timestamp).toInt : ℚ)) := by
  rw [adjust_difficulty_of_adjusts hadjusts h, hd, factor,
    adjustFactor_eq_clampedRatio hlimit hdivides, finite_mul_finite]

/-- No history makes the difficulty infinite, unless the limit is zero. -/
theorem replay_difficulty (hlimit : 1 ≤ config.blockgenDifficultyAdjustFactorLimit)
    {timestamps : List TimePoint} {da : DifficultyAdjuster} (h : replay timestamps = some da) :
    da.difficulty = nan ∨ ∃ d, da.difficulty = finite d := by
  induction timestamps using List.reverseRecOn generalizing da with
  | nil =>
    cases h
    exact .inr ⟨_, rfl⟩
  | append_singleton timestamps t ih =>
    rw [replay_concat] at h
    obtain ⟨da₁, hreplay, hadjust⟩ := Option.bind_eq_some_iff.mp h
    by_cases hadjusts : da₁.Adjusts
    · by_cases hdivides : da₁.Divides t
      · obtain hnan | ⟨d, hd⟩ := ih hreplay
        · exact .inl (adjust_difficulty_of_nan hnan hadjust)
        · exact .inr ⟨_, adjust_difficulty_of_finite hlimit hadjusts hdivides hd hadjust⟩
      · exact .inl (adjust_difficulty_of_not_divides hadjusts hdivides hadjust)
    · rw [(adjust_difficulty_of_not_adjusts hadjusts hadjust).1]
      exact ih hreplay

-- ---------------------------------------------------------------------------
-- Order
-- ---------------------------------------------------------------------------

/-- The later timestamp `t` does not get a greater factor than `s`: the two times
    since the last adjustment are both positive and in order, or the one is cut
    off below or the other above. -/
def KeepsOrder (da : DifficultyAdjuster) (s t : TimePoint) : Prop :=
  let limit := config.blockgenDifficultyAdjustFactorLimit
  let expected : ℚ := totalTimeExpected.toNat
  let actual : ℚ := (s - da.timestamp).toInt
  let actual' : ℚ := (t - da.timestamp).toInt
  limit = 1 ∨ Slow limit expected actual' ∨ Fast limit expected actual ∨
    (0 < actual' ∧ 0 < actual ∧ expected * actual ≤ expected * actual')

theorem clampedRatio_le_iff_keepsOrder (hlimit : 1 ≤ config.blockgenDifficultyAdjustFactorLimit)
    (da : DifficultyAdjuster) (s t : TimePoint) :
    clampedRatio config.blockgenDifficultyAdjustFactorLimit (totalTimeExpected.toNat : ℚ)
        ((t - da.timestamp).toInt : ℚ) ≤
      clampedRatio config.blockgenDifficultyAdjustFactorLimit (totalTimeExpected.toNat : ℚ)
        ((s - da.timestamp).toInt : ℚ) ↔ da.KeepsOrder s t :=
  clampedRatio_le_clampedRatio_iff hlimit (Nat.cast_nonneg _) (Nat.cast_nonneg _)

/-- Of two timestamps that may come next, the later one leads to the lower
    difficulty exactly if no factor is due, or the factors are in order; all that as
    long as zero has not been divided by zero, nor is with these timestamps. -/
theorem adjust_difficulty_le_iff (hlimit : 1 ≤ config.blockgenDifficultyAdjustFactorLimit)
    {timestamps : List TimePoint} {s t : TimePoint} {da das dat : DifficultyAdjuster}
    (hreplay : replay timestamps = some da) (hs : da.adjust s = some das)
    (ht : da.adjust t = some dat) :
    dat.difficulty ≤ das.difficulty ↔
      ∃ d, da.difficulty = finite d ∧
        (da.Adjusts → da.Divides s ∧ da.Divides t ∧
          (0 < d → da.KeepsOrder s t) ∧ (d < 0 → da.KeepsOrder t s)) := by
  obtain hnan | ⟨d, hd⟩ := replay_difficulty hlimit hreplay
  · simp [hnan, adjust_difficulty_of_nan hnan ht]
  · simp only [hd, finite.injEq, exists_eq_left']
    by_cases hadjusts : da.Adjusts
    · simp only [hadjusts, forall_true_left]
      by_cases hdivides : da.Divides s ∧ da.Divides t
      · rw [adjust_difficulty_of_finite hlimit hadjusts hdivides.1 hd hs,
          adjust_difficulty_of_finite hlimit hadjusts hdivides.2 hd ht, finite_le_finite,
          ← clampedRatio_le_iff_keepsOrder hlimit, ← clampedRatio_le_iff_keepsOrder hlimit]
        simp only [hdivides, true_and]
        rcases lt_trichotomy d 0 with hneg | hzero | hpos
        · simp only [mul_le_mul_left_of_neg hneg, hneg, not_lt_of_gt hneg, forall_true_left,
            false_imp_iff, true_and]
        · simp [hzero]
        · simp only [mul_le_mul_iff_right₀ hpos, hpos, not_lt_of_gt hpos, forall_true_left,
            false_imp_iff, and_true]
      · refine iff_of_false (fun hle => ?_) fun h => hdivides ⟨h.1, h.2.1⟩
        obtain hzero | hzero := not_and_or.mp hdivides
        · rw [adjust_difficulty_of_not_divides hadjusts hzero hs] at hle
          exact not_le_nan _ hle
        · rw [adjust_difficulty_of_not_divides hadjusts hzero ht] at hle
          exact not_nan_le _ hle
    · rw [(adjust_difficulty_of_not_adjusts hadjusts ht).1,
        (adjust_difficulty_of_not_adjusts hadjusts hs).1, hd, finite_le_finite]
      simp only [hadjusts, le_refl, false_imp_iff]

end DifficultyAdjuster

theorem DifficultyAdjuster.adjust_difficulty_le_iff_first :
    letI := plainBuild
    1 ≤ config.blockgenDifficultyAdjustFactorLimit ∧
    ∃ da das dat, replay (List.replicate 10 0) = some da ∧ da.adjust 40000 = some das ∧
      da.adjust 80000 = some dat ∧ da.Adjusts ∧ das.difficulty = .finite 5 ∧
      dat.difficulty = .finite (5 / 2) ∧
      (dat.difficulty ≤ das.difficulty ↔
        ∃ d, da.difficulty = .finite d ∧
          (da.Adjusts → da.Divides 40000 ∧ da.Divides 80000 ∧
            (0 < d → da.KeepsOrder 40000 80000) ∧ (d < 0 → da.KeepsOrder 80000 40000))) := by
  let env := plainBuild
  have hlimit : 1 ≤ config.blockgenDifficultyAdjustFactorLimit := by decide +kernel
  let da : DifficultyAdjuster := { fresh with counter := 10 }
  let das : DifficultyAdjuster := ⟨.finite 5, .finite 5, 11, 40000⟩
  let dat : DifficultyAdjuster := ⟨.finite (5 / 2), .finite (5 / 2), 11, 80000⟩
  have hreplay : replay (List.replicate 10 0) = some da := by decide +kernel
  have hs : da.adjust 40000 = some das := by decide +kernel
  have ht : da.adjust 80000 = some dat := by decide +kernel
  exact ⟨hlimit, da, das, dat, hreplay, hs, ht, by decide, rfl, rfl,
    adjust_difficulty_le_iff hlimit hreplay hs ht⟩

/-- Ten blocks of the time 1000: with one of the time 999 next the difficulty is
    cut down, with one of the time 1001 it goes up. -/
theorem DifficultyAdjuster.adjust_difficulty_lt_of_earlier :
    letI := plainBuild
    0 < config.blockgenTimeExpected ∧ 0 < config.blockgenDifficultyAdjustAfter ∧
    1 ≤ config.blockgenDifficultyAdjustFactorLimit ∧ (999 : TimePoint) ≤ 1001 ∧
    ∃ da das dat, replay (List.replicate 10 1000) = some da ∧ da.adjust 999 = some das ∧
      da.adjust 1001 = some dat ∧ das.difficulty = .finite (1 / 8) ∧
      dat.difficulty = .finite 32 ∧ ¬ dat.difficulty ≤ das.difficulty := by
  let env := plainBuild
  exact ⟨by decide, by decide, by decide +kernel, by decide,
    { fresh with counter := 10, timestamp := 1000 }, ⟨.finite (1 / 8), .finite (1 / 8), 11, 999⟩,
    ⟨.finite 32, .finite 32, 11, 1001⟩, by decide +kernel⟩

namespace DifficultyAdjuster

open ExactDouble

variable [Env]

-- ---------------------------------------------------------------------------
-- Closed form
-- ---------------------------------------------------------------------------

/-- The adjuster after the timestamps `t 0`, ..., `t n`. -/
def after (t : ℕ → TimePoint) (n : ℕ) : Option DifficultyAdjuster :=
  replay ((List.range (n + 1)).map t)

theorem after_succ (t : ℕ → TimePoint) (n : ℕ) :
    after t (n + 1) = (after t n).bind fun da => da.adjust (t (n + 1)) := by
  rw [after, List.range_succ, List.map_append, List.map_singleton, replay_concat]
  rfl

/-- What the code multiplies by at the `k`-th adjustment. -/
def factorAt (t : ℕ → TimePoint) (k : ℕ) : ExactDouble :=
  adjustFactor totalTimeExpected (t (k * period) - t ((k - 1) * period))
    config.blockgenDifficultyAdjustFactorLimit

/-- The difficulty after so many adjustments. -/
def difficultyAt (t : ℕ → TimePoint) : ℕ → ExactDouble
  | 0 => finite config.blockgenDifficultyInit
  | m + 1 => difficultyAt t m * factorAt t (m + 1)

def cumulativeAt (t : ℕ → TimePoint) : ℕ → ExactDouble
  | 0 => finite 0
  | m + 1 => cumulativeAt t m + difficultyAt t (m + 1)

/-- The adjuster multiplies once in every period, and adds up what it gets. -/
theorem after_eq (hperiod : period ≠ 0) (t : ℕ → TimePoint) (n : ℕ) :
    after t n = some {
      difficulty := difficultyAt t (n / period)
      cumulativeDifficulty := cumulativeAt t (n / period)
      counter := n + 1
      timestamp := t (n / period * period) } := by
  induction n with
  | zero =>
    rw [Nat.zero_div, Nat.zero_mul]
    rfl
  | succ n ih =>
    rw [after_succ, ih, Option.bind_some]
    by_cases hdvd : period ∣ n + 1
    · have hquot : (n + 1) / period = n / period + 1 := by
        rw [Nat.succ_div, if_pos hdvd]
      have hplace : (n / period + 1) * period = n + 1 := by
        rw [← hquot]
        exact Nat.div_mul_cancel hdvd
      rw [adjust_of_adjusts ⟨Nat.succ_ne_zero n, Nat.mod_eq_zero_of_dvd hdvd⟩, hquot, hplace,
        cumulativeAt, difficultyAt, factorAt, hplace, Nat.add_sub_cancel, factor]
    · have hquot : (n + 1) / period = n / period := by
        rw [Nat.succ_div, if_neg hdvd]
        rfl
      rw [adjust_of_not_adjusts hperiod (Nat.succ_ne_zero n)
        (fun hadjusts => hdvd (Nat.dvd_of_mod_eq_zero hadjusts.2)), hquot]

/-! The same in numbers -/

/-- The two times of the `k`-th adjustment are not both zero. -/
def DividesAt (t : ℕ → TimePoint) (k : ℕ) : Prop :=
  totalTimeExpected ≠ 0 ∨ t (k * period) - t ((k - 1) * period) ≠ 0

/-- The factor of the `k`-th adjustment: the quotient of the two times, clamped. -/
def ratioAt (t : ℕ → TimePoint) (k : ℕ) : ℚ :=
  clamped config.blockgenDifficultyAdjustFactorLimit totalTimeExpected.toNat
    (t (k * period) - t ((k - 1) * period)).toInt

/-- The difficulty after `m` adjustments. -/
def productAt (t : ℕ → TimePoint) (m : ℕ) : ℚ :=
  config.blockgenDifficultyInit * ∏ k ∈ Finset.Icc 1 m, ratioAt t k

theorem productAt_succ (t : ℕ → TimePoint) (m : ℕ) :
    productAt t (m + 1) = productAt t m * ratioAt t (m + 1) := by
  rw [productAt, Finset.prod_Icc_succ_top (Nat.le_add_left 1 m), ← mul_assoc]
  rfl

theorem difficultyAt_eq_productAt (hlimit : config.blockgenDifficultyAdjustFactorLimit ≠ 0)
    {t : ℕ → TimePoint} {m : ℕ} (h : ∀ k, 1 ≤ k → k ≤ m → DividesAt t k) :
    difficultyAt t m = finite (productAt t m) := by
  induction m with
  | zero => simp [difficultyAt, productAt]
  | succ m ih =>
    have hfactor : factorAt t (m + 1) = finite (ratioAt t (m + 1)) :=
      adjustFactor_eq_clamped hlimit (h (m + 1) (Nat.le_add_left 1 m) (le_refl _))
    rw [difficultyAt, ih fun k hone hk => h k hone (Nat.le_succ_of_le hk), hfactor,
      finite_mul_finite, productAt_succ]

theorem cumulativeAt_eq_sum (hlimit : config.blockgenDifficultyAdjustFactorLimit ≠ 0)
    {t : ℕ → TimePoint} {m : ℕ} (h : ∀ k, 1 ≤ k → k ≤ m → DividesAt t k) :
    cumulativeAt t m = finite (∑ k ∈ Finset.Icc 1 m, productAt t k) := by
  induction m with
  | zero => simp [cumulativeAt]
  | succ m ih =>
    rw [cumulativeAt, ih fun k hone hk => h k hone (Nat.le_succ_of_le hk),
      difficultyAt_eq_productAt hlimit h, finite_add_finite,
      Finset.sum_Icc_succ_top (Nat.le_add_left 1 m)]

/-- Once zero has been divided by zero there is no number any more. -/
theorem at_eq_nan {t : ℕ → TimePoint} {k m : ℕ} (hone : 1 ≤ k) (hk : k ≤ m)
    (h : ¬ DividesAt t k) : difficultyAt t m = nan ∧ cumulativeAt t m = nan := by
  have hfactor : factorAt t k = nan := by
    simp only [DividesAt, not_or, not_not] at h
    rw [factorAt, h.1, h.2]
    exact adjustFactor_of_zero _
  induction m, hk using Nat.le_induction with
  | base =>
    obtain ⟨k, rfl⟩ := Nat.exists_eq_add_of_le' hone
    rw [cumulativeAt, difficultyAt, hfactor, mul_nan, add_nan]
    exact ⟨rfl, rfl⟩
  | succ m hk ih =>
    rw [cumulativeAt, difficultyAt, ih.1, nan_mul, add_nan]
    exact ⟨rfl, rfl⟩

/-! The same over the integers -/

/-- The time that the blocks of one period should take. -/
def exactExpected : ℚ := (config.blockgenTimeExpected.toInt * period : ℤ)

/-- The time between the timestamps that the `k`-th adjustment is made from. -/
def exactActual (t : ℕ → TimePoint) (k : ℕ) : ℚ :=
  ((t (k * period)).toInt - (t ((k - 1) * period)).toInt : ℤ)

/-- The quotient of the two, clamped. -/
def exactFactor (t : ℕ → TimePoint) (k : ℕ) : ℚ :=
  let limit := config.blockgenDifficultyAdjustFactorLimit
  if exactActual t k = 0 then limit
  else if exactActual t k < 0 then 1 / limit
  else max (1 / limit) (min limit (exactExpected / exactActual t k))

def exactDifficulty (t : ℕ → TimePoint) (m : ℕ) : ℚ :=
  config.blockgenDifficultyInit * ∏ k ∈ Finset.Icc 1 m, exactFactor t k

theorem exactDifficulty_succ (t : ℕ → TimePoint) (m : ℕ) :
    exactDifficulty t (m + 1) = exactDifficulty t m * exactFactor t (m + 1) := by
  rw [exactDifficulty, Finset.prod_Icc_succ_top (Nat.le_add_left 1 m), ← mul_assoc]
  rfl

/-- The state `da` of the adjuster after the timestamps `t 0`, ..., `t n`. -/
structure ClosedForm (t : ℕ → TimePoint) (n : ℕ) (da : DifficultyAdjuster) : Prop where
  difficulty : da.difficulty = finite (exactDifficulty t (n / period))
  cumulativeDifficulty :
    da.cumulativeDifficulty = finite (∑ k ∈ Finset.Icc 1 (n / period), exactDifficulty t k)
  timestamp : da.timestamp = t (n / period * period)
  lower : finite (config.blockgenDifficultyInit /
    config.blockgenDifficultyAdjustFactorLimit ^ (n / period)) ≤ da.difficulty
  upper : da.difficulty ≤ finite (config.blockgenDifficultyInit *
    config.blockgenDifficultyAdjustFactorLimit ^ (n / period))
  nonneg : finite 0 ≤ da.difficulty
  cumulative_nonneg : finite 0 ≤ da.cumulativeDifficulty

/-- The clamped ratio of the `k`-th adjustment comes out as over the integers:
    both are cut off at the same end, or the quotients are the same. -/
def Exact (t : ℕ → TimePoint) (k : ℕ) : Prop :=
  let limit := config.blockgenDifficultyAdjustFactorLimit
  let expected : ℚ := totalTimeExpected.toNat
  let actual : ℚ := (t (k * period) - t ((k - 1) * period)).toInt
  limit = 1 ∨ (Slow limit expected actual ∧ Slow limit exactExpected (exactActual t k)) ∨
    (Fast limit expected actual ∧ Fast limit exactExpected (exactActual t k)) ∨
    (0 < actual ∧ 0 < exactActual t k ∧ expected * exactActual t k = exactExpected * actual)

theorem exactExpected_nonneg (hexpected : 0 < config.blockgenTimeExpected) : 0 ≤ exactExpected := by
  have hpos : 0 < config.blockgenTimeExpected.toInt := by
    simpa using Int64.lt_iff_toInt_lt.mp hexpected
  rw [exactExpected]
  positivity

theorem exactFactor_eq_clampedRatio (hexpected : 0 < config.blockgenTimeExpected)
    (hlimit : 1 ≤ config.blockgenDifficultyAdjustFactorLimit) (t : ℕ → TimePoint) (k : ℕ) :
    exactFactor t k = clampedRatio config.blockgenDifficultyAdjustFactorLimit exactExpected
      (exactActual t k) := by
  unfold exactFactor
  dsimp only
  split_ifs with hzero hneg
  · rw [clampedRatio, if_pos hzero]
  · have hslow : Slow config.blockgenDifficultyAdjustFactorLimit exactExpected
        (exactActual t k) := .inl hneg
    rw [hslow.clampedRatio_eq hlimit (exactExpected_nonneg hexpected), one_div]
  · rw [clampedRatio, if_neg hzero, one_div]

theorem ratioAt_eq_exactFactor_iff (hexpected : 0 < config.blockgenTimeExpected)
    (hlimit : 1 ≤ config.blockgenDifficultyAdjustFactorLimit) (t : ℕ → TimePoint) (k : ℕ) :
    ratioAt t k = exactFactor t k ↔ Exact t k := by
  rw [exactFactor_eq_clampedRatio hexpected hlimit, ratioAt, clamped_eq_clampedRatio hlimit]
  exact clampedRatio_eq_clampedRatio_iff hlimit (Nat.cast_nonneg _) (exactExpected_nonneg hexpected)

/-- Where no computation overflows it does, and does not divide zero by zero. -/
theorem exact_of_no_overflow (hexpected : 0 < config.blockgenTimeExpected) (hperiod : 1 ≤ period)
    (hlimit : 1 ≤ config.blockgenDifficultyAdjustFactorLimit) (t : ℕ → TimePoint) (k : ℕ)
    (hproduct : config.blockgenTimeExpected.toInt * period < 2 ^ 64)
    (hfits : TimePoint.SubFits (t (k * period)) (t ((k - 1) * period))) :
    DividesAt t k ∧ Exact t k := by
  have hpos : 0 < config.blockgenTimeExpected.toInt := by
    simpa using Int64.lt_iff_toInt_lt.mp hexpected
  have hexact : (totalTimeExpected.toNat : ℤ) = config.blockgenTimeExpected.toInt * period := by
    have hE : (config.blockgenTimeExpected.toUInt64.toNat : ℤ) =
        config.blockgenTimeExpected.toInt := by
      rw [Int64.toNat_toUInt64_of_le (Int64.le_of_lt hexpected)]
      exact Int.toNat_of_nonneg hpos.le
    rw [← hE] at hproduct
    rw [totalTimeExpected, UInt64.toNat_mul, ← hE]
    exact_mod_cast Nat.mod_eq_of_lt (by exact_mod_cast hproduct)
  constructor
  · refine .inl fun hzero => ?_
    have hnonzero : 0 < config.blockgenTimeExpected.toInt * period :=
      mul_pos hpos (by exact_mod_cast hperiod)
    rw [← hexact, hzero] at hnonzero
    exact lt_irrefl _ hnonzero
  · rw [← ratioAt_eq_exactFactor_iff hexpected hlimit,
      exactFactor_eq_clampedRatio hexpected hlimit, ratioAt, clamped_eq_clampedRatio hlimit,
      hfits.toInt_sub, exactExpected, ← hexact]
    rfl

theorem ratioAt_eq_clampedRatio (hlimit : 1 ≤ config.blockgenDifficultyAdjustFactorLimit)
    (t : ℕ → TimePoint) (k : ℕ) :
    ratioAt t k = clampedRatio config.blockgenDifficultyAdjustFactorLimit
      (totalTimeExpected.toNat : ℚ) ((t (k * period) - t ((k - 1) * period)).toInt : ℚ) :=
  clamped_eq_clampedRatio hlimit _ _

theorem productAt_pos (hinit : 0 < config.blockgenDifficultyInit)
    (hlimit : 1 ≤ config.blockgenDifficultyAdjustFactorLimit) (t : ℕ → TimePoint) (m : ℕ) :
    0 < productAt t m := by
  refine mul_pos hinit (Finset.prod_pos fun k _ => ?_)
  rw [ratioAt_eq_clampedRatio hlimit]
  exact clampedRatio_pos hlimit

/-- The products agree up to some point exactly if their factors do. -/
theorem productAt_eq_exactDifficulty_iff (hinit : 0 < config.blockgenDifficultyInit)
    (hlimit : 1 ≤ config.blockgenDifficultyAdjustFactorLimit) (t : ℕ → TimePoint) (m : ℕ) :
    (∀ k ≤ m, productAt t k = exactDifficulty t k) ↔
      ∀ k, 1 ≤ k → k ≤ m → ratioAt t k = exactFactor t k := by
  constructor
  · intro h k hone hk
    obtain ⟨k, rfl⟩ := Nat.exists_eq_add_of_le' hone
    have hthis := h (k + 1) hk
    have hbefore := h k (Nat.le_of_succ_le hk)
    have hpos : 0 < exactDifficulty t k := hbefore ▸ productAt_pos hinit hlimit t k
    rw [productAt_succ, exactDifficulty_succ, hbefore] at hthis
    exact mul_left_cancel₀ hpos.ne' hthis
  · intro h k hk
    rw [productAt, exactDifficulty]
    congr 1
    apply Finset.prod_congr rfl
    intro i hi
    obtain ⟨hone, hle⟩ := Finset.mem_Icc.mp hi
    exact h i hone (hle.trans hk)

/-- Each factor is within the limit, and so is their product. -/
theorem productAt_bounds (hinit : 0 < config.blockgenDifficultyInit)
    (hlimit : 1 ≤ config.blockgenDifficultyAdjustFactorLimit) (t : ℕ → TimePoint) (m : ℕ) :
    config.blockgenDifficultyInit / config.blockgenDifficultyAdjustFactorLimit ^ m ≤
      productAt t m ∧
    productAt t m ≤
      config.blockgenDifficultyInit * config.blockgenDifficultyAdjustFactorLimit ^ m := by
  induction m with
  | zero => simp [productAt]
  | succ m ih =>
    obtain ⟨hlower, hupper⟩ := ih
    have hpos : 0 < config.blockgenDifficultyAdjustFactorLimit := one_pos.trans_le hlimit
    have hdifficulty := (productAt_pos hinit hlimit t m).le
    rw [productAt_succ, ratioAt_eq_clampedRatio hlimit, pow_succ]
    constructor
    · calc config.blockgenDifficultyInit / (config.blockgenDifficultyAdjustFactorLimit ^ m *
            config.blockgenDifficultyAdjustFactorLimit)
          = config.blockgenDifficultyInit / config.blockgenDifficultyAdjustFactorLimit ^ m *
            (config.blockgenDifficultyAdjustFactorLimit)⁻¹ := by
            rw [← div_div, div_eq_mul_inv (_ / _)]
        _ ≤ productAt t m * clampedRatio _ _ _ :=
            mul_le_mul hlower (le_clampedRatio hlimit) (inv_pos.mpr hpos).le hdifficulty
    · rw [← mul_assoc]
      exact mul_le_mul hupper (clampedRatio_le hlimit) (clampedRatio_pos hlimit).le
        (hdifficulty.trans hupper)

/-- The closed form holds all along a history exactly if every adjustment in it
    comes out as over the integers, and none divides zero by zero. -/
theorem closedForm_iff (hinit : 0 < config.blockgenDifficultyInit)
    (hexpected : 0 < config.blockgenTimeExpected) (hperiod : 1 ≤ period)
    (hlimit : 1 ≤ config.blockgenDifficultyAdjustFactorLimit) (t : ℕ → TimePoint) (n : ℕ) :
    (∀ i ≤ n, ∃ da, after t i = some da ∧ ClosedForm t i da) ↔
      ∀ k, 1 ≤ k → k ≤ n / period → DividesAt t k ∧ Exact t k := by
  have hlimit' : config.blockgenDifficultyAdjustFactorLimit ≠ 0 := (one_pos.trans_le hlimit).ne'
  have hperiod' : period ≠ 0 := Nat.one_le_iff_ne_zero.mp hperiod
  have hfactors := productAt_eq_exactDifficulty_iff hinit hlimit t (n / period)
  simp only [ratioAt_eq_exactFactor_iff hexpected hlimit] at hfactors
  constructor
  · intro h
    have hdifficulty : ∀ k ≤ n / period, difficultyAt t k = finite (exactDifficulty t k) := by
      intro k hk
      obtain ⟨da, hda, hform⟩ :=
        h (k * period) ((Nat.mul_le_mul_right _ hk).trans (Nat.div_mul_le_self n period))
      rw [after_eq hperiod', Option.some.injEq, Nat.mul_div_cancel k hperiod] at hda
      have hclosed := hform.difficulty
      rwa [← hda, Nat.mul_div_cancel k hperiod] at hclosed
    have hdivides : ∀ k, 1 ≤ k → k ≤ n / period → DividesAt t k := by
      intro k hone hk
      by_contra hzero
      have hnan := (at_eq_nan hone (le_refl k) hzero).1
      rw [hdifficulty k hk] at hnan
      cases hnan
    refine fun k hone hk => ⟨hdivides k hone hk, hfactors.mp (fun i hi => ?_) k hone hk⟩
    have hproduct := difficultyAt_eq_productAt hlimit' (t := t) (m := i)
      fun k hone hk => hdivides k hone (hk.trans hi)
    rw [hdifficulty i hi] at hproduct
    exact (finite.inj hproduct).symm
  · intro h i hi
    have hquot : i / period ≤ n / period := Nat.div_le_div_right hi
    have hdivides : ∀ k, 1 ≤ k → k ≤ i / period → DividesAt t k :=
      fun k hone hk => (h k hone (hk.trans hquot)).1
    have hexact := hfactors.mpr fun k hone hk => (h k hone hk).2
    obtain ⟨hlower, hupper⟩ := productAt_bounds hinit hlimit t (i / period)
    have hsum : ∑ k ∈ Finset.Icc 1 (i / period), productAt t k =
        ∑ k ∈ Finset.Icc 1 (i / period), exactDifficulty t k := by
      apply Finset.sum_congr rfl
      intro k hk
      exact hexact k ((Finset.mem_Icc.mp hk).2.trans hquot)
    refine ⟨_, after_eq hperiod' t i, ?_⟩
    rw [difficultyAt_eq_productAt hlimit' hdivides, cumulativeAt_eq_sum hlimit' hdivides]
    constructor
    · exact congrArg finite (hexact _ hquot)
    · exact congrArg finite hsum
    · rfl
    · exact finite_le_finite.mpr hlower
    · exact finite_le_finite.mpr hupper
    · exact finite_le_finite.mpr (productAt_pos hinit hlimit t _).le
    · exact finite_le_finite.mpr
        (Finset.sum_nonneg fun k _ => (productAt_pos hinit hlimit t k).le)

end DifficultyAdjuster

theorem DifficultyAdjuster.closedForm_iff_standing_clock :
    letI := plainBuild
    0 < config.blockgenDifficultyInit ∧ 0 < config.blockgenTimeExpected ∧ 1 ≤ period ∧
    1 ≤ config.blockgenDifficultyAdjustFactorLimit ∧
    ((∀ i ≤ 10, ∃ da, after (fun _ => 0) i = some da ∧ ClosedForm (fun _ => 0) i da) ↔
      ∀ k, 1 ≤ k → k ≤ 10 / period → DividesAt (fun _ => 0) k ∧ Exact (fun _ => 0) k) := by
  let env := plainBuild
  have hinit : 0 < config.blockgenDifficultyInit := by decide +kernel
  have hexpected : 0 < config.blockgenTimeExpected := by decide
  have hperiod : 1 ≤ period := by decide
  have hlimit : 1 ≤ config.blockgenDifficultyAdjustFactorLimit := by decide +kernel
  exact ⟨hinit, hexpected, hperiod, hlimit,
    closedForm_iff hinit hexpected hperiod hlimit (fun _ => 0) 10⟩

/-- A block is expected every 2 ^ 62 milliseconds, and four of them make a period. -/
abbrev longPeriods : Env :=
  { plainBuild with
    config := { blockgenTimeExpected := 4611686018427387904, blockgenDifficultyAdjustAfter := 4 } }

/-- One millisecond passes where 2 ^ 64 are expected; these are counted as none,
    and the difficulty drops from 2 to 1/8 when it should go up to 32. -/
theorem DifficultyAdjuster.not_closedForm_longPeriods :
    letI := longPeriods
    let t : ℕ → TimePoint := fun k => if k = 4 then 1 else 0
    0 < config.blockgenDifficultyInit ∧ 0 < config.blockgenTimeExpected ∧ 1 ≤ period ∧
    1 ≤ config.blockgenDifficultyAdjustFactorLimit ∧
    ∃ da, after t 4 = some da ∧ da.difficulty = .finite (1 / 8) ∧
      exactDifficulty t (4 / period) = 32 ∧ ¬ ClosedForm t 4 da := by
  let env := longPeriods
  dsimp only
  let da : DifficultyAdjuster := ⟨.finite (1 / 8), .finite (1 / 8), 5, 1⟩
  have hafter : after (fun k => if k = 4 then 1 else 0) 4 = some da := by decide +kernel
  have hexact : exactDifficulty (fun k => if k = 4 then 1 else 0) (4 / period) = 32 := by
    decide +kernel
  refine ⟨by decide +kernel, by decide, by decide, by decide +kernel, da, hafter, rfl, hexact, ?_⟩
  intro h
  have heq := h.difficulty
  rw [hexact] at heq
  exact absurd heq (by decide +kernel)

end BuenzliCoin
