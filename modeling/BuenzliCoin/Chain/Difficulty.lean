-- SUMMARY: The difficulty adjuster, its replay over a list of timestamps, and the miner's target.
import Mathlib.Data.Int.Log
import Mathlib.Data.Rat.Floor
import BuenzliCoin.Base.Env
import BuenzliCoin.Lib.ExactDouble
import BuenzliCoin.Lib.Runs

namespace BuenzliCoin

/-- The counter is a `std::size_t`, and is read as never wrapping around. -/
structure DifficultyAdjuster where
  difficulty : ExactDouble
  cumulativeDifficulty : ExactDouble := .finite 0
  counter : Nat := 0
  timestamp : TimePoint := 0
  deriving DecidableEq, Repr

namespace DifficultyAdjuster

open ExactDouble Runs

/-- The quotient of the two intervals after the clamp. The comparisons fail for a
    quotient that is no number, as it is if both intervals are zero. -/
def adjustFactor (totalTimeExpected : UInt64) (totalTimeActual : TimePoint) (limit : ℚ) :
    ExactDouble :=
  let factor := quotient totalTimeExpected.toNat totalTimeActual.toInt
  if factor < quotient 1 limit then quotient 1 limit
  else if factor > finite limit then finite limit
  else factor

variable [Env]

/-- `DifficultyAdjuster()` -/
def fresh : DifficultyAdjuster where
  difficulty := .finite config.blockgenDifficultyInit

/-- `none` if the program traps, at the remainder of a division by zero. -/
def adjust (da : DifficultyAdjuster) (timestamp : TimePoint) : Option DifficultyAdjuster := do
  let adjustAfter := config.blockgenDifficultyAdjustAfter
  let da ←
    if da.counter = 0 then some { da with timestamp := timestamp }
    else if adjustAfter = 0 then none
    else if da.counter % adjustAfter.toNat = 0 then
      -- The product has the common type of its factors, which is unsigned.
      let totalTimeExpected := config.blockgenTimeExpected.toUInt64 * adjustAfter
      let totalTimeActual := timestamp - da.timestamp
      let factor := adjustFactor totalTimeExpected totalTimeActual
        config.blockgenDifficultyAdjustFactorLimit
      let difficulty := da.difficulty * factor
      some { da with
        difficulty := difficulty
        cumulativeDifficulty := da.cumulativeDifficulty + difficulty
        timestamp := timestamp }
    else some da
  return { da with counter := da.counter + 1 }

@[simp] theorem fresh_counter : fresh.counter = 0 := rfl

/-- The number of blocks between two adjustments. -/
def period : Nat := config.blockgenDifficultyAdjustAfter.toNat

theorem period_eq_zero_iff : period = 0 ↔ config.blockgenDifficultyAdjustAfter = 0 :=
  ⟨fun h => UInt64.toNat_inj.mp h, fun h => congrArg UInt64.toNat h⟩

/-- `total_time_expected.count()`, whose type is unsigned. -/
def totalTimeExpected : UInt64 :=
  config.blockgenTimeExpected.toUInt64 * config.blockgenDifficultyAdjustAfter

/-- The next call multiplies the difficulty. -/
def Adjusts (da : DifficultyAdjuster) : Prop := da.counter ≠ 0 ∧ da.counter % period = 0

instance (da : DifficultyAdjuster) : Decidable da.Adjusts :=
  inferInstanceAs (Decidable (_ ∧ _))

/-- What a call that adjusts multiplies by. -/
def factor (da : DifficultyAdjuster) (t : TimePoint) : ExactDouble :=
  adjustFactor totalTimeExpected (t - da.timestamp) config.blockgenDifficultyAdjustFactorLimit

theorem adjust_of_counter_eq_zero {da : DifficultyAdjuster} (h : da.counter = 0) (t : TimePoint) :
    da.adjust t = some { da with timestamp := t, counter := 1 } := by
  simp [adjust, h]

theorem adjust_of_adjusts {da : DifficultyAdjuster} (h : da.Adjusts) (t : TimePoint) :
    da.adjust t = some {
      difficulty := da.difficulty * da.factor t
      cumulativeDifficulty := da.cumulativeDifficulty + da.difficulty * da.factor t
      counter := da.counter + 1
      timestamp := t } := by
  obtain ⟨hcounter, hmod⟩ := h
  have hafter : config.blockgenDifficultyAdjustAfter ≠ 0 := by
    intro hzero
    rw [period_eq_zero_iff.mpr hzero, Nat.mod_zero] at hmod
    exact hcounter hmod
  unfold period at hmod
  simp only [adjust, if_neg hcounter, if_neg hafter, if_pos hmod]
  rfl

theorem adjust_of_not_adjusts {da : DifficultyAdjuster} (hperiod : period ≠ 0)
    (hcounter : da.counter ≠ 0) (h : ¬ da.Adjusts) (t : TimePoint) :
    da.adjust t = some { da with counter := da.counter + 1 } := by
  have hafter : config.blockgenDifficultyAdjustAfter ≠ 0 := fun hzero =>
    hperiod (period_eq_zero_iff.mpr hzero)
  have hmod : ¬ da.counter % config.blockgenDifficultyAdjustAfter.toNat = 0 :=
    fun hmod => h ⟨hcounter, hmod⟩
  simp only [adjust, if_neg hcounter, if_neg hafter, if_neg hmod]
  rfl

theorem adjust_of_period_eq_zero {da : DifficultyAdjuster} (hperiod : period = 0)
    (hcounter : da.counter ≠ 0) (t : TimePoint) : da.adjust t = none := by
  simp only [adjust, if_neg hcounter, if_pos (period_eq_zero_iff.mp hperiod)]
  rfl

/-- Everything a call that returns can do. -/
theorem adjust_cases {da da' : DifficultyAdjuster} {t : TimePoint} (h : da.adjust t = some da') :
    (da.counter = 0 ∧ da' = { da with timestamp := t, counter := 1 }) ∨
    (da.Adjusts ∧ da' = {
      difficulty := da.difficulty * da.factor t
      cumulativeDifficulty := da.cumulativeDifficulty + da.difficulty * da.factor t
      counter := da.counter + 1
      timestamp := t }) ∨
    (da.counter ≠ 0 ∧ period ≠ 0 ∧ ¬ da.Adjusts ∧ da' = { da with counter := da.counter + 1 }) := by
  by_cases hcounter : da.counter = 0
  · rw [adjust_of_counter_eq_zero hcounter] at h
    exact .inl ⟨hcounter, (Option.some.inj h).symm⟩
  by_cases hadjusts : da.Adjusts
  · rw [adjust_of_adjusts hadjusts] at h
    exact .inr (.inl ⟨hadjusts, (Option.some.inj h).symm⟩)
  by_cases hperiod : period = 0
  · rw [adjust_of_period_eq_zero hperiod hcounter] at h
    cases h
  · rw [adjust_of_not_adjusts hperiod hcounter hadjusts] at h
    exact .inr (.inr ⟨hcounter, hperiod, hadjusts, (Option.some.inj h).symm⟩)

/-- The program traps at the second call if it is to adjust after 0 blocks. -/
theorem adjust_eq_none_iff {da : DifficultyAdjuster} {t : TimePoint} :
    da.adjust t = none ↔ period = 0 ∧ da.counter ≠ 0 := by
  constructor
  · intro h
    have hcounter : da.counter ≠ 0 := by
      intro hcounter
      rw [adjust_of_counter_eq_zero hcounter] at h
      cases h
    refine ⟨?_, hcounter⟩
    by_contra hperiod
    by_cases hadjusts : da.Adjusts
    · rw [adjust_of_adjusts hadjusts] at h
      cases h
    · rw [adjust_of_not_adjusts hperiod hcounter hadjusts] at h
      cases h
  · rintro ⟨hperiod, hcounter⟩
    exact adjust_of_period_eq_zero hperiod hcounter t

theorem adjust_counter {da da' : DifficultyAdjuster} {t : TimePoint} (h : da.adjust t = some da') :
    da'.counter = da.counter + 1 := by
  obtain ⟨hcounter, rfl⟩ | ⟨-, rfl⟩ | ⟨-, -, -, rfl⟩ := adjust_cases h
  · simp [hcounter]
  · rfl
  · rfl

theorem adjust_difficulty_of_not_adjusts {da da' : DifficultyAdjuster} {t : TimePoint}
    (hadjusts : ¬ da.Adjusts) (h : da.adjust t = some da') :
    da'.difficulty = da.difficulty ∧ da'.cumulativeDifficulty = da.cumulativeDifficulty := by
  obtain ⟨-, rfl⟩ | ⟨hadjusts', -⟩ | ⟨-, -, -, rfl⟩ := adjust_cases h
  · exact ⟨rfl, rfl⟩
  · exact absurd hadjusts' hadjusts
  · exact ⟨rfl, rfl⟩

theorem adjust_difficulty_of_adjusts {da da' : DifficultyAdjuster} {t : TimePoint}
    (hadjusts : da.Adjusts) (h : da.adjust t = some da') :
    da'.difficulty = da.difficulty * da.factor t := by
  rw [adjust_of_adjusts hadjusts, Option.some.injEq] at h
  rw [← h]

/-- A difficulty that is no number stays none. -/
theorem adjust_difficulty_of_nan {da da' : DifficultyAdjuster} {t : TimePoint}
    (hnan : da.difficulty = nan) (h : da.adjust t = some da') : da'.difficulty = nan := by
  by_cases hadjusts : da.Adjusts
  · rw [adjust_difficulty_of_adjusts hadjusts h, hnan, nan_mul]
  · rw [(adjust_difficulty_of_not_adjusts hadjusts h).1, hnan]

/-- The adjuster reads the timestamp of a block only at a boundary, that is,
    for the first block and for every `blockgenDifficultyAdjustAfter`-th one
    after it. -/
def AtBoundary (da : DifficultyAdjuster) : Prop := da.counter % period = 0

instance (da : DifficultyAdjuster) : Decidable da.AtBoundary :=
  inferInstanceAs (Decidable (_ = _))

theorem adjust_timestamp_of_atBoundary {da da' : DifficultyAdjuster} {t : TimePoint}
    (hboundary : da.AtBoundary) (h : da.adjust t = some da') : da'.timestamp = t := by
  obtain ⟨-, rfl⟩ | ⟨-, rfl⟩ | ⟨hcounter, -, hadjusts, -⟩ := adjust_cases h
  · rfl
  · rfl
  · exact absurd ⟨hcounter, hboundary⟩ hadjusts

/-- Two timestamps make a difference exactly at a boundary. -/
theorem adjust_eq_adjust_iff {da da' : DifficultyAdjuster} {t t' : TimePoint}
    (hadjust : da.adjust t = some da') :
    da.adjust t' = some da' ↔ (da.AtBoundary → t = t') := by
  constructor
  · intro h hboundary
    rw [← adjust_timestamp_of_atBoundary hboundary hadjust,
      adjust_timestamp_of_atBoundary hboundary h]
  · intro h
    by_cases hboundary : da.AtBoundary
    · rw [← h hboundary]
      exact hadjust
    · obtain ⟨hcounter, -⟩ | ⟨⟨-, hmod⟩, -⟩ | ⟨hcounter, hperiod, hadjusts, rfl⟩ :=
        adjust_cases hadjust
      · exact absurd (by rw [AtBoundary, hcounter, Nat.zero_mod]) hboundary
      · exact absurd hmod hboundary
      · exact adjust_of_not_adjusts hperiod hcounter hadjusts t'

/-- Feed a list of timestamps, in order, to a fresh adjuster. -/
def replay (timestamps : List TimePoint) : Option DifficultyAdjuster := run adjust fresh timestamps

@[simp] theorem replay_nil : replay [] = some fresh := rfl

theorem replay_concat (timestamps : List TimePoint) (t : TimePoint) :
    replay (timestamps ++ [t]) = (replay timestamps).bind fun da => da.adjust t := by
  rw [replay, run_append]
  simp only [run, Option.bind_fun_some]
  rfl

theorem replay_counter {timestamps : List TimePoint} {da : DifficultyAdjuster}
    (h : replay timestamps = some da) : da.counter = timestamps.length := by
  induction timestamps using List.reverseRecOn generalizing da with
  | nil =>
    cases h
    rfl
  | append_singleton timestamps t ih =>
    rw [replay_concat] at h
    obtain ⟨da₁, hreplay, hadjust⟩ := Option.bind_eq_some_iff.mp h
    rw [adjust_counter hadjust, ih hreplay, List.length_append, List.length_singleton]

/-- With a period there are no traps. -/
theorem exists_adjust (hperiod : period ≠ 0) (da : DifficultyAdjuster) (t : TimePoint) :
    ∃ da', da.adjust t = some da' := by
  apply Option.ne_none_iff_exists'.mp
  intro hnone
  exact hperiod (adjust_eq_none_iff.mp hnone).1

theorem exists_replay (hperiod : period ≠ 0) (timestamps : List TimePoint) :
    ∃ da, replay timestamps = some da := by
  induction timestamps using List.reverseRecOn with
  | nil => exact ⟨fresh, rfl⟩
  | append_singleton timestamps t ih =>
    obtain ⟨da, hreplay⟩ := ih
    obtain ⟨da', hadjust⟩ := exists_adjust hperiod da t
    exact ⟨da', by rw [replay_concat, hreplay, Option.bind_some, hadjust]⟩

/-! ## Numbers -/

omit [Env] in
theorem adjustFactor_of_zero (limit : ℚ) : adjustFactor 0 0 limit = nan := by
  have hquotient : quotient ((0 : UInt64).toNat : ℚ) ((0 : TimePoint).toInt : ℚ) = nan :=
    quotient_eq_nan_iff.mpr ⟨rfl, rfl⟩
  unfold adjustFactor
  dsimp only
  rw [hquotient, if_neg (not_nan_lt _)]
  exact if_neg (not_lt_nan _)

/-- The clamp on rationals, where a zero interval counts as an infinite quotient. -/
def clamped (limit expected actual : ℚ) : ℚ :=
  if actual = 0 then limit
  else if expected / actual < 1 / limit then 1 / limit
  else if expected / actual > limit then limit
  else expected / actual

omit [Env] in
theorem adjustFactor_eq_clamped {limit : ℚ} (hlimit : limit ≠ 0) {expected : UInt64}
    {actual : TimePoint} (hdivides : expected ≠ 0 ∨ actual ≠ 0) :
    adjustFactor expected actual limit =
      finite (clamped limit (expected.toNat : ℚ) (actual.toInt : ℚ)) := by
  unfold adjustFactor clamped
  rw [quotient_of_ne_zero 1 hlimit]
  by_cases hactual : (actual.toInt : ℚ) = 0
  · have hzero : actual = 0 := Int64.toInt_inj.mp (Int.cast_eq_zero.mp hactual)
    have hexpected : (expected.toNat : ℚ) ≠ 0 := by
      intro h
      have hne := hdivides.resolve_right (not_not.mpr hzero)
      exact hne (UInt64.toNat_inj.mp (Nat.cast_eq_zero.mp h))
    have hpos : ¬ (expected.toNat : ℚ) < 0 := not_lt.mpr (Nat.cast_nonneg _)
    simp [hactual, hexpected, hpos]
  · rw [quotient_of_ne_zero _ hactual, if_neg hactual]
    simp only [finite_lt_finite, gt_iff_lt]
    split_ifs <;> rfl

omit [Env] in
theorem clamped_ne_zero {limit : ℚ} (hlimit : limit ≠ 0) (expected actual : ℚ) :
    clamped limit expected actual ≠ 0 := by
  unfold clamped
  split_ifs with hactual hlow hhigh
  · exact hlimit
  · exact one_div_ne_zero hlimit
  · exact hlimit
  · intro hzero
    rw [hzero] at hlow hhigh
    have hneg : limit < 0 :=
      lt_of_le_of_ne (one_div_nonpos.mp (not_lt.mp hlow)) hlimit
    exact hhigh hneg

omit [Env] in
/-- With the limit zero the inverse of the limit is infinite. -/
theorem adjustFactor_limit_zero {expected : UInt64} {actual : TimePoint}
    (hdivides : expected ≠ 0 ∨ actual ≠ 0) :
    adjustFactor expected actual 0 = if actual = 0 then finite 0 else infinite false := by
  unfold adjustFactor
  have hone : quotient 1 0 = infinite false := by simp
  by_cases hzero : actual = 0
  · have hexpected : (expected.toNat : ℚ) ≠ 0 := by
      intro h
      have hne := hdivides.resolve_right (not_not.mpr hzero)
      exact hne (UInt64.toNat_inj.mp (Nat.cast_eq_zero.mp h))
    have hpos : ¬ (expected.toNat : ℚ) < 0 := not_lt.mpr (Nat.cast_nonneg _)
    have hquotient : quotient (expected.toNat : ℚ) (actual.toInt : ℚ) = infinite false := by
      simp [hzero, hexpected, hpos]
    dsimp only
    rw [hquotient, hone, if_pos hzero, if_neg (by decide), if_pos (by simp)]
  · have hactual : (actual.toInt : ℚ) ≠ 0 :=
      fun h => hzero (Int64.toInt_inj.mp (Int.cast_eq_zero.mp h))
    simp [quotient_of_ne_zero _ hactual, hzero]

/-- The two times that a call divides are not both zero. -/
def Divides (da : DifficultyAdjuster) (t : TimePoint) : Prop :=
  totalTimeExpected ≠ 0 ∨ t - da.timestamp ≠ 0

/-- A difficulty that is a number stays one: if the call adjusts, it does not divide
    zero by zero; nor, should the limit be zero, multiply zero by infinity. -/
def KeepsNumber (da : DifficultyAdjuster) (t : TimePoint) : Prop :=
  da.Adjusts → da.Divides t ∧
    (config.blockgenDifficultyAdjustFactorLimit = 0 →
      if t - da.timestamp = 0 then ∀ n, da.difficulty ≠ infinite n else da.difficulty ≠ finite 0)

/-- Where neither the limit nor the time expected is zero, every call does. -/
theorem keepsNumber_of_ne_zero (hlimit : config.blockgenDifficultyAdjustFactorLimit ≠ 0)
    (hexpected : totalTimeExpected ≠ 0) (da : DifficultyAdjuster) (t : TimePoint) :
    da.KeepsNumber t :=
  fun _ => ⟨.inl hexpected, fun hzero => absurd hzero hlimit⟩

theorem factor_of_not_divides {da : DifficultyAdjuster} {t : TimePoint} (h : ¬ da.Divides t) :
    da.factor t = nan := by
  simp only [Divides, not_or, not_not] at h
  rw [factor, h.1, h.2]
  exact adjustFactor_of_zero _

/-- Zero divided by zero makes the difficulty no number. -/
theorem adjust_difficulty_of_not_divides {da da' : DifficultyAdjuster} {t : TimePoint}
    (hadjusts : da.Adjusts) (hdivides : ¬ da.Divides t) (h : da.adjust t = some da') :
    da'.difficulty = nan := by
  rw [adjust_difficulty_of_adjusts hadjusts h, factor_of_not_divides hdivides, mul_nan]

theorem keepsNumber_iff {da da' : DifficultyAdjuster} {t : TimePoint} (hda : da.difficulty ≠ nan)
    (h : da.adjust t = some da') : da'.difficulty ≠ nan ↔ da.KeepsNumber t := by
  by_cases hadjusts : da.Adjusts
  · simp only [KeepsNumber, hadjusts, forall_true_left]
    by_cases hdivides : da.Divides t
    · rw [adjust_difficulty_of_adjusts hadjusts h, and_iff_right hdivides]
      by_cases hlimit : config.blockgenDifficultyAdjustFactorLimit = 0
      · have hfactor : da.factor t =
            if t - da.timestamp = 0 then finite 0 else infinite false := by
          rw [factor, hlimit]
          exact adjustFactor_limit_zero hdivides
        rw [hfactor]
        split_ifs
        · simp [mul_eq_nan_iff hda, hlimit]
        · simp [mul_eq_nan_iff hda, hlimit]
      · have hfactor : da.factor t = finite _ := adjustFactor_eq_clamped hlimit hdivides
        rw [hfactor, Ne, mul_eq_nan_iff hda (by simp)]
        simp [clamped_ne_zero hlimit, hlimit]
    · simp [hdivides, adjust_difficulty_of_not_divides hadjusts hdivides h]
  · rw [(adjust_difficulty_of_not_adjusts hadjusts h).1]
    exact iff_of_true hda fun hadjusts' => absurd hadjusts' hadjusts

/-- All difficulties of a history are numbers exactly if every call keeps them so. -/
theorem forall_difficulty_ne_nan_iff {timestamps : List TimePoint} :
    (∀ i < timestamps.length, ∀ da, replay (timestamps.take (i + 1)) = some da →
        da.difficulty ≠ nan) ↔
      EveryStep adjust KeepsNumber fresh timestamps := by
  have hfresh : fresh.difficulty ≠ nan := by simp [fresh]
  rw [← everyState_iff_everyStep (P := fun da => da.difficulty ≠ nan)
    (fun _ _ _ hda hadjust => keepsNumber_iff hda hadjust) hfresh]
  have htake : EveryState adjust (fun da => da.difficulty ≠ nan) fresh timestamps ↔ _ :=
    everyState_iff_forall_take
  exact (htake.trans (and_iff_right hfresh)).symm

end DifficultyAdjuster

/-- `static_cast<std::size_t>(std::log2(difficulty))`: the logarithm is cut off
    towards zero, and a negative count wraps around. -/
def difficultyLog2 (difficulty : ℚ) : Nat :=
  let truncated := if 1 ≤ difficulty then Int.log 2 difficulty else -Int.log 2 difficulty⁻¹
  (truncated % 2 ^ 64).toNat

/-- `difficulty_log2`; `none` where the logarithm is not a finite number, so that its
    cast is undefined. -/
def difficultyTarget : ExactDouble → Option Nat
  | .finite d => if 0 < d then some (difficultyLog2 d) else none
  | _ => none

theorem difficultyTarget_of_pos {d : ℚ} (hd : 0 < d) :
    difficultyTarget (.finite d) = some (difficultyLog2 d) := if_pos hd

theorem difficultyLog2_two_pow {k : Nat} (hk : k < 2 ^ 64) : difficultyLog2 (2 ^ k) = k := by
  have hone : (1 : ℚ) ≤ 2 ^ k := one_le_pow₀ (by norm_num)
  have hlog : Int.log 2 ((2 : ℚ) ^ k) = k := by
    simpa using Int.log_zpow (R := ℚ) (b := 2) (by norm_num) (k : ℤ)
  simp only [difficultyLog2, if_pos hone, hlog]
  omega

/-- Cutting off the logarithm loses nothing exactly for the powers of two. -/
theorem le_two_pow_difficultyLog2_iff {d : ℚ} (hd : 1 ≤ d) :
    d ≤ 2 ^ difficultyLog2 d ↔ ∃ k < 2 ^ 64, d = 2 ^ k := by
  constructor
  · intro h
    have hpos : 0 < d := lt_of_lt_of_le one_pos hd
    obtain ⟨l, hl⟩ : ∃ l : ℕ, Int.log 2 d = l := ⟨_, Int.log_of_one_le_right 2 hd⟩
    have hself : (2 : ℚ) ^ l ≤ d := by
      have hzpow := Int.zpow_log_le_self (R := ℚ) (b := 2) (by norm_num) hpos
      simpa [hl] using hzpow
    have htarget : difficultyLog2 d = l % 2 ^ 64 := by
      simp only [difficultyLog2, if_pos hd, hl]
      omega
    have hle : l ≤ difficultyLog2 d := (pow_le_pow_iff_right₀ (by norm_num)).mp (hself.trans h)
    have hfits : l < 2 ^ 64 := by omega
    have heq : difficultyLog2 d = l := by omega
    exact ⟨l, hfits, le_antisymm (heq ▸ h) hself⟩
  · rintro ⟨k, hk, rfl⟩
    rw [difficultyLog2_two_pow hk]

end BuenzliCoin
