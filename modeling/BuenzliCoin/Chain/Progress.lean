-- SUMMARY: What an adjustment does to the miner's target and to the comparison of a chain with its extension.
import Mathlib.Analysis.SpecialFunctions.Log.Base
import BuenzliCoin.Chain.Retarget
import BuenzliCoin.Chain.Work

/-!
# Progress under proof of work

Mining needs a target that is a count, and the difficulty may fall below one. The
comparison of chains needs a cumulative difficulty that grows, and it does so at
adjustments only.
-/

namespace BuenzliCoin

open ClampedRatio DifficultyAdjuster ExactDouble Runs

-- ---------------------------------------------------------------------------
-- Targets
-- ---------------------------------------------------------------------------

/-- The difficulty has a logarithm that can be cast to a `std::size_t`, and the count
    is not above it. -/
structure Representable (difficulty : ℚ) : Prop where
  pos : 0 < difficulty
  above : -1 < Real.logb 2 difficulty
  below : Real.logb 2 difficulty < 2 ^ 64
  target : (difficultyLog2 difficulty : ℝ) ≤ Real.logb 2 difficulty

/-- The difficulty is a finite number with such a logarithm. -/
def HasTarget (difficulty : ExactDouble) : Prop :=
  ∃ d, difficulty = finite d ∧ Representable d

/-- The count is the logarithm cut off, if this is a count at all. -/
theorem difficultyLog2_le_logb {d : ℚ} (hd : 1 ≤ d) (hfits : Real.logb 2 d < 2 ^ 64) :
    (difficultyLog2 d : ℝ) ≤ Real.logb 2 d := by
  have hpos : 0 < d := one_pos.trans_le hd
  obtain ⟨l, hl⟩ : ∃ l : ℕ, Int.log 2 d = l := ⟨_, Int.log_of_one_le_right 2 hd⟩
  have hself : (2 : ℝ) ^ (l : ℝ) ≤ d := by
    have hzpow := Int.zpow_log_le_self (R := ℚ) (b := 2) (by norm_num) hpos
    rw [hl, zpow_natCast] at hzpow
    rw [Real.rpow_natCast]
    exact_mod_cast hzpow
  have hle : (l : ℝ) ≤ Real.logb 2 d :=
    (Real.le_logb_iff_rpow_le one_lt_two (by exact_mod_cast hpos)).mpr hself
  have hlt : l < 2 ^ 64 := by
    have hcast : (l : ℝ) < (2 ^ 64 : ℕ) := (hle.trans_lt hfits).trans_eq (by norm_num)
    exact_mod_cast hcast
  have htarget : difficultyLog2 d = l := by
    simp only [difficultyLog2, if_pos hd, hl]
    omega
  rw [htarget]
  exact hle

theorem representable_iff {d : ℚ} : Representable d ↔ 1 ≤ d ∧ Real.logb 2 d < 2 ^ 64 := by
  constructor
  · rintro ⟨hd, -, hbelow, htarget⟩
    have hpos : (0 : ℝ) < d := by exact_mod_cast hd
    have hnonneg : 0 ≤ Real.logb 2 d := (Nat.cast_nonneg _).trans htarget
    have hone := (Real.logb_nonneg_iff one_lt_two hpos).mp hnonneg
    exact ⟨by exact_mod_cast hone, hbelow⟩
  · rintro ⟨hone, hbelow⟩
    have hnonneg : 0 ≤ Real.logb 2 (d : ℝ) :=
      Real.logb_nonneg one_lt_two (by exact_mod_cast hone)
    exact ⟨one_pos.trans_le hone, by linarith, hbelow, difficultyLog2_le_logb hone hbelow⟩

/-- Logarithms grow, and that of zero counts as zero. -/
theorem logb_lt_of_le (a b : ℚ) (ha : 0 ≤ a) (hle : a ≤ b) (h : Real.logb 2 b < 2 ^ 64) :
    Real.logb 2 a < 2 ^ 64 := by
  rcases ha.eq_or_lt with rfl | hpos
  · norm_num
  · have hmono : Real.logb 2 a ≤ Real.logb 2 b :=
      Real.logb_le_logb_of_le one_lt_two (by exact_mod_cast hpos) (by exact_mod_cast hle)
    exact hmono.trans_lt h

namespace DifficultyAdjuster

variable [Env]

/-- The difficulty does not fall below one, nor does it get too large. If a factor
    is due, zero is not divided by zero; the difficulty can bear the lowest factor,
    or the blocks took no longer than the difficulty times the time expected; and it
    can bear the highest one, or the blocks took long enough. -/
def KeepsTarget (da : DifficultyAdjuster) (t : TimePoint) : Prop :=
  let limit := config.blockgenDifficultyAdjustFactorLimit
  let expected : ℚ := totalTimeExpected.toNat
  let actual : ℚ := (t - da.timestamp).toInt
  let Fits : ℚ → Prop := fun d => Real.logb 2 d < 2 ^ 64
  da.Adjusts → da.Divides t ∧ ∀ d, da.difficulty = finite d →
    (limit ≤ d ∨ (0 ≤ actual ∧ actual ≤ d * expected)) ∧
    (Fits (d * limit) ∨ actual < 0 ∨ (0 < actual ∧ Fits (d * (expected / actual))))

theorem hasTarget_adjust_iff (hlimit : 1 ≤ config.blockgenDifficultyAdjustFactorLimit)
    {da da' : DifficultyAdjuster} {t : TimePoint} (h : HasTarget da.difficulty)
    (hadjust : da.adjust t = some da') : HasTarget da'.difficulty ↔ da.KeepsTarget t := by
  by_cases hadjusts : da.Adjusts
  · obtain ⟨d, hd, hrepresentable⟩ := h
    have hexpected : (0 : ℚ) ≤ totalTimeExpected.toNat := Nat.cast_nonneg _
    simp only [KeepsTarget, hadjusts, forall_true_left]
    by_cases hdivides : da.Divides t
    · obtain ⟨hone, hfits⟩ := representable_iff.mp hrepresentable
      rw [and_iff_right hdivides,
        adjust_difficulty_of_finite hlimit hadjusts hdivides hd hadjust]
      simp only [HasTarget, hd, finite.injEq, exists_eq_left', forall_eq']
      rw [representable_iff, one_le_mul_clampedRatio_iff hlimit hexpected hone,
        mul_clampedRatio_iff logb_lt_of_le hlimit hexpected hrepresentable.pos.le hfits]
    · refine iff_of_false (fun htarget => ?_) fun h => hdivides h.1
      obtain ⟨d', hd', -⟩ := htarget
      rw [adjust_difficulty_of_not_divides hadjusts hdivides hadjust] at hd'
      cases hd'
  · rw [(adjust_difficulty_of_not_adjusts hadjusts hadjust).1]
    exact ⟨fun _ hadjusts' => absurd hadjusts' hadjusts, fun _ => h⟩

/-- Every difficulty in a history gives a target exactly if the first one does and
    all adjustments keep it. -/
theorem everyState_representable_iff (hinit : 1 ≤ config.blockgenDifficultyInit)
    (hlimit : 1 ≤ config.blockgenDifficultyAdjustFactorLimit) (timestamps : List TimePoint) :
    EveryState adjust (fun da => HasTarget da.difficulty) fresh timestamps ↔
      Real.logb 2 config.blockgenDifficultyInit < 2 ^ 64 ∧
        EveryStep adjust KeepsTarget fresh timestamps := by
  have hfresh : HasTarget fresh.difficulty ↔
      Real.logb 2 config.blockgenDifficultyInit < 2 ^ 64 := by
    simp only [HasTarget, fresh, finite.injEq, exists_eq_left', representable_iff,
      and_iff_right hinit]
  rw [← hfresh]
  constructor
  · intro h
    refine ⟨h.head, ?_⟩
    exact (everyState_iff_everyStep
      (fun _ _ _ hda hadjust => hasTarget_adjust_iff hlimit hda hadjust) h.head).mp h
  · rintro ⟨hhead, h⟩
    exact (everyState_iff_everyStep
      (fun _ _ _ hda hadjust => hasTarget_adjust_iff hlimit hda hadjust) hhead).mpr h

end DifficultyAdjuster

/-- A second block that comes four fifths of the expected time after the first. -/
theorem DifficultyAdjuster.everyState_representable_iff_second :
    letI := everyBlockOneZeroBit
    1 ≤ config.blockgenDifficultyInit ∧ 1 ≤ config.blockgenDifficultyAdjustFactorLimit ∧
    (replay [0, 8000]).map DifficultyAdjuster.difficulty = some (finite (5 / 2)) ∧
    EveryState adjust (fun da => HasTarget da.difficulty) fresh [0, 8000] := by
  let env := everyBlockOneZeroBit
  have hinit : 1 ≤ config.blockgenDifficultyInit := by decide +kernel
  have hlimit : 1 ≤ config.blockgenDifficultyAdjustFactorLimit := by decide +kernel
  have hpower : ∀ k : ℕ, k < 2 ^ 64 → Real.logb 2 ((2 ^ k : ℚ) : ℝ) < 2 ^ 64 := by
    intro k hk
    have hlog : Real.logb 2 ((2 ^ k : ℚ) : ℝ) = k := by
      push_cast
      rw [← Real.rpow_natCast, Real.logb_rpow (by norm_num) (by norm_num)]
    rw [hlog]
    exact_mod_cast hk
  have hsecond : KeepsTarget { fresh with counter := 1 } 8000 := by
    refine fun _ => ⟨.inl (by decide), fun d hd => ?_⟩
    cases hd
    refine ⟨.inr (by decide +kernel), .inl ?_⟩
    exact (congrArg (fun q : ℚ => Real.logb 2 q) (by decide +kernel)).trans_lt
      (hpower 5 (by norm_num))
  refine ⟨hinit, hlimit, by decide +kernel,
    (everyState_representable_iff hinit hlimit _).mpr ⟨?_, ?_⟩⟩
  · exact (congrArg (fun q : ℚ => Real.logb 2 q) (by decide +kernel)).trans_lt
      (hpower 1 (by norm_num))
  · have hfirst : fresh.adjust 0 = some { fresh with counter := 1 } := by decide +kernel
    refine EveryStep.cons hfirst (fun hadjusts => absurd rfl hadjusts.1) ?_
    exact fun _ _ => ⟨hsecond, trivial⟩

/-- Ten blocks at once, and the next one after 10 ^ 9 milliseconds instead of
    10 ^ 5: the logarithm of the difficulty is -3, and the count wraps around. -/
theorem DifficultyAdjuster.not_representable_of_slow :
    letI := oneZeroBit
    1 ≤ config.blockgenDifficultyInit ∧ 1 ≤ config.blockgenDifficultyAdjustFactorLimit ∧
    1 ≤ config.blockgenDifficultyAdjustAfter ∧ 0 < config.blockgenTimeExpected ∧
    (replay (List.replicate 10 0 ++ [1000000000])).map DifficultyAdjuster.difficulty =
      some (finite (1 / 8)) ∧
    Real.logb 2 (1 / 8 : ℚ) = -3 ∧ difficultyLog2 (1 / 8) = 2 ^ 64 - 3 ∧
    ¬ HasTarget (finite (1 / 8)) := by
  let env := oneZeroBit
  have hlog : Real.logb 2 ((1 / 8 : ℚ) : ℝ) = -3 := by
    have height : ((1 / 8 : ℚ) : ℝ) = 2 ^ (-3 : ℝ) := by
      rw [Real.rpow_neg (by norm_num)]
      norm_num
    rw [height, Real.logb_rpow (by norm_num) (by norm_num)]
  refine ⟨by decide +kernel, by decide +kernel, by decide, by decide, by decide +kernel, hlog,
    by decide +kernel, ?_⟩
  rintro ⟨d, hd, hrepresentable⟩
  cases hd
  have habove := hrepresentable.above
  rw [hlog] at habove
  norm_num at habove

-- ---------------------------------------------------------------------------
-- Extensions
-- ---------------------------------------------------------------------------

namespace Blockchain

variable {T : Type} [BlockData T] [Env]

/-- A call of `append_next_block` that returns, as a step of a machine. -/
def appendStep (bc : Blockchain T) (call : Block T × TimePoint) : Option (Blockchain T) :=
  match bc.appendNextBlock call.1 call.2 with
  | (.ok (), bc') => some bc'
  | (.error _, _) => none

theorem appendStep_eq_some {bc bc' : Blockchain T} {call : Block T × TimePoint} :
    bc.appendStep call = some bc' ↔ bc.appendNextBlock call.1 call.2 = (.ok (), bc') := by
  unfold appendStep
  split <;> simp_all

/-- Blocks that are accepted keep the adjuster in step. -/
theorem inStep_of_run (hpow : Env.proofOfWork) {calls : List (Block T × TimePoint)}
    {bc : Blockchain T} (hrun : run appendStep new calls = some bc) : bc.InStep := by
  refine (EveryState.of_invariant (P := InStep) ?_ inStep_new).last hrun
  intro bc call bc' hbc hstep
  obtain ⟨e, he, -⟩ | ⟨-, happended⟩ := appendNextBlock_cases (appendStep_eq_some.mp hstep)
  · cases he
  · exact hbc.appended hpow happended

end Blockchain

namespace DifficultyAdjuster

variable [Env]

/-- A list of timestamps, as a sequence. -/
def stamps (timestamps : List TimePoint) (i : ℕ) : TimePoint := timestamps.getD i 0

theorem replay_eq_after {timestamps : List TimePoint} {n : ℕ} (h : timestamps.length = n + 1)
    (later : List TimePoint) : replay timestamps = after (stamps (timestamps ++ later)) n := by
  have hmap : (List.range (n + 1)).map (stamps (timestamps ++ later)) = timestamps := by
    apply List.ext_getElem
    · simp [h]
    · intro i _ hi
      simp [stamps, List.getD_eq_getElem?_getD, List.getElem?_append_left hi,
        List.getElem?_eq_getElem hi]
  rw [after, hmap]

/-- What the factors up to the `m`-th adjustment amount to can be cast to a
    `std::size_t` before and after it, and reaches the next integer. None of them
    divides zero by zero or multiplies by infinity. -/
def PassesInteger (t : ℕ → TimePoint) (m : ℕ) : Prop :=
  let before := ∑ k ∈ Finset.Icc 1 (m - 1), productAt t k
  let added := productAt t m
  config.blockgenDifficultyAdjustFactorLimit ≠ 0 ∧ (∀ k, 1 ≤ k → k ≤ m → DividesAt t k) ∧
    -1 < before ∧ (⌊before⌋₊ : ℚ) + 1 ≤ before + added ∧ before + added < 2 ^ 64

/-- With the limit zero a difficulty that is finite is zero, from the first
    adjustment on. -/
theorem difficultyAt_of_limit_zero (hlimit : config.blockgenDifficultyAdjustFactorLimit = 0)
    {t : ℕ → TimePoint} {m : ℕ} {d : ℚ} (hdivides : DividesAt t (m + 1))
    (h : difficultyAt t (m + 1) = finite d) : d = 0 := by
  have hfactor := adjustFactor_limit_zero hdivides
  rw [difficultyAt, factorAt, hlimit, hfactor] at h
  generalize difficultyAt t m = x at h
  split_ifs at h
  · cases x with
    | nan => cases h
    | infinite n =>
      rw [infinite_mul_finite, if_pos rfl] at h
      cases h
    | finite q =>
      rw [finite_mul_finite, mul_zero] at h
      exact (finite.inj h).symm
  · cases x with
    | nan => cases h
    | infinite n => cases h
    | finite q =>
      rw [finite_mul_infinite] at h
      split_ifs at h

/-- The cumulative difficulty, as it is compared, grows with an adjustment. -/
theorem cumulativeAt_lt_iff (t : ℕ → TimePoint) (m : ℕ) :
    (∃ k k', (cumulativeAt t (m + 1)).toUInt64? = some k ∧
        (cumulativeAt t m).toUInt64? = some k' ∧ k' < k) ↔ PassesInteger t (m + 1) := by
  by_cases hdivides : ∀ k, 1 ≤ k → k ≤ m + 1 → DividesAt t k
  · by_cases hlimit : config.blockgenDifficultyAdjustFactorLimit = 0
    · refine iff_of_false ?_ fun h => h.1 hlimit
      rintro ⟨k, k', hk, hk', hlt⟩
      obtain ⟨q, hq⟩ := exists_of_toUInt64?_eq_some hk
      obtain ⟨q', hq'⟩ := exists_of_toUInt64?_eq_some hk'
      have hsum := hq
      rw [cumulativeAt, hq'] at hsum
      obtain ⟨_, d, -, hd, -⟩ := exists_of_add_eq_finite hsum
      rw [hd, finite_add_finite, difficultyAt_of_limit_zero hlimit
        (hdivides _ (Nat.le_add_left 1 m) (le_refl _)) hd, add_zero] at hsum
      rw [hq, ← hsum, ← hq', hk', Option.some.injEq] at hk
      exact absurd hk hlt.ne
    · have hbefore := cumulativeAt_eq_sum hlimit (t := t) (m := m)
        fun k hone hk => hdivides k hone (Nat.le_succ_of_le hk)
      have hafter := cumulativeAt_eq_sum hlimit hdivides
      rw [Finset.sum_Icc_succ_top (Nat.le_add_left 1 m)] at hafter
      simp only [PassesInteger, hbefore, hafter, toUInt64?_finite_eq_some, Nat.add_sub_cancel]
      generalize ∑ k ∈ Finset.Icc 1 m, productAt t k = before
      generalize productAt t (m + 1) = added
      have hfloor : ⌊before⌋₊ < ⌊before + added⌋₊ ↔ (⌊before⌋₊ : ℚ) + 1 ≤ before + added := by
        rw [← Nat.succ_le_iff, Nat.le_floor_iff' (Nat.succ_ne_zero _), Nat.cast_succ]
      constructor
      · rintro ⟨k, k', ⟨⟨-, hbelow⟩, rfl⟩, ⟨⟨habove, -⟩, rfl⟩, hlt⟩
        exact ⟨hlimit, hdivides, habove, hfloor.mp hlt, hbelow⟩
      · rintro ⟨-, -, habove, hnext, hbelow⟩
        have hlt : before < ⌊before⌋₊ + 1 := Nat.lt_floor_add_one before
        have hnonneg : (0 : ℚ) ≤ ⌊before⌋₊ := Nat.cast_nonneg _
        exact ⟨_, _, ⟨⟨by linarith, hbelow⟩, rfl⟩, ⟨⟨habove, by linarith⟩, rfl⟩, hfloor.mpr hnext⟩
  · refine iff_of_false ?_ fun h => hdivides h.2.1
    rintro ⟨k, k', hk, -⟩
    obtain ⟨i, hone, hi, hzero⟩ : ∃ i, 1 ≤ i ∧ i ≤ m + 1 ∧ ¬ DividesAt t i := by
      simpa only [not_forall, exists_prop] using hdivides
    rw [(at_eq_nan hone hi hzero).2] at hk
    cases hk

end DifficultyAdjuster

namespace Blockchain

variable {T : Type} [BlockData T] [Env]

/-- A chain outweighs the one that it extends exactly if the block that was added
    is the one of an adjustment, and that takes the cumulative difficulty, which the
    stored timestamps and the configuration determine, past an integer. -/
theorem key_lt_key_iff (hpow : Env.proofOfWork) {calls : List (Block T × TimePoint)}
    {bc bc' : Blockchain T} {b : Block T} {now : TimePoint}
    (hrun : run appendStep new calls = some bc)
    (hcall : bc.appendNextBlock b now = (.ok (), bc')) :
    bc'.exceeds bc = some true ↔
      (bc.length ≠ 0 ∧ bc.length % period = 0) ∧
      PassesInteger (stamps (bc.timestamps ++ [b.timestamp])) (bc.length / period) := by
  have hinStep := inStep_of_run hpow hrun
  obtain ⟨e, he, -⟩ | ⟨-, happended⟩ := appendNextBlock_cases hcall
  · cases he
  have hinStep' := hinStep.appended hpow happended
  have hadjuster := happended.adjuster
  rw [if_pos hpow] at hadjuster
  have hlength : bc.timestamps.length = bc.length := List.length_map ..
  have hcompared : bc'.exceeds bc = some true ↔
      ∃ k k', bc'.difficultyAdjuster.cumulativeDifficulty.toUInt64? = some k ∧
        bc.difficultyAdjuster.cumulativeDifficulty.toUInt64? = some k' ∧ k' < k := by
    rw [exceeds_eq_some_true]
    simp only [key, hpow, if_true, cumulativeDifficulty]
  rw [hcompared]
  obtain hzero | ⟨n, hn⟩ : bc.length = 0 ∨ ∃ n, bc.length = n + 1 := by
    cases bc.length with
    | zero => exact .inl rfl
    | succ n => exact .inr ⟨n, rfl⟩
  · have hkept := (adjust_difficulty_of_not_adjusts
      (fun hadjusts => hadjusts.1 (hinStep.counter_eq.trans hzero)) hadjuster).2
    rw [hkept]
    exact iff_of_false (not_toUInt64?_lt_self _) fun h => h.1.1 hzero
  · have hperiod : period ≠ 0 := by
      intro hperiod
      have hcounter : bc.difficultyAdjuster.counter ≠ 0 := by
        rw [hinStep.counter_eq, hn]
        exact Nat.succ_ne_zero n
      rw [adjust_of_period_eq_zero hperiod hcounter] at hadjuster
      cases hadjuster
    -- the adjusters before and after, from one sequence of timestamps
    have hbefore := replay_eq_after (hlength.trans hn) [b.timestamp]
    have hstamps := timestamps_concat happended.blocks
    have hafter : replay (bc.timestamps ++ [b.timestamp]) = after _ (n + 1) :=
      replay_eq_after (by rw [List.length_append, hlength, hn, List.length_singleton]) []
    rw [List.append_nil] at hafter
    unfold InStep at hinStep hinStep'
    rw [hinStep, after_eq hperiod, Option.some.injEq] at hbefore
    rw [← hstamps, hinStep', after_eq hperiod, Option.some.injEq, hstamps] at hafter
    rw [hbefore, hafter, hn]
    dsimp only
    by_cases hdvd : period ∣ n + 1
    · have hquot : (n + 1) / period = n / period + 1 := by
        rw [Nat.succ_div, if_pos hdvd]
      rw [hquot, cumulativeAt_lt_iff]
      exact (and_iff_right ⟨Nat.succ_ne_zero n, Nat.mod_eq_zero_of_dvd hdvd⟩).symm
    · have hquot : (n + 1) / period = n / period := by
        rw [Nat.succ_div, if_neg hdvd]
        rfl
      rw [hquot]
      exact iff_of_false (not_toUInt64?_lt_self _) fun h => hdvd (Nat.dvd_of_mod_eq_zero h.1.2)

end Blockchain

/-- A second block that comes after twice the expected time is followed by an
    adjustment, and counts one. -/
theorem Blockchain.key_lt_key_iff_slowTexts :
    letI := everyBlockOneZeroBit
    let first : Block Text := Block.first ⟨"first"⟩ 0
    let second : Block Text := Block.next ⟨"second"⟩ first 20000
    ∃ bc bc', Env.proofOfWork ∧ run appendStep new [(first, 0)] = some bc ∧
      bc.appendNextBlock second 0 = (.ok (), bc') ∧ bc.key = some 0 ∧ bc'.key = some 1 ∧
      (bc'.exceeds bc = some true ↔
        (bc.length ≠ 0 ∧ bc.length % period = 0) ∧
        PassesInteger (stamps (bc.timestamps ++ [second.timestamp])) (bc.length / period)) := by
  let env := everyBlockOneZeroBit
  intro first second
  let bc : Blockchain Text := ⟨[first], { fresh with counter := 1 }⟩
  let bc' : Blockchain Text := ⟨[first, second], ⟨finite 1, finite 1, 2, 20000⟩⟩
  have hfirst : first.valid 0 = .ok () := by
    exact Block.valid_eq_ok.mpr ⟨rfl, (by decide : (0 : TimePoint) - 60000 < 0), rfl⟩
  have hsecond : second.valid 0 = .ok () := by
    exact Block.valid_eq_ok.mpr ⟨rfl, (by decide : (20000 : TimePoint) - 60000 < 0), rfl⟩
  have hroom : ∀ n, n < 2 → n < Env.maxSize := fun n hn => hn.trans (by decide)
  have hrun : run appendStep new [(first, 0)] = some bc := by
    have hcall : new.appendNextBlock first 0 = (.ok (), bc) :=
      appendNextBlock_of_work rfl ⟨rfl, rfl⟩ hfirst (by decide +kernel) (by decide +kernel)
        (hroom 0 (by decide))
    rw [run, appendStep_eq_some.mpr hcall]
    rfl
  have hcall : bc.appendNextBlock second 0 = (.ok (), bc') :=
    appendNextBlock_of_work rfl ⟨rfl, rfl⟩ hsecond (by decide +kernel) (by decide +kernel)
      (hroom 1 (by decide))
  exact ⟨bc, bc', rfl, hrun, hcall, by decide +kernel, by decide +kernel,
    key_lt_key_iff rfl hrun hcall⟩

/-- One block weighs as little as none. -/
theorem Blockchain.not_key_lt_key_of_first :
    letI := oneZeroBit
    ∃ bc' : Blockchain Text,
      new.appendNextBlock (Block.first ⟨"first"⟩ 0) 0 = (.ok (), bc') ∧
      bc'.length = 1 ∧ (new : Blockchain Text).key = some 0 ∧ bc'.key = some 0 ∧
      bc'.exceeds new = some false := by
  let env := oneZeroBit
  let first : Block Text := Block.first ⟨"first"⟩ 0
  have hvalid : first.valid 0 = .ok () := by
    exact Block.valid_eq_ok.mpr ⟨rfl, (by decide : (0 : TimePoint) - 60000 < 0), rfl⟩
  have hcall : new.appendNextBlock first 0 = (.ok (), ⟨[first], { fresh with counter := 1 }⟩) :=
    appendNextBlock_of_work rfl ⟨rfl, rfl⟩ hvalid (by decide +kernel) (by decide +kernel)
      (by decide : 0 < 2 ^ 32)
  exact ⟨_, hcall, rfl, by decide +kernel, by decide +kernel, by decide +kernel⟩

end BuenzliCoin
