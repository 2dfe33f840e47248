-- SUMMARY: Proof of work: miner against verifier, on the target of one block and on the history of difficulties.
import BuenzliCoin.Chain.Text
import BuenzliCoin.Lib.Runs

/-!
# Proof of work

The difficulty of a block is that of the adjuster after the timestamps of all
blocks up to and with this one. The verifier feeds the adjuster the timestamps
that the blocks store, and compares `2 ^ zero_prefix_length` to the difficulty.
The miner feeds it the timestamps at which blocks are constructed, and compares
`zero_prefix_length` to the truncated logarithm of the difficulty.
-/

namespace BuenzliCoin

open DifficultyAdjuster Runs

namespace Blockchain

variable {T : Type} [BlockData T] [Env]

omit [BlockData T] [Env] in
def timestamps (bc : Blockchain T) : List TimePoint := bc.blocks.map Block.timestamp

omit [BlockData T] in
/-- The adjuster of the chain is the one that its stored timestamps give. -/
def InStep (bc : Blockchain T) : Prop := replay bc.timestamps = some bc.difficultyAdjuster

omit [BlockData T] in
theorem inStep_new : (new : Blockchain T).InStep := rfl

-- ---------------------------------------------------------------------------
-- Verifier
-- ---------------------------------------------------------------------------

/-- What a verifier has established about a chain. -/
structure Worked (bc : Blockchain T) : Prop where
  hash : ∀ b ∈ bc.blocks, b.hash = b.determineHash
  work : ∀ i (hi : i < bc.blocks.length), ∃ da, replay (bc.timestamps.take (i + 1)) = some da ∧
    ¬ .finite bc.blocks[i].maxDifficulty < da.difficulty
  inStep : bc.InStep

theorem worked_new : (new : Blockchain T).Worked where
  hash b hb := by cases hb
  work i hi := absurd hi (Nat.not_lt_zero i)
  inStep := inStep_new

omit [BlockData T] [Env] in
theorem timestamps_concat {bc bc' : Blockchain T} {b : Block T}
    (h : bc'.blocks = bc.blocks ++ [b]) : bc'.timestamps = bc.timestamps ++ [b.timestamp] := by
  simp [timestamps, h]

theorem InStep.appended {bc bc' : Blockchain T} {b : Block T} {now : TimePoint}
    (hpow : Env.proofOfWork) (hbc : bc.InStep) (h : Appended bc b now bc') : bc'.InStep := by
  have hadjuster := h.adjuster
  rw [if_pos hpow] at hadjuster
  rw [InStep, timestamps_concat h.blocks, replay_concat, hbc, Option.bind_some, hadjuster]

theorem Worked.appended {bc bc' : Blockchain T} {b : Block T} {now : TimePoint}
    (hpow : Env.proofOfWork) (hbc : bc.Worked) (h : Appended bc b now bc') : bc'.Worked := by
  have hstamps := timestamps_concat h.blocks
  have hlength : bc.timestamps.length = bc.blocks.length := List.length_map ..
  have hinStep : bc'.InStep := hbc.inStep.appended hpow h
  refine ⟨?_, ?_, hinStep⟩
  · intro b' hb'
    rw [h.blocks, List.mem_append, List.mem_singleton] at hb'
    rcases hb' with hb' | rfl
    · exact hbc.hash b' hb'
    · exact h.hash
  · intro i hi
    have hbound : i < bc.blocks.length + 1 := by simpa [h.blocks] using hi
    rcases Nat.lt_succ_iff_lt_or_eq.mp hbound with hold | rfl
    · have hget : bc'.blocks[i] = bc.blocks[i] := by simp [h.blocks, List.getElem_append_left hold]
      rw [hget, hstamps, List.take_append_of_le_length (by omega)]
      exact hbc.work i hold
    · have hget : bc'.blocks[bc.blocks.length] = b := by simp [h.blocks]
      have hall : bc'.timestamps.take (bc.blocks.length + 1) = bc'.timestamps := by
        apply List.take_of_length_le
        rw [hstamps, List.length_append, hlength]
        rfl
      rw [hget, hall]
      exact ⟨_, hinStep, h.work hpow⟩

/-- A call of `append_next_block` in a build with `PROOF_OF_WORK`, when all goes well. -/
theorem appendNextBlock_of_work {bc : Blockchain T} {b : Block T} {now : TimePoint}
    {da : DifficultyAdjuster} (hpow : Env.proofOfWork) (hlinks : Links bc.latestBlock? b)
    (hvalid : b.valid now = .ok ()) (hadjust : bc.difficultyAdjuster.adjust b.timestamp = some da)
    (hwork : ¬ .finite b.maxDifficulty < da.difficulty) (hroom : bc.blocks.length < Env.maxSize) :
    bc.appendNextBlock b now = (.ok (), ⟨bc.blocks ++ [b], da⟩) := by
  have hcheck := checkNextBlock_eq_ok.mpr ⟨hlinks, hvalid⟩
  have hadjusted : bc.adjust b.timestamp = some { bc with difficultyAdjuster := da } :=
    adjust_eq_some.mpr ⟨da, hadjust, rfl⟩
  simp only [appendNextBlock, hcheck, hpow, if_true, hadjusted, if_neg hwork, emplaceBack,
    if_pos hroom]

/-- What appending blocks one after the other asks of their links and their work, from
    a last block and an adjuster on; `da'` is where the adjuster ends. -/
def WorkedFrom (prev : Option (Block T)) (da : DifficultyAdjuster) :
    List (Block T) → DifficultyAdjuster → Prop
  | [], da' => da' = da
  | b :: bs, da' => Links prev b ∧
    ∃ next, da.adjust b.timestamp = some next ∧ ¬ .finite b.maxDifficulty < next.difficulty ∧
      WorkedFrom (some b) next bs da'

/-- The JSON form of such blocks is appended. -/
theorem appendAll_of_workedFrom {start : Blockchain T} {bs : List (Block T)} {clock : Clock}
    {da : DifficultyAdjuster} (hpow : Env.proofOfWork)
    (hread : ∀ b ∈ bs, Block.fromJson b.toJson = .ok b)
    (hvalid : ∀ b ∈ bs, ∀ i, b.valid (clock i) = .ok ())
    (hworked : WorkedFrom start.latestBlock? start.difficultyAdjuster bs da)
    (hroom : start.blocks.length + bs.length ≤ Env.maxSize) :
    appendAll start (bs.map Block.toJson) clock = .ok ⟨start.blocks ++ bs, da⟩ := by
  induction bs generalizing start clock with
  | nil =>
    cases hworked
    rw [List.append_nil]
    rfl
  | cons b bs ih =>
    rw [List.length_cons] at hroom
    obtain ⟨hb, hbs⟩ := List.forall_mem_cons.mp hvalid
    obtain ⟨hreadb, hreadbs⟩ := List.forall_mem_cons.mp hread
    obtain ⟨hlinks, next, hadjust, hwork, hrest⟩ := hworked
    have hnext := appendNextBlock_of_work hpow hlinks (hb 0) hadjust hwork (by omega)
    have hlatest : latestBlock? (T := T) ⟨start.blocks ++ [b], next⟩ = some b :=
      List.getLast?_concat
    have hlater : appendAll ⟨start.blocks ++ [b], next⟩ (bs.map Block.toJson) (clock.drop 1) =
        .ok ⟨start.blocks ++ [b] ++ bs, da⟩ := by
      refine ih hreadbs (fun b' hb' i => hbs b' hb' (1 + i)) (hlatest ▸ hrest) ?_
      simp only [List.length_append, List.length_singleton]
      omega
    rw [List.append_assoc, List.singleton_append] at hlater
    exact appendAll_cons_eq_ok.mpr ⟨b, _, hreadb, hnext, hlater⟩

theorem fromJson_of_workedFrom {bs : List (Block T)} {clock : Clock} {da : DifficultyAdjuster}
    (hpow : Env.proofOfWork) (hread : ∀ b ∈ bs, Block.fromJson b.toJson = .ok b)
    (hvalid : ∀ b ∈ bs, ∀ i, b.valid (clock i) = .ok ()) (hworked : WorkedFrom none fresh bs da)
    (hroom : bs.length ≤ Env.maxSize) :
    fromJson (.array (bs.map Block.toJson)) clock = .ok ⟨bs, da⟩ := by
  have happended : appendAll new (bs.map Block.toJson) clock = .ok ⟨new.blocks ++ bs, da⟩ := by
    refine appendAll_of_workedFrom hpow hread hvalid hworked ?_
    rwa [new_blocks, List.length_nil, Nat.zero_add]
  exact happended

/-- Every chain that `from_json` accepts has no less work than its own timestamps
    ask for, as far as that is a number. -/
theorem fromJson_worked {j : Json} {clock : Clock} {bc : Blockchain T} (hpow : Env.proofOfWork)
    (h : fromJson j clock = .ok bc) : bc.Worked :=
  fromJson_induction h worked_new fun _ _ _ _ hbc hstep => hbc.appended hpow hstep

/-- `from_json` decodes the blocks of an array. It returns only if each of them
    hashes to what it says, and its adjuster is the one of the stored timestamps;
    but each block has the work that the difficulty at its place asks for exactly
    if no call of `adjust` has made that difficulty no number. -/
theorem fromJson_sound_iff {js : List Json} {clock : Clock} {bc : Blockchain T}
    (hpow : Env.proofOfWork) (h : fromJson (.array js) clock = .ok bc) :
    (js.mapM Block.fromJson = .ok bc.blocks ∧
      (∀ i (hi : i < bc.blocks.length),
        bc.blocks[i].hash = bc.blocks[i].determineHash ∧
        ∃ da, replay (bc.timestamps.take (i + 1)) = some da ∧
          da.difficulty ≤ .finite (2 ^ bc.blocks[i].hash.zeroPrefixLength)) ∧
      replay bc.timestamps = some bc.difficultyAdjuster) ↔
    EveryStep DifficultyAdjuster.adjust KeepsNumber fresh bc.timestamps := by
  have hworked := fromJson_worked hpow h
  have hlength : bc.timestamps.length = bc.blocks.length := List.length_map ..
  rw [← forall_difficulty_ne_nan_iff, hlength]
  constructor
  · rintro ⟨-, hwork, -⟩ i hi da hreplay hnan
    obtain ⟨-, da', hreplay', hle⟩ := hwork i hi
    rw [hreplay, Option.some.injEq] at hreplay'
    rw [← hreplay', hnan] at hle
    exact ExactDouble.not_nan_le _ hle
  · intro hnumbers
    refine ⟨fromJson_blocks h, ?_, hworked.inStep⟩
    intro i hi
    obtain ⟨da, hreplay, hwork⟩ := hworked.work i hi
    refine ⟨hworked.hash _ (List.getElem_mem hi), da, hreplay, ?_⟩
    exact (ExactDouble.not_lt_iff (by simp) (hnumbers i hi _ hreplay)).mp hwork

end Blockchain

/-- A `PROOF_OF_WORK` build with a hasher all of whose digests have one leading
    zero bit. -/
abbrev oneZeroBit : Env := Env.withHash true fun _ => Digest.withZeroPrefix 1

/-- The same, with an adjustment for every block. -/
abbrev everyBlockOneZeroBit : Env :=
  { oneZeroBit with config := { blockgenDifficultyAdjustAfter := 1 } }

/-- The second block comes after twice the time that is expected. -/
def slowTexts : List (Block Text) :=
  letI := everyBlockOneZeroBit
  [Block.first ⟨"first"⟩ 0, Block.next ⟨"second"⟩ (Block.first ⟨"first"⟩ 0) 20000]

theorem Blockchain.fromJson_sound_iff_slowTexts :
    letI := everyBlockOneZeroBit
    ∃ bc : Blockchain Text,
      fromJson (.array (slowTexts.map Block.toJson)) Clock.epoch = .ok bc ∧
      bc.blocks.length = 2 ∧ bc.difficultyAdjuster.difficulty = .finite 1 ∧
      (slowTexts.map Block.toJson).mapM Block.fromJson = .ok bc.blocks ∧
      (∀ i (hi : i < bc.blocks.length),
        bc.blocks[i].hash = bc.blocks[i].determineHash ∧
        ∃ da, replay (bc.timestamps.take (i + 1)) = some da ∧
          da.difficulty ≤ .finite (2 ^ bc.blocks[i].hash.zeroPrefixLength)) ∧
      replay bc.timestamps = some bc.difficultyAdjuster := by
  let env := everyBlockOneZeroBit
  let da : DifficultyAdjuster :=
    { difficulty := .finite 1, cumulativeDifficulty := .finite 1, counter := 2, timestamp := 20000 }
  have haccepted : fromJson (.array (slowTexts.map Block.toJson)) Clock.epoch =
      .ok (⟨slowTexts, da⟩ : Blockchain Text) := by
    refine fromJson_of_workedFrom rfl (fun b _ => b.fromJson_toJson) ?_ ?_ (by decide)
    · simp only [slowTexts, List.forall_mem_cons]
      have htime : (0 : TimePoint) - 60000 < 0 := by decide
      have htime' : (20000 : TimePoint) - 60000 < 0 := by decide
      exact ⟨fun _ => Block.valid_eq_ok.mpr ⟨rfl, htime, rfl⟩,
        fun _ => Block.valid_eq_ok.mpr ⟨rfl, htime', rfl⟩, List.forall_mem_nil _⟩
    · exact ⟨⟨rfl, rfl⟩, { fresh with counter := 1 }, by decide +kernel, by decide +kernel,
        ⟨rfl, rfl⟩, da, by decide +kernel, by decide +kernel, rfl⟩
  have hkeeps : ∀ da t, KeepsNumber da t :=
    keepsNumber_of_ne_zero (by decide +kernel) (by decide +kernel)
  exact ⟨_, haccepted, rfl, rfl, (fromJson_sound_iff rfl haccepted).mpr
    fun _ _ => ⟨hkeeps _ _, fun _ _ => ⟨hkeeps _ _, trivial⟩⟩⟩

/-- A block is expected every 2 ^ 62 milliseconds, and four of them make a period,
    which lasts 2 ^ 64 milliseconds and is counted as none. -/
abbrev longPeriodsOneZeroBit : Env :=
  { oneZeroBit with
    config := { blockgenTimeExpected := 4611686018427387904, blockgenDifficultyAdjustAfter := 4 } }

/-- Five blocks of the same time, each linked to the one before it. -/
def fiveTexts : List (Block Text) :=
  letI := longPeriodsOneZeroBit
  let b₀ := Block.first (⟨"text"⟩ : Text) 0
  let b₁ := Block.next ⟨"text"⟩ b₀ 0
  let b₂ := Block.next ⟨"text"⟩ b₁ 0
  let b₃ := Block.next ⟨"text"⟩ b₂ 0
  [b₀, b₁, b₂, b₃, Block.next ⟨"text"⟩ b₃ 0]

/-- The fifth block divides zero by zero, and is accepted whatever its work. -/
theorem Blockchain.not_fromJson_sound_fiveTexts :
    letI := longPeriodsOneZeroBit
    ∃ bc : Blockchain Text,
      fromJson (.array (fiveTexts.map Block.toJson)) Clock.epoch = .ok bc ∧
      bc.difficultyAdjuster.difficulty = .nan ∧
      ¬ ((fiveTexts.map Block.toJson).mapM Block.fromJson = .ok bc.blocks ∧
        (∀ i (hi : i < bc.blocks.length),
          bc.blocks[i].hash = bc.blocks[i].determineHash ∧
          ∃ da, replay (bc.timestamps.take (i + 1)) = some da ∧
            da.difficulty ≤ .finite (2 ^ bc.blocks[i].hash.zeroPrefixLength)) ∧
        replay bc.timestamps = some bc.difficultyAdjuster) := by
  let env := longPeriodsOneZeroBit
  let da : DifficultyAdjuster :=
    { difficulty := .nan, cumulativeDifficulty := .nan, counter := 5, timestamp := 0 }
  have haccepted : fromJson (.array (fiveTexts.map Block.toJson)) Clock.epoch =
      .ok (⟨fiveTexts, da⟩ : Blockchain Text) := by
    refine fromJson_of_workedFrom rfl (fun b _ => b.fromJson_toJson) ?_ ?_ (by decide)
    · simp only [fiveTexts, List.forall_mem_cons]
      have hvalid : ∀ b : Block Text, b.timestamp = 0 → b.hash = b.determineHash →
          ∀ i, b.valid (Clock.epoch i) = .ok () := by
        intro b htime hhash i
        refine Block.valid_eq_ok.mpr ⟨rfl, ?_, hhash⟩
        rw [htime]
        exact (by decide : (0 : TimePoint) - 60000 < 0)
      exact ⟨hvalid _ rfl rfl, hvalid _ rfl rfl, hvalid _ rfl rfl, hvalid _ rfl rfl,
        hvalid _ rfl rfl, List.forall_mem_nil _⟩
    · have hkept : ∀ n, n < 4 → ({ fresh with counter := n } : DifficultyAdjuster).adjust 0 =
          some { fresh with counter := n + 1 } := by decide +kernel
      have hwork : ¬ ExactDouble.finite (2 ^ 1) < .finite 2 := by decide +kernel
      exact ⟨⟨rfl, rfl⟩, _, hkept 0 (by decide), hwork, ⟨rfl, rfl⟩, _, hkept 1 (by decide), hwork,
        ⟨rfl, rfl⟩, _, hkept 2 (by decide), hwork, ⟨rfl, rfl⟩, _, hkept 3 (by decide), hwork,
        ⟨rfl, rfl⟩, da, by decide +kernel, ExactDouble.not_lt_nan _, rfl⟩
  refine ⟨_, haccepted, rfl, ?_⟩
  rintro ⟨-, hwork, -⟩
  obtain ⟨-, da', hreplay, hle⟩ := hwork 4 (by decide)
  have hlast : replay [0, 0, 0, 0, 0] = some da := by decide +kernel
  cases hreplay.symm.trans hlast
  exact ExactDouble.not_nan_le _ hle

-- ---------------------------------------------------------------------------
-- Miner
-- ---------------------------------------------------------------------------

namespace Blockchain

variable {T : Type} [BlockData T] [Env]

/-- A call of `construct_next_block`, with what it finds on the clock and how
    many rounds of its loop are followed. -/
structure ConstructCall (T : Type) where
  data : T
  clock : Clock
  fuel : Nat

/-- The chain that a call leaves, whether it returns or throws. -/
def afterCall (bc : Blockchain T) (call : ConstructCall T) : Option (Blockchain T) :=
  (bc.constructNextBlock call.data call.clock call.fuel).map Prod.snd

/-- A call whose candidate is valid keeps time if the vector has room and, where
    the adjuster reads the timestamp, the clock still shows the time of
    construction in the round of the loop that exits. -/
def KeepsTime (bc : Blockchain T) (call : ConstructCall T) : Prop :=
  let candidate := bc.nextBlock call.data (call.clock 0)
  candidate.valid (call.clock 1) = .ok () →
    bc.length < Env.maxSize ∧
    (bc.length % config.blockgenDifficultyAdjustAfter.toNat = 0 →
      ∀ da target, bc.difficultyAdjuster.adjust (call.clock 0) = some da →
        difficultyTarget da.difficulty = some target →
        ∀ i, candidate.ExitsAt target (call.clock.drop 2) i → call.clock (2 + i) = call.clock 0)

omit [BlockData T] in
theorem InStep.counter_eq {bc : Blockchain T} (h : bc.InStep) :
    bc.difficultyAdjuster.counter = bc.length :=
  (replay_counter h).trans (List.length_map ..)

omit [BlockData T] in
theorem InStep.atBoundary_iff {bc : Blockchain T} (h : bc.InStep) :
    bc.difficultyAdjuster.AtBoundary ↔
      bc.length % config.blockgenDifficultyAdjustAfter.toNat = 0 := by
  rw [AtBoundary, h.counter_eq]
  rfl

omit [BlockData T] in
/-- The adjuster has counted a block that was never added. -/
theorem InStep.not_inStep_adjust {bc bc' : Blockchain T} {t : TimePoint} (h : bc.InStep)
    (hadjust : bc.adjust t = some bc') : ¬ bc'.InStep := by
  intro hinStep
  obtain ⟨da, hda, rfl⟩ := adjust_eq_some.mp hadjust
  have hcounter : da.counter = bc.length := hinStep.counter_eq
  rw [adjust_counter hda, h.counter_eq] at hcounter
  exact Nat.succ_ne_self _ hcounter

/-- One call of a miner that is in step. -/
theorem InStep.afterCall_iff {bc bc' : Blockchain T} {call : ConstructCall T}
    (hpow : Env.proofOfWork) (h : bc.InStep) (hcall : bc.afterCall call = some bc') :
    bc'.InStep ↔ KeepsTime bc call := by
  obtain ⟨⟨r, bc''⟩, hconstruct, rfl⟩ := Option.map_eq_some_iff.mp hcall
  obtain ⟨e, -, rfl, hinvalid⟩ | ⟨e, -, hvalid, hfull, hadjust⟩ | ⟨-, b, hstep⟩ :=
    constructNextBlock_cases hconstruct
  · exact ⟨fun _ hvalid => absurd hvalid hinvalid, fun _ => h⟩
  · rw [if_pos hpow] at hadjust
    exact ⟨fun hinStep => absurd hinStep (h.not_inStep_adjust hadjust),
      fun hkeeps => absurd (hkeeps hvalid).1 hfull⟩
  · have hadjuster := hstep.adjuster
    have hmined := hstep.block
    rw [if_pos hpow] at hadjuster hmined
    obtain ⟨target, htarget, i, hexit, hb⟩ := hmined
    have hstamp : b.timestamp = call.clock (2 + i) := by
      rw [hb]
      rfl
    have hreplay : replay bc''.timestamps = bc.difficultyAdjuster.adjust b.timestamp := by
      rw [timestamps_concat hstep.blocks, replay_concat, h, Option.bind_some]
    rw [InStep, hreplay, adjust_eq_adjust_iff hadjuster, hstamp, h.atBoundary_iff]
    constructor
    · intro hstill _
      refine ⟨hstep.room, fun hboundary da target' hda htarget' j hj => ?_⟩
      rw [hadjuster, Option.some.injEq] at hda
      rw [← hda, htarget, Option.some.injEq] at htarget'
      rw [← htarget'] at hj
      rw [hj.unique hexit]
      exact (hstill hboundary).symm
    · intro hkeeps hboundary
      exact ((hkeeps hstep.valid).2 hboundary _ _ hadjuster htarget i hexit).symm

/-- A miner that starts with an empty chain stays in step with the verifiers of
    its blocks throughout exactly if all of its calls keep time. -/
theorem everyState_inStep_iff (hpow : Env.proofOfWork) (calls : List (ConstructCall T)) :
    EveryState afterCall InStep new calls ↔ EveryStep afterCall KeepsTime new calls :=
  everyState_iff_everyStep (fun _ _ _ h hcall => h.afterCall_iff hpow hcall) inStep_new

/-- A block whose links and fields `append_next_block` accepts keeps count if, unless
    the adjuster traps, it is accepted altogether: the vector has room, and the work
    is not below the difficulty. -/
def KeepsCount (bc : Blockchain T) (b : Block T) (now : TimePoint) : Prop :=
  bc.checkNextBlock b now = .ok () →
    ∀ da, bc.difficultyAdjuster.adjust b.timestamp = some da →
      bc.length < Env.maxSize ∧ ¬ .finite b.maxDifficulty < da.difficulty

/-- One block that is offered to a chain that is in step. -/
theorem InStep.appendNextBlock_iff {bc bc' : Blockchain T} {b : Block T} {now : TimePoint}
    {r : Except Error Unit} (hpow : Env.proofOfWork) (h : bc.InStep)
    (hcall : bc.appendNextBlock b now = (r, bc')) : bc'.InStep ↔ KeepsCount bc b now := by
  unfold KeepsCount
  simp only [appendNextBlock] at hcall
  cases hcheck : bc.checkNextBlock b now with
  | error e =>
    rw [hcheck] at hcall
    cases hcall
    exact ⟨fun _ hok => (by cases hok), fun _ => h⟩
  | ok _ =>
    rw [hcheck] at hcall
    simp only [hpow, if_true, forall_true_left] at hcall ⊢
    cases hadjust : bc.adjust b.timestamp with
    | none =>
      rw [hadjust] at hcall
      cases hcall
      refine iff_of_true h fun da hda => ?_
      rw [adjust_eq_some.mpr ⟨da, hda, rfl⟩] at hadjust
      cases hadjust
    | some bc₁ =>
      rw [hadjust] at hcall
      have hmoved := h.not_inStep_adjust hadjust
      obtain ⟨da, hda, rfl⟩ := adjust_eq_some.mp hadjust
      simp only [hda, Option.some.injEq, forall_eq'] at hcall ⊢
      split_ifs at hcall with hwork
      · cases hcall
        exact iff_of_false hmoved fun hkeeps => hkeeps.2 hwork
      · obtain ⟨e, -, rfl, hfull⟩ | ⟨-, rfl, hroom⟩ := emplaceBack_cases hcall
        · exact iff_of_false hmoved fun hkeeps => hfull hkeeps.1
        · refine iff_of_true ?_ ⟨hroom, hwork⟩
          have hstamps :
              timestamps { bc with blocks := bc.blocks ++ [b], difficultyAdjuster := da } =
                bc.timestamps ++ [b.timestamp] := timestamps_concat rfl
          unfold InStep
          rw [hstamps, replay_concat, h, Option.bind_some, hda]

end Blockchain

theorem Blockchain.everyState_inStep_standing_clock :
    letI := oneZeroBit
    EveryState afterCall InStep (new : Blockchain Text)
      [⟨⟨"first"⟩, Clock.epoch, 1⟩] := by
  let env := oneZeroBit
  apply (everyState_inStep_iff rfl _).mpr
  intro bc' _
  exact ⟨fun _ => ⟨by decide, fun _ _ _ _ _ _ _ => rfl⟩, trivial⟩

/-- Three readings of zero, and one millisecond from then on. -/
def lateTick : Clock where
  reading n := if n < 2 then 0 else 1
  sinceEpoch n := by split <;> decide

/-- A miner on whose first block the clock ticks between construction and the
    end of the search: the adjuster has the earlier time, the block the later. -/
theorem Blockchain.not_inStep_of_late_tick :
    letI := oneZeroBit
    lateTick.NonDecreasing ∧
    ∃ bc : Blockchain Text, new.afterCall ⟨⟨"first"⟩, lateTick, 1⟩ = some bc ∧
      bc.difficultyAdjuster.timestamp = 0 ∧
      (replay bc.timestamps).map DifficultyAdjuster.timestamp = some 1 ∧
      replay bc.timestamps ≠ some bc.difficultyAdjuster := by
  let env := oneZeroBit
  constructor
  · intro i j hij
    simp only [lateTick]
    split_ifs
    · exact Int64.le_refl _
    · decide
    · omega
    · exact Int64.le_refl _
  · refine ⟨_, rfl, rfl, rfl, ?_⟩
    intro h
    exact absurd (congrArg (Option.map DifficultyAdjuster.timestamp) h) (by decide)

-- ---------------------------------------------------------------------------
-- Target
-- ---------------------------------------------------------------------------

/-- The verifier lets every block through that the miner can come up with, for
    whatever data and hasher, exactly if the difficulty is a power of two. -/
theorem Block.le_maxDifficulty_of_adjustDifficulty_iff {d : ℚ} (hd : 1 ≤ d) :
    (∀ (_ : Env) (T : Type) (_ : BlockData T) (b b' : Block T) (clock : Clock) (fuel : Nat),
      b.adjustDifficulty (.finite d) clock fuel = some b' → d ≤ b'.maxDifficulty) ↔
    ∃ k < 2 ^ 64, d = 2 ^ k := by
  have htarget : difficultyTarget (.finite d) = some (difficultyLog2 d) :=
    difficultyTarget_of_pos (one_pos.trans_le hd)
  constructor
  · intro h
    -- The hasher that gives the miner just what it asks for.
    let env := Env.withHash true fun _ => Digest.withZeroPrefix (difficultyLog2 d)
    let b : Block Text := Block.first ⟨""⟩ 0
    have hexit : ExitsAt (difficultyLog2 d) Clock.epoch b 0 := by
      refine ⟨fun j hj => absurd hj (Nat.not_lt_zero j), ?_⟩
      exact (Digest.zeroPrefixLength_withZeroPrefix _).ge
    have hmined : b.adjustDifficulty (.finite d) Clock.epoch 1 = some _ :=
      Option.bind_eq_some_iff.mpr
        ⟨_, htarget, adjustDifficultyLoop_eq_some.mpr ⟨0, Nat.one_pos, hexit, rfl⟩⟩
    have hpass := h env Text _ _ _ _ _ hmined
    refine (le_two_pow_difficultyLog2_iff hd).mp (hpass.trans_eq ?_)
    exact congrArg _ (Digest.zeroPrefixLength_withZeroPrefix _)
  · intro hpow env T _ b b' clock fuel hmined
    obtain ⟨target, htarget', hb'⟩ := adjustDifficulty_mined hmined
    rw [htarget, Option.some.injEq] at htarget'
    calc d ≤ 2 ^ difficultyLog2 d := (le_two_pow_difficultyLog2_iff hd).mpr hpow
      _ = 2 ^ target := by rw [htarget']
      _ ≤ b'.maxDifficulty := pow_le_pow_right₀ (by norm_num) hb'.zeros

theorem Block.le_maxDifficulty_of_adjustDifficulty_four :
    (1 : ℚ) ≤ 4 ∧
    ∀ (_ : Env) (T : Type) (_ : BlockData T) (b b' : Block T) (clock : Clock) (fuel : Nat),
      b.adjustDifficulty (.finite 4) clock fuel = some b' → 4 ≤ b'.maxDifficulty := by
  have hone : (1 : ℚ) ≤ 4 := by norm_num
  exact ⟨hone, (le_maxDifficulty_of_adjustDifficulty_iff hone).mpr ⟨2, by norm_num, by norm_num⟩⟩

/-- With the default configuration, eleven blocks whose last comes after 80
    seconds raise the difficulty from 2 to 5/2, and a miner is content with one
    leading zero bit. -/
theorem Block.maxDifficulty_lt_of_adjustDifficulty :
    letI := oneZeroBit
    (replay (List.replicate 10 0 ++ [80000])).map DifficultyAdjuster.difficulty =
      some (.finite (5 / 2)) ∧
    ∃ b' : Block Text,
      (Block.first ⟨"text"⟩ 0).adjustDifficulty (.finite (5 / 2)) Clock.epoch 1 = some b' ∧
      b'.maxDifficulty < 5 / 2 := by
  let env := oneZeroBit
  have hdifficulty : (replay (List.replicate 10 0 ++ [80000])).map DifficultyAdjuster.difficulty =
      some (.finite (5 / 2)) := by
    decide +kernel
  have htarget : difficultyTarget (.finite (5 / 2)) = some 1 := by decide +kernel
  let mined : Block Text :=
    ((Block.first ⟨"text"⟩ 0).attempt Clock.epoch 0).hashed
  refine ⟨hdifficulty, mined, ?_, ?_⟩
  · rw [adjustDifficulty, htarget]
    rfl
  · have hzeros : mined.maxDifficulty = 2 ^ 1 :=
      congrArg _ (Digest.zeroPrefixLength_withZeroPrefix 1)
    rw [hzeros]
    norm_num

end BuenzliCoin
