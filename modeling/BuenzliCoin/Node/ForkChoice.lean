-- SUMMARY: How a node chooses between forks: what one call may do to its chain and key, and what a run may.
import BuenzliCoin.Chain.Validity
import BuenzliCoin.Chain.Work
import BuenzliCoin.Node.Builds
import BuenzliCoin.Node.Run

/-!
# Fork choice

A chain gives way to another one only if that has a higher key: more blocks or,
with `PROOF_OF_WORK`, a higher cumulative difficulty. The latter is kept by the
adjuster of the chain, and need not be what the blocks of the chain amount to.
-/

namespace BuenzliCoin

open NodeData Runs DifficultyAdjuster

namespace DifficultyAdjuster

/-- The difficulty is positive and the cumulative difficulty not negative, as far as
    they are finite. -/
structure Positive (da : DifficultyAdjuster) : Prop where
  difficulty : ∀ d, da.difficulty = .finite d → 0 < d
  cumulative : ∀ c, da.cumulativeDifficulty = .finite c → 0 ≤ c

variable [Env]

theorem positive_fresh (hinit : 0 < config.blockgenDifficultyInit) : fresh.Positive where
  difficulty d hd := by
    cases hd
    exact hinit
  cumulative c hc := by
    cases hc
    exact le_refl 0

/-- A positive limit keeps the factor positive. -/
theorem factor_pos (hlimit : 0 < config.blockgenDifficultyAdjustFactorLimit)
    {da : DifficultyAdjuster} {t : TimePoint} {f : ℚ} (h : da.factor t = .finite f) : 0 < f := by
  by_cases hdivides : da.Divides t
  · have hclamped : 0 < clamped config.blockgenDifficultyAdjustFactorLimit
        (totalTimeExpected.toNat : ℚ) ((t - da.timestamp).toInt : ℚ) := by
      have hinverse := one_div_pos.mpr hlimit
      unfold clamped
      split_ifs with _ hlow
      · exact hlimit
      · exact hinverse
      · exact hlimit
      · exact hinverse.trans_le (not_lt.mp hlow)
    rw [factor, adjustFactor_eq_clamped hlimit.ne' hdivides, ExactDouble.finite.injEq] at h
    exact h ▸ hclamped
  · rw [factor_of_not_divides hdivides] at h
    cases h

/-- What is finite after a call was finite before, and not more. -/
theorem Positive.adjust (hlimit : 0 < config.blockgenDifficultyAdjustFactorLimit)
    {da da' : DifficultyAdjuster} {t : TimePoint} (h : da.Positive)
    (hadjust : da.adjust t = some da') :
    da'.Positive ∧ ∀ c', da'.cumulativeDifficulty = .finite c' →
      ∃ c, da.cumulativeDifficulty = .finite c ∧ c ≤ c' := by
  by_cases hadjusts : da.Adjusts
  · rw [adjust_of_adjusts hadjusts, Option.some.injEq] at hadjust
    subst hadjust
    have hpos : ∀ d, da.difficulty * da.factor t = .finite d → 0 < d := by
      intro d hd
      obtain ⟨p, q, hp, hq, rfl⟩ := ExactDouble.exists_of_mul_eq_finite hd
      exact mul_pos (h.difficulty p hp) (factor_pos hlimit hq)
    have hadded : ∀ c', da.cumulativeDifficulty + da.difficulty * da.factor t = .finite c' →
        ∃ c, da.cumulativeDifficulty = .finite c ∧ c ≤ c' := by
      intro c' hc'
      obtain ⟨c, d, hc, hd, rfl⟩ := ExactDouble.exists_of_add_eq_finite hc'
      exact ⟨c, hc, le_add_of_nonneg_right (hpos d hd).le⟩
    refine ⟨⟨hpos, fun c' hc' => ?_⟩, hadded⟩
    obtain ⟨c, hc, hle⟩ := hadded c' hc'
    exact (h.cumulative c hc).trans hle
  · obtain ⟨hdifficulty, hcumulative⟩ := adjust_difficulty_of_not_adjusts hadjusts hadjust
    refine ⟨⟨fun d hd => ?_, fun c hc => ?_⟩, fun c hc => ⟨c, ?_, le_refl c⟩⟩
    · exact h.difficulty d (hdifficulty ▸ hd)
    · exact h.cumulative c (hcumulative ▸ hc)
    · exact hcumulative ▸ hc

end DifficultyAdjuster

namespace Blockchain

variable {T : Type} [BlockData T] [Env]

omit [BlockData T] in
/-- The key, and above all keys where the cast to one is undefined. -/
def rank (bc : Blockchain T) : WithTop Nat :=
  match bc.key with
  | some k => k
  | none => ⊤

omit [BlockData T] in
theorem rank_lt_of_exceeds {bc bc' : Blockchain T} (h : bc'.exceeds bc = some true) :
    bc.rank < bc'.rank := by
  obtain ⟨k', k, hk', hk, hlt⟩ := exceeds_eq_some_true.mp h
  simp only [rank, hk, hk']
  exact WithTop.coe_lt_coe.mpr hlt

omit [BlockData T] in
/-- What has a key and ranks no lower than another chain outweighs no less than its key. -/
theorem key_le_of_rank_le {bc bc' : Blockchain T} {k k' : Nat} (h : bc.rank ≤ bc'.rank)
    (hk : bc.key = some k) (hk' : bc'.key = some k') : k ≤ k' := by
  simp only [rank, hk, hk'] at h
  exact WithTop.coe_le_coe.mp h

omit [BlockData T] in
/-- In step, the key is that of the blocks, of which it reads what is stored. -/
theorem InStep.key_eq [BlockData T] [StoredData T] {bc bc' : Blockchain T}
    (h : Env.proofOfWork → bc.InStep) (h' : Env.proofOfWork → bc'.InStep)
    (hstored : bc'.blocks.map Block.stored = bc.blocks.map Block.stored) : bc'.key = bc.key := by
  unfold key
  split_ifs with hpow
  · have hstamps : ∀ bc : Blockchain T,
        bc.timestamps = (bc.blocks.map Block.stored).map Block.timestamp := by
      intro bc
      rw [List.map_map]
      rfl
    have hadjusters : some bc'.difficultyAdjuster = some bc.difficultyAdjuster := by
      rw [← h hpow, ← h' hpow, hstamps bc, hstamps bc', hstored]
    rw [cumulativeDifficulty, cumulativeDifficulty, Option.some.inj hadjusters]
  · rw [length, length, ← List.length_map Block.stored, hstored, List.length_map]

/-- The adjuster is where it was, or has moved by one block. -/
def Moved (bc bc' : Blockchain T) : Prop :=
  bc'.difficultyAdjuster = bc.difficultyAdjuster ∨
    ∃ t, bc.difficultyAdjuster.adjust t = some bc'.difficultyAdjuster

/-- One more block, or none. -/
def Grown (bc bc' : Blockchain T) : Prop :=
  bc'.blocks = bc.blocks ∨ ∃ b, bc'.blocks = bc.blocks ++ [b]

omit [BlockData T] in
theorem Moved.of_adjust {bc bc' : Blockchain T} {t : TimePoint} (h : bc.adjust t = some bc') :
    bc.Moved bc' := by
  obtain ⟨da, hda, rfl⟩ := adjust_eq_some.mp h
  exact .inr ⟨t, hda⟩

theorem constructNextBlock_grown {bc bc' : Blockchain T} {data : T} {clock : Clock} {fuel : Nat}
    {r : Except Error Unit} (h : bc.constructNextBlock data clock fuel = some (r, bc')) :
    Grown bc bc' ∧ Moved bc bc' := by
  obtain ⟨e, -, rfl, -⟩ | ⟨e, -, -, -, hadjust⟩ | ⟨-, b, hstep⟩ := constructNextBlock_cases h
  · exact ⟨.inl rfl, .inl rfl⟩
  · refine ⟨.inl (blocks_of_adjust hadjust), ?_⟩
    split_ifs at hadjust
    · exact .of_adjust hadjust
    · exact .inl (by rw [hadjust])
  · refine ⟨.inr ⟨b, hstep.blocks⟩, ?_⟩
    have hadjuster := hstep.adjuster
    split_ifs at hadjuster
    · exact .inr ⟨_, hadjuster⟩
    · exact .inl hadjuster

/-- A call that throws may have moved the adjuster before. -/
theorem appendNextBlock_grown {bc bc' : Blockchain T} {b : Block T} {now : TimePoint}
    {r : Except Error Unit} (h : bc.appendNextBlock b now = (r, bc')) :
    Grown bc bc' ∧ Moved bc bc' := by
  simp only [appendNextBlock] at h
  split at h
  · cases h
    exact ⟨.inl rfl, .inl rfl⟩
  · split_ifs at h
    · split at h
      · cases h
        exact ⟨.inl rfl, .inl rfl⟩
      · next hadjust =>
        have hmoved := Moved.of_adjust hadjust
        obtain ⟨da, -, rfl⟩ := adjust_eq_some.mp hadjust
        split_ifs at h
        · cases h
          exact ⟨.inl rfl, hmoved⟩
        · obtain ⟨e, -, rfl, -⟩ | ⟨-, rfl, -⟩ := emplaceBack_cases h
          · exact ⟨.inl rfl, hmoved⟩
          · exact ⟨.inr ⟨b, rfl⟩, hmoved⟩
    · obtain ⟨e, -, rfl, -⟩ | ⟨-, rfl, -⟩ := emplaceBack_cases h
      · exact ⟨.inl rfl, .inl rfl⟩
      · exact ⟨.inr ⟨b, rfl⟩, .inl rfl⟩

omit [BlockData T] [Env] in
theorem Grown.blocks_le {bc bc' : Blockchain T} (h : Grown bc bc') : bc.blocks <+: bc'.blocks := by
  obtain h | ⟨b, h⟩ := h
  · rw [h]
  · rw [h]
    exact List.prefix_append _ _

omit [BlockData T] in
theorem Moved.positive {bc bc' : Blockchain T} (h : Moved bc bc')
    (hlimit : 0 < config.blockgenDifficultyAdjustFactorLimit)
    (hpos : bc.difficultyAdjuster.Positive) :
    bc'.difficultyAdjuster.Positive ∧
    ∀ c', bc'.difficultyAdjuster.cumulativeDifficulty = .finite c' →
      ∃ c, bc.difficultyAdjuster.cumulativeDifficulty = .finite c ∧ c ≤ c' := by
  obtain hsame | ⟨t, hadjust⟩ := h
  · rw [hsame]
    exact ⟨hpos, fun c hc => ⟨c, hc, le_refl c⟩⟩
  · exact hpos.adjust hlimit hadjust

omit [BlockData T] in
/-- The rank does not decrease as a chain grows. -/
theorem Grown.rank_le {bc bc' : Blockchain T} (h : Grown bc bc') (hmoved : Moved bc bc')
    (hlimit : 0 < config.blockgenDifficultyAdjustFactorLimit)
    (hpos : bc.difficultyAdjuster.Positive) : bc.rank ≤ bc'.rank := by
  cases hkey : bc'.key with
  | none =>
    simp only [rank, hkey]
    exact le_top
  | some k' =>
    obtain ⟨k, hk, hle⟩ : ∃ k, bc.key = some k ∧ k ≤ k' := by
      unfold key at hkey ⊢
      split_ifs at hkey ⊢ with hpow
      · obtain ⟨c', hc'⟩ := ExactDouble.exists_of_toUInt64?_eq_some hkey
        obtain ⟨c, hc, hle⟩ := (hmoved.positive hlimit hpos).2 c' hc'
        rw [cumulativeDifficulty, hc', ExactDouble.toUInt64?_finite_eq_some] at hkey
        obtain ⟨⟨-, hbelow⟩, rfl⟩ := hkey
        have hnonneg := hpos.cumulative c hc
        refine ⟨⌊c⌋₊, ?_, Nat.floor_mono hle⟩
        rw [cumulativeDifficulty, hc, ExactDouble.toUInt64?_finite_eq_some]
        exact ⟨⟨neg_one_lt_zero.trans_le hnonneg, hle.trans_lt hbelow⟩, rfl⟩
      · cases hkey
        exact ⟨_, rfl, h.blocks_le.length_le⟩
    simp only [rank, hkey, hk]
    exact WithTop.coe_le_coe.mpr hle

theorem fromJson_positive (hinit : 0 < config.blockgenDifficultyInit)
    (hlimit : 0 < config.blockgenDifficultyAdjustFactorLimit) {j : Json} {clock : Clock}
    {bc : Blockchain T} (h : fromJson j clock = .ok bc) : bc.difficultyAdjuster.Positive := by
  refine fromJson_induction (P := fun bc => bc.difficultyAdjuster.Positive) h
    (positive_fresh hinit) fun bc b i bc' hpos hstep => ?_
  have hmoved : Moved bc bc' := by
    have hadjuster := hstep.adjuster
    split_ifs at hadjuster
    · exact .inr ⟨_, hadjuster⟩
    · exact .inl hadjuster
  exact (hmoved.positive hlimit hpos).1

end Blockchain

namespace Node

variable {T : Type} [NodeData T] [Env]

-- ---------------------------------------------------------------------------
-- One call
-- ---------------------------------------------------------------------------

/-- The operation on the chain that a call comes down to, and the chain after it. -/
inductive Operates (n : Node T) (clock : Clock) : Call T → Blockchain T → Prop where
  | none {call : Call T} : Operates n clock call n.blockchain
  | construct {data : Json} {fuel : Nat} {d : T} {m : Members T} {r : Except Error Unit}
      {bc : Blockchain T} (assembled : assemble n.members n.blockchain.length data = (.ok d, m))
      (constructed : n.blockchain.constructNextBlock d clock fuel = some (r, bc)) :
      Operates n clock (.blocksPost data fuel) bc
  | append {data : Json} {connection : Except String Unit} {b : Block T} {r : Except Error Unit}
      {bc : Blockchain T} (judged : n.judge data clock connection = .ok (.append b))
      (appended : n.blockchain.appendNextBlock b (clock 1) = (r, bc)) :
      Operates n clock (.receiveLatestBlock data connection) bc
  | replace {data : Json} {bc : Blockchain T} (received : receivedChain data clock = .ok bc)
      (exceeds : bc.exceeds n.blockchain = some true) :
      Operates n clock (.receiveAllBlocks data) bc

theorem handle_operates {n : Node T} {clock : Clock} {call : Call T} {reply : Reply T}
    (h : n.handle clock call = some reply) : Operates n clock call reply.node.blockchain := by
  cases call with
  | blocksPost data fuel =>
    simp only [handle, handleBlocksPost] at h
    split at h
    · cases h
      exact .none
    · next hassemble =>
      split at h
      · cases h
      · next hconstruct =>
        cases h
        exact .construct hassemble hconstruct
      · next hconstruct =>
        obtain ⟨members, -, h⟩ := Option.bind_eq_some_iff.mp h
        cases h
        exact .construct hassemble hconstruct
  | receiveLatestBlock data connection =>
    simp only [handle, handleReceiveLatestBlock] at h
    split at h
    · cases h
      exact .none
    · cases h
      exact .none
    · obtain ⟨members, -, h⟩ := Option.bind_eq_some_iff.mp h
      cases h
      exact .none
    · next hjudge =>
      split at h
      · cases h
      · next happend =>
        cases h
        exact .append hjudge happend
      · next happend =>
        obtain ⟨members, -, h⟩ := Option.bind_eq_some_iff.mp h
        cases h
        exact .append hjudge happend
  | receiveAllBlocks data =>
    simp only [handle, handleReceiveAllBlocks] at h
    split at h
    · cases h
    · cases h
      exact .none
    · next hchain =>
      obtain ⟨exceeds, hexceeds, h⟩ := Option.bind_eq_some_iff.mp h
      cases exceeds with
      | false =>
        cases h
        exact .none
      | true =>
        obtain ⟨members, -, h⟩ := Option.bind_eq_some_iff.mp h
        cases h
        exact .replace hchain hexceeds
  | peersPost data connection =>
    cases h
    unfold handlePeersPost
    split <;> exact .none
  | _ =>
    cases h
    exact .none

/-- The chain grows by at most a block, or gives way to a valid one with a higher key. -/
theorem Operates.grown_or_outbid {n : Node T} {clock : Clock} {call : Call T} {bc : Blockchain T}
    (h : Operates n clock call bc) :
    Blockchain.Grown n.blockchain bc ∨
      (∃ i, bc.valid (clock.drop i) = .ok ()) ∧ bc.exceeds n.blockchain = some true := by
  cases h with
  | none => exact .inl (.inl rfl)
  | construct _ hconstructed => exact .inl (Blockchain.constructNextBlock_grown hconstructed).1
  | append _ happended => exact .inl (Blockchain.appendNextBlock_grown happended).1
  | replace hreceived hexceeds =>
    obtain ⟨j, -, -, hvalid⟩ := receivedChain_eq_ok.mp hreceived
    exact .inr ⟨⟨_, hvalid⟩, hexceeds⟩

theorem Operates.advances {n : Node T} {clock : Clock} {call : Call T} {bc : Blockchain T}
    (hinit : 0 < config.blockgenDifficultyInit)
    (hlimit : 0 < config.blockgenDifficultyAdjustFactorLimit)
    (hpos : n.blockchain.difficultyAdjuster.Positive) (h : Operates n clock call bc) :
    bc.difficultyAdjuster.Positive ∧
      Advances Blockchain.blocks Blockchain.rank n.blockchain bc := by
  have hgrown : Blockchain.Grown n.blockchain bc ∧ Blockchain.Moved n.blockchain bc →
      bc.difficultyAdjuster.Positive ∧
        Advances Blockchain.blocks Blockchain.rank n.blockchain bc := by
    rintro ⟨hgrown, hmoved⟩
    exact ⟨(hmoved.positive hlimit hpos).1,
      .inr ⟨hgrown.rank_le hmoved hlimit hpos, hgrown.blocks_le⟩⟩
  cases h with
  | none => exact hgrown ⟨.inl rfl, .inl rfl⟩
  | construct _ hconstructed => exact hgrown (Blockchain.constructNextBlock_grown hconstructed)
  | append _ happended => exact hgrown (Blockchain.appendNextBlock_grown happended)
  | replace hreceived hexceeds =>
    obtain ⟨j, -, hdecoded, -⟩ := receivedChain_eq_ok.mp hreceived
    exact ⟨Blockchain.fromJson_positive hinit hlimit hdecoded,
      .inl (Blockchain.rank_lt_of_exceeds hexceeds)⟩

theorem operates_of_step {n n' : Node T} {input : Clock × Call T} (h : n.step input = some n') :
    Operates n input.1 input.2 n'.blockchain := by
  obtain ⟨reply, hhandle, rfl⟩ := step_eq_some.mp h
  exact handle_operates hhandle

-- ---------------------------------------------------------------------------
-- Staying in step
-- ---------------------------------------------------------------------------

/-- Without `PROOF_OF_WORK` there is no adjuster to be out of step. -/
def InStep (n : Node T) : Prop := Env.proofOfWork → n.blockchain.InStep

/-- A block that is mined keeps time, and one that is received keeps count. -/
def StaysInStep (n : Node T) (input : Clock × Call T) : Prop :=
  Env.proofOfWork →
    (∀ data fuel d m, input.2 = .blocksPost data fuel →
      assemble n.members n.blockchain.length data = (.ok d, m) →
      Blockchain.KeepsTime n.blockchain ⟨d, input.1, fuel⟩) ∧
    ∀ data connection b, input.2 = .receiveLatestBlock data connection →
      n.judge data input.1 connection = .ok (.append b) →
      Blockchain.KeepsCount n.blockchain b (input.1 1)

theorem InStep.step {n n' : Node T} {input : Clock × Call T} (h : n.InStep)
    (hstays : n.StaysInStep input) (hstep : n.step input = some n') : n'.InStep := by
  intro hpow
  obtain ⟨hmined, hreceived⟩ := hstays hpow
  obtain ⟨clock, call⟩ := input
  have hoperates := operates_of_step hstep
  generalize n'.blockchain = bc at hoperates ⊢
  cases hoperates with
  | none => exact h hpow
  | construct hassembled hconstructed =>
    have hcall : n.blockchain.afterCall ⟨_, clock, _⟩ = some bc :=
      congrArg (Option.map Prod.snd) hconstructed
    exact ((h hpow).afterCall_iff hpow hcall).mpr (hmined _ _ _ _ rfl hassembled)
  | append hjudged happended =>
    exact ((h hpow).appendNextBlock_iff hpow happended).mpr (hreceived _ _ _ rfl hjudged)
  | replace hchain _ =>
    obtain ⟨j, -, hdecoded, -⟩ := receivedChain_eq_ok.mp hchain
    exact (Blockchain.fromJson_worked hpow hdecoded).inStep

-- ---------------------------------------------------------------------------
-- Runs
-- ---------------------------------------------------------------------------

/-- The chain after a call is the chain before, or that plus one block, or a chain
    that is valid and has a higher key; and the key has not decreased. -/
def Chooses (n : Node T) (input : Clock × Call T) (n' : Node T) : Prop :=
  (n'.blockchain.blocks = n.blockchain.blocks ∨
    (∃ b, n'.blockchain.blocks = n.blockchain.blocks ++ [b]) ∨
    (∃ i, n'.blockchain.valid (input.1.drop i) = .ok ()) ∧
      n'.blockchain.exceeds n.blockchain = some true) ∧
  n.blockchain.rank ≤ n'.blockchain.rank

/-- What a run does to the key and the blocks. -/
theorem advances_of_run (hinit : 0 < config.blockgenDifficultyInit)
    (hlimit : 0 < config.blockgenDifficultyAdjustFactorLimit) {n n' : Node T}
    {inputs : List (Clock × Call T)} (hpos : n.blockchain.difficultyAdjuster.Positive)
    (hrun : run step n inputs = some n') :
    n'.blockchain.difficultyAdjuster.Positive ∧
      Advances Blockchain.blocks Blockchain.rank n.blockchain n'.blockchain :=
  rel_of_run (P := fun n : Node T => n.blockchain.difficultyAdjuster.Positive)
    (R := fun n n' => Advances Blockchain.blocks Blockchain.rank n.blockchain n'.blockchain)
    (fun _ => .refl _) (fun h h' => h.trans h')
    (fun _ _ _ hpos hstep => ((operates_of_step hstep).advances hinit hlimit hpos).1)
    (fun _ _ _ hpos hstep => ((operates_of_step hstep).advances hinit hlimit hpos).2) hpos hrun

/-- Whatever a node is called with, each call leaves its chain, lets it grow by a
    block, or replaces it by one with a higher key. A run in which every block that
    is mined keeps time, and every block that is received keeps count, does not
    come back to a chain that the node has left. -/
theorem chooses_and_never_returns [StoredData T] (hinit : 0 < config.blockgenDifficultyInit)
    (hlimit : 0 < config.blockgenDifficultyAdjustFactorLimit) (host : String) (port : UInt16)
    (inputs : List (Clock × Call T)) (n : Node T)
    (hrun : run step (new host port : Node T) inputs = some n) :
    (∀ input n', n.step input = some n' → n.Chooses input n') ∧
    ∀ inputs₁ inputs₂ n₁ n₂, run step n inputs₁ = some n₁ → run step n₁ inputs₂ = some n₂ →
      EveryStep step StaysInStep (new host port : Node T) (inputs ++ (inputs₁ ++ inputs₂)) →
      n₂.blockchain.blocks.map Block.stored = n.blockchain.blocks.map Block.stored →
      n₁.blockchain.blocks.map Block.stored = n.blockchain.blocks.map Block.stored := by
  obtain ⟨hpos, -⟩ := advances_of_run hinit hlimit (n := new host port)
    (DifficultyAdjuster.positive_fresh hinit) hrun
  constructor
  · intro input n' hstep
    have hoperates := operates_of_step hstep
    obtain ⟨-, hadvances⟩ := hoperates.advances hinit hlimit hpos
    refine ⟨?_, hadvances.key_le⟩
    obtain (hsame | hgrown) | houtbid := hoperates.grown_or_outbid
    · exact .inl hsame
    · exact .inr (.inl hgrown)
    · exact .inr (.inr houtbid)
  · intro inputs₁ inputs₂ n₁ n₂ hrun₁ hrun₂ hstays hback
    have hnew : (new host port : Node T).InStep := fun _ => Blockchain.inStep_new
    have hstates : EveryState step InStep (new host port : Node T)
        (inputs ++ (inputs₁ ++ inputs₂)) :=
      hstays.everyState (fun _ _ _ h hq hstep => InStep.step h hq hstep) hnew
    have hinStep : n.InStep := (hstates.after hrun).head
    have hinStep₂ : n₂.InStep := ((hstates.after hrun).after hrun₁).last hrun₂
    have hkey : n₂.blockchain.rank = n.blockchain.rank := by
      rw [Blockchain.rank, Blockchain.rank, Blockchain.InStep.key_eq hinStep hinStep₂ hback]
    obtain ⟨hpos₁, hadvances₁⟩ := advances_of_run hinit hlimit hpos hrun₁
    obtain ⟨-, hadvances₂⟩ := advances_of_run hinit hlimit hpos₁ hrun₂
    exact (hadvances₁.map_log Block.stored).log_eq (hadvances₂.map_log Block.stored) hkey hback

end Node

/-- A `PROOF_OF_WORK` build that adjusts the difficulty with every block, and whose
    digests have 64 leading zero bits. -/
abbrev everyBlock : Env :=
  { Env.withHash true fun _ => Digest.withZeroPrefix 64 with
    config := { blockgenDifficultyAdjustAfter := 1 } }

/-- Two readings of `t`, and `t'` from then on. -/
def tick (t t' : TimePoint) (ht : 0 ≤ t) (ht' : 0 ≤ t') : Clock where
  reading n := if n < 2 then t else t'
  sinceEpoch n := by split <;> assumption

/-- Two blocks with these texts and timestamps. -/
def stampedTexts (text text' : String) (t t' : TimePoint) : List (Block Text) :=
  letI := everyBlock
  [Block.first ⟨text⟩ t, Block.next ⟨text'⟩ (Block.first ⟨text⟩ t) t']

/-- The message that carries all blocks of a chain. -/
def blocksMessage (bs : List (Block Text)) : Json :=
  .object [("blockchain", .array (bs.map Block.toJson))]

/-- A node with these blocks and an adjuster. -/
def stampedNode (bs : List (Block Text)) (difficultyAdjuster : DifficultyAdjuster) : Node Text where
  host := "localhost"
  port := 8332
  blockchain := { blocks := bs, difficultyAdjuster }
  members := ()
  peers := []

namespace Node

variable {T : Type} [NodeData T] [Env]

/-- Blocks that a verifier accepts one after the other and that stand next to each other. -/
theorem receivedChain_of_workedFrom [StoredData T] {b : Block T} {bs : List (Block T)}
    {clock : Clock} {da : DifficultyAdjuster} (hpow : Env.proofOfWork)
    (hstored : ∀ d : T, StoredData.stored d = d)
    (hvalid : ∀ b' ∈ b :: bs, ∀ i, b'.valid (clock i) = .ok ())
    (hworked : Blockchain.WorkedFrom none .fresh (b :: bs) da)
    (hroom : (b :: bs).length ≤ Env.maxSize) (hgenesis : b.isGenesis)
    (hsuccessors : (b :: bs).IsChain fun prev b => b.isSuccessorOf prev) :
    receivedChain (.object [("blockchain", .array ((b :: bs).map Block.toJson))]) clock =
      .ok ⟨b :: bs, da⟩ := by
  have hread : ∀ b' ∈ b :: bs, Block.fromJson b'.toJson = .ok b' := by
    intro b' _
    rw [Block.fromJson_toJson, Block.stored, hstored]
  refine receivedChain_eq_ok.mpr ⟨_, rfl, ?_, Blockchain.valid_eq_ok.mpr ⟨?_, ?_, ?_, ?_⟩⟩
  · exact Blockchain.fromJson_of_workedFrom hpow hread hvalid hworked hroom
  · exact List.cons_ne_nil _ _
  · exact fun k hk => hvalid _ (List.getElem_mem hk) _
  · rintro b' ⟨⟩
    exact hgenesis
  · exact hsuccessors

theorem step_of_constructNextBlock {n : Node T} {data : Json} {clock : Clock} {fuel : Nat} {d : T}
    {m m' : Members T} {bc : Blockchain T}
    (hassemble : assemble n.members n.blockchain.length data = (.ok d, m))
    (hconstruct : n.blockchain.constructNextBlock d clock fuel = some (.ok (), bc))
    (hmined : mined m d = some m') :
    n.step (clock, .blocksPost data fuel) = some { n with blockchain := bc, members := m' } := by
  simp only [step, handle, handleBlocksPost, hassemble, hconstruct, hmined]
  rfl

theorem step_of_receivedChain {n : Node T} {data : Json} {clock : Clock} {bc : Blockchain T}
    {m : Members T} (hchain : receivedChain data clock = .ok bc)
    (hexceeds : bc.exceeds n.blockchain = some true)
    (hsetup : setup (bc.blocks.map Block.data) = some m) :
    n.step (clock, .receiveAllBlocks data) = some { n with blockchain := bc, members := m } := by
  simp only [step, handle, handleReceiveAllBlocks, hchain, hexceeds, hsetup]
  rfl

theorem step_of_receivedChain_not_exceeds {n : Node T} {data : Json} {clock : Clock}
    {bc : Blockchain T} (hchain : receivedChain data clock = .ok bc)
    (hexceeds : bc.exceeds n.blockchain = some false) :
    n.step (clock, .receiveAllBlocks data) = some n := by
  simp only [step, handle, handleReceiveAllBlocks, hchain, hexceeds]
  rfl

end Node

/-- The adjuster after one block of this time. -/
def oneStamp (t : TimePoint) : DifficultyAdjuster :=
  { difficulty := .finite 2, counter := 1, timestamp := t }

/-- The adjuster after two blocks, from the second timestamp and the factor. -/
def twoStamps (t : TimePoint) (factor : ℚ) : DifficultyAdjuster :=
  { difficulty := .finite (2 * factor), cumulativeDifficulty := .finite (2 * factor)
    counter := 2, timestamp := t }

theorem valid_stampedTexts {text text' : String} {t t' : TimePoint} (htime : t - 60000 < 10000)
    (htime' : t' - 60000 < 10000) :
    letI := everyBlock
    ∀ b ∈ stampedTexts text text' t t', b.valid 10000 = .ok () := by
  let env := everyBlock
  simp only [stampedTexts, List.forall_mem_cons]
  exact ⟨Block.valid_eq_ok.mpr ⟨rfl, htime, rfl⟩, Block.valid_eq_ok.mpr ⟨rfl, htime', rfl⟩,
    List.forall_mem_nil _⟩

/-- Digests with 64 zero bits are work enough for what the difficulties here come to. -/
theorem maxDifficulty_of_withZeroPrefix {b : Block Text}
    (hhash : b.hash = Digest.withZeroPrefix 64) :
    b.maxDifficulty = 2 ^ 64 := by
  rw [Block.maxDifficulty, hhash, Digest.zeroPrefixLength_withZeroPrefix]

theorem workedFrom_stampedTexts {text text' : String} {t t' : TimePoint} {factor : ℚ}
    (hadjust : letI := everyBlock; (oneStamp t).adjust t' = some (twoStamps t' factor))
    (hwork : ¬ (2 ^ 64 : ℚ) < 2 * factor) :
    letI := everyBlock
    Blockchain.WorkedFrom none .fresh (stampedTexts text text' t t') (twoStamps t' factor) := by
  let env := everyBlock
  have hfirst : ¬ ExactDouble.finite (2 ^ 64) < .finite 2 := by decide +kernel
  refine ⟨⟨rfl, rfl⟩, oneStamp t, adjust_of_counter_eq_zero rfl t, ?_, ⟨rfl, rfl⟩, _, hadjust, ?_,
    rfl⟩
  · rw [maxDifficulty_of_withZeroPrefix rfl]
    exact hfirst
  · rw [maxDifficulty_of_withZeroPrefix rfl]
    exact ExactDouble.finite_lt_finite.not.mpr hwork

theorem receivedChain_stampedTexts {text text' : String} {t t' : TimePoint} {factor : ℚ}
    (htime : t - 60000 < 10000) (htime' : t' - 60000 < 10000) (hlater : t - 60000 < t')
    (hadjust : letI := everyBlock; (oneStamp t).adjust t' = some (twoStamps t' factor))
    (hwork : ¬ (2 ^ 64 : ℚ) < 2 * factor) :
    letI := everyBlock
    Node.receivedChain (blocksMessage (stampedTexts text text' t t')) (.const 10000 (by decide)) =
      .ok ⟨stampedTexts text text' t t', twoStamps t' factor⟩ := by
  let env := everyBlock
  exact Node.receivedChain_of_workedFrom rfl (fun _ => rfl)
    (fun b hb _ => valid_stampedTexts htime htime' b hb) (workedFrom_stampedTexts hadjust hwork)
    (show 2 ≤ 2 ^ 32 by decide) rfl
    (.cons_cons (Block.isSuccessorOf_iff.mpr ⟨hlater, rfl, rfl⟩) (.singleton _))

/-- The first block is mined in the first round. -/
theorem step_new_stampedNode (text : String) (clock : Clock)
    (htime : clock 0 - 60000 < clock 1) :
    letI := everyBlock
    (Node.new "localhost" 8332 : Node Text).step (clock, .blocksPost (.string text) 1) =
      some (stampedNode [Block.first ⟨text⟩ (clock 2)] (oneStamp (clock 0))) := by
  let env := everyBlock
  have htarget : difficultyTarget (.finite 2) = some 1 := by decide +kernel
  refine Node.step_of_constructNextBlock rfl (Blockchain.constructNextBlock_of_zeros rfl
    (Block.valid_eq_ok.mpr ⟨rfl, htime, rfl⟩) (adjust_of_counter_eq_zero rfl _) htarget ?_
    (show 0 < 2 ^ 32 by decide)) rfl
  exact (show 1 ≤ 64 by decide).trans_eq (Digest.zeroPrefixLength_withZeroPrefix _).symm

/-- The second block is mined at 10000. -/
theorem step_stampedNode {text text' : String} {t t₀ : TimePoint} {factor : ℚ} {target : Nat}
    (hadjust : letI := everyBlock; (oneStamp t₀).adjust 10000 = some (twoStamps 10000 factor))
    (htarget : difficultyTarget (.finite (2 * factor)) = some target) (hzeros : target ≤ 64) :
    letI := everyBlock
    (stampedNode [Block.first ⟨text⟩ t] (oneStamp t₀)).step
      (.const 10000 (by decide), .blocksPost (.string text') 1) =
      some (stampedNode (stampedTexts text text' t 10000) (twoStamps 10000 factor)) := by
  let env := everyBlock
  refine Node.step_of_constructNextBlock rfl (Blockchain.constructNextBlock_of_zeros rfl
    (Block.valid_eq_ok.mpr ⟨rfl, (by decide : (10000 : TimePoint) - 60000 < 10000), rfl⟩) hadjust
    htarget ?_ (show 1 < 2 ^ 32 by decide)) rfl
  exact hzeros.trans_eq (Digest.zeroPrefixLength_withZeroPrefix _).symm

/-- A node that has mined a second block does not go back to the first alone when that
    is sent to it. -/
theorem Node.chooses_and_never_returns_mined :
    letI := everyBlock
    0 < config.blockgenDifficultyInit ∧ 0 < config.blockgenDifficultyAdjustFactorLimit ∧
    ∃ n n₁ n₂ : Node Text,
      run step (new "localhost" 8332 : Node Text)
        [(.epoch, .blocksPost (.string "first") 1)] = some n ∧
      (∀ input n', n.step input = some n' → n.Chooses input n') ∧
      run step n [(.const 10000 (by decide), .blocksPost (.string "second") 1)] = some n₁ ∧
      run step n₁ [(.const 10000 (by decide),
        .receiveAllBlocks (blocksMessage [Block.first ⟨"first"⟩ 0]))] = some n₂ ∧
      n₁.blockchain.blocks.map Block.stored ≠ n.blockchain.blocks.map Block.stored ∧
      n₂.blockchain.blocks.map Block.stored ≠ n.blockchain.blocks.map Block.stored := by
  let env := everyBlock
  have hinit : 0 < config.blockgenDifficultyInit := by decide +kernel
  have hlimit : 0 < config.blockgenDifficultyAdjustFactorLimit := by decide +kernel
  let n := stampedNode [Block.first ⟨"first"⟩ 0] (oneStamp 0)
  let n₁ := stampedNode (stampedTexts "first" "second" 0 10000) (twoStamps 10000 1)
  have hfirst : (new "localhost" 8332 : Node Text).step (.epoch, .blocksPost (.string "first") 1) =
      some n := step_new_stampedNode "first" .epoch (by decide)
  have hone : difficultyTarget (.finite (2 * 1)) = some 1 := by decide +kernel
  have hsecond : n.step (.const 10000 (by decide), .blocksPost (.string "second") 1) = some n₁ :=
    step_stampedNode (by decide +kernel) hone (by decide)
  have hreceived : receivedChain (blocksMessage [Block.first ⟨"first"⟩ 0])
      (.const 10000 (by decide)) = .ok ⟨[Block.first (⟨"first"⟩ : Text) 0], oneStamp 0⟩ := by
    refine receivedChain_of_workedFrom rfl (fun _ => rfl) ?_ ?_ (by decide) rfl (.singleton _)
    · rw [List.forall_mem_singleton]
      exact fun _ => Block.valid_eq_ok.mpr ⟨rfl, (by decide : (0 : TimePoint) - 60000 < 10000), rfl⟩
    · refine ⟨⟨rfl, rfl⟩, oneStamp 0, adjust_of_counter_eq_zero rfl 0, ?_, rfl⟩
      rw [maxDifficulty_of_withZeroPrefix rfl]
      decide +kernel
  have hthird : n₁.step (.const 10000 (by decide),
      .receiveAllBlocks (blocksMessage [Block.first ⟨"first"⟩ 0])) = some n₁ :=
    step_of_receivedChain_not_exceeds hreceived (by decide +kernel)
  have hrun : run step (new "localhost" 8332 : Node Text)
      [(.epoch, .blocksPost (.string "first") 1)] = some n := by
    rw [run_cons hfirst]
    rfl
  have hrun₁ : run step n [(.const 10000 (by decide), .blocksPost (.string "second") 1)] =
      some n₁ := by
    rw [run_cons hsecond]
    rfl
  have hrun₂ : run step n₁ [(.const 10000 (by decide),
      .receiveAllBlocks (blocksMessage [Block.first ⟨"first"⟩ 0]))] = some n₁ := by
    rw [run_cons hthird]
    rfl
  -- the clock stands still while a block is mined, and no block is received
  have hmines : ∀ (n : Node Text) (t : TimePoint) (ht : 0 ≤ t) (text : String),
      n.blockchain.length < 2 →
      n.StaysInStep (.const t ht, .blocksPost (.string text) 1) := by
    intro n t ht text hlength _
    refine ⟨fun data fuel d m hcall _ => ?_, fun data connection b hcall => by cases hcall⟩
    cases hcall
    exact fun _ => ⟨hlength.trans (by decide), fun _ _ _ _ _ _ _ => rfl⟩
  have hreceives : ∀ (n : Node Text) (clock : Clock) (data : Json),
      n.StaysInStep (clock, .receiveAllBlocks data) := by
    intro n clock data _
    exact ⟨fun _ _ _ _ hcall => (nomatch hcall), fun _ _ _ hcall => (nomatch hcall)⟩
  have hstays : EveryStep step StaysInStep (new "localhost" 8332 : Node Text)
      [(.epoch, .blocksPost (.string "first") 1),
        (.const 10000 (by decide), .blocksPost (.string "second") 1),
        (.const 10000 (by decide),
          .receiveAllBlocks (blocksMessage [Block.first ⟨"first"⟩ 0]))] :=
    .cons hfirst (hmines _ 0 (by decide) _ (by decide)) <|
      .cons hsecond (hmines _ _ _ _ (by decide)) <|
      .cons hthird (hreceives _ _ _) trivial
  obtain ⟨hchooses, hreturns⟩ := chooses_and_never_returns hinit hlimit _ _ _ n hrun
  have hleft : n₁.blockchain.blocks.map Block.stored ≠ n.blockchain.blocks.map Block.stored :=
    fun h => absurd (congrArg List.length h) (by decide)
  exact ⟨hinit, hlimit, n, n₁, n₁, hrun, hchooses, hrun₁, hrun₂, hleft,
    fun hback => hleft (hreturns _ _ _ _ hrun₁ hrun₂ hstays hback)⟩

/-- With keys 2 and 4 for the chains, the second replaces the first; but as the first
    comes back from a peer its key is 10. -/
theorem Node.returns_to_left_chain :
    letI := everyBlock
    (0 < config.blockgenDifficultyInit ∧ 0 < config.blockgenTimeExpected ∧
      0 < config.blockgenDifficultyAdjustAfter ∧ 0 < config.blockgenDifficultyAdjustFactorLimit) ∧
    ∃ n n₁ n₂,
      run step (new "localhost" 8332 : Node Text)
        [(tick 0 8000 (by decide) (by decide), .blocksPost (.string "first") 1),
          (.const 10000 (by decide), .blocksPost (.string "second") 1)] = some n ∧
      run step n [(.const 10000 (by decide),
        .receiveAllBlocks (blocksMessage (stampedTexts "other" "second" 0 5000)))] = some n₁ ∧
      run step n₁ [(.const 10000 (by decide),
        .receiveAllBlocks (blocksMessage (stampedTexts "first" "second" 8000 10000)))] = some n₂ ∧
      n₁.blockchain.blocks ≠ n.blockchain.blocks ∧ n₂.blockchain.blocks = n.blockchain.blocks ∧
      n.blockchain.key = some 2 ∧ n₁.blockchain.key = some 4 ∧ n₂.blockchain.key = some 10 := by
  let env := everyBlock
  let n := stampedNode (stampedTexts "first" "second" 8000 10000) (twoStamps 10000 1)
  let n₁ := stampedNode (stampedTexts "other" "second" 0 5000) (twoStamps 5000 2)
  let n₂ := stampedNode (stampedTexts "first" "second" 8000 10000) (twoStamps 10000 5)
  have hfirst : (new "localhost" 8332 : Node Text).step
      (tick 0 8000 (by decide) (by decide), .blocksPost (.string "first") 1) =
      some (stampedNode [Block.first ⟨"first"⟩ 8000] (oneStamp 0)) :=
    step_new_stampedNode "first" (tick 0 8000 (by decide) (by decide)) (by decide)
  have hone : difficultyTarget (.finite (2 * 1)) = some 1 := by decide +kernel
  have hsecond : (stampedNode [Block.first ⟨"first"⟩ 8000] (oneStamp 0)).step
      (.const 10000 (by decide), .blocksPost (.string "second") 1) = some n :=
    step_stampedNode (by decide +kernel) hone (by decide)
  have hother : n.step (.const 10000 (by decide),
      .receiveAllBlocks (blocksMessage (stampedTexts "other" "second" 0 5000))) = some n₁ :=
    step_of_receivedChain
      (receivedChain_stampedTexts (by decide) (by decide) (by decide) (by decide +kernel)
        (by norm_num)) (by decide +kernel) rfl
  have hback : n₁.step (.const 10000 (by decide),
      .receiveAllBlocks (blocksMessage (stampedTexts "first" "second" 8000 10000))) = some n₂ :=
    step_of_receivedChain
      (receivedChain_stampedTexts (by decide) (by decide) (by decide) (by decide +kernel)
        (by norm_num)) (by decide +kernel) rfl
  refine ⟨⟨by decide +kernel, by decide, by decide, by decide +kernel⟩, n, n₁, n₂,
    ?_, ?_, ?_, ?_, rfl, by decide +kernel, by decide +kernel, by decide +kernel⟩
  · rw [run_cons hfirst, run_cons hsecond]
    rfl
  · rw [run_cons hother]
    rfl
  · rw [run_cons hback]
    rfl
  · intro h
    have htexts := congrArg (List.map Block.data) h
    exact absurd htexts (by decide)

end BuenzliCoin
