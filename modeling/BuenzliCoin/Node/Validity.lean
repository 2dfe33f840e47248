-- SUMMARY: The chain of a running node is valid at every later time.
import BuenzliCoin.Chain.Validity
import BuenzliCoin.Node.Builds
import BuenzliCoin.Node.Run

namespace BuenzliCoin

open NodeData

namespace Node

variable {T : Type} [NodeData T] [Env]

/-- A call keeps the chain valid, whichever way blocks enter it. -/
theorem ChainStep.validFrom {n : Node T} {clock : Clock} {call : Call T} {bc : Blockchain T}
    {t t' : TimePoint} (hδ : 0 < config.blockgenTimeMaxDelta) (h : n.blockchain.ValidFrom t)
    (hclock : ∀ i, t ≤ clock i ∧ clock i ≤ t') (hstep : ChainStep n clock call bc) :
    bc.ValidFrom t' := by
  have hle : t ≤ t' := TimePoint.le_trans (hclock 0).1 (hclock 0).2
  cases hstep with
  | kept hblocks hsame => exact (h.mono hle).congr hblocks
  | constructed hstep => exact h.constructed hδ hclock hstep
  | appended hjudged hstep =>
    obtain ⟨-, -, -, hadjoins⟩ := judge_append hjudged
    obtain ⟨hgenesis, hsuccessor⟩ := adjoins_iff.mp hadjoins
    have hvalid := Block.valid_mono hstep.valid (hclock 1).2
    exact (h.mono hle).concat hstep.blocks hvalid hgenesis hsuccessor
  | replaced hreceived hkey =>
    obtain ⟨j, -, -, hvalid⟩ := receivedChain_eq_ok.mp hreceived
    exact Blockchain.validFrom_of_valid hvalid fun i => (hclock _).2

theorem ReachableBy.validFrom {n : Node T} {t : TimePoint} (hδ : 0 < config.blockgenTimeMaxDelta)
    (hn : n.ReachableBy t) : n.blockchain.ValidFrom t := by
  refine hn.induction (P := fun t n => n.blockchain.ValidFrom t) ?_ ?_
  · intro host port t₀
    exact Blockchain.validFrom_new t₀
  · rintro s s' - h ⟨call, clock, reply, -, hclock, hhandle, hnode⟩
    rw [← hnode]
    exact (handle_chainStep hhandle).validFrom hδ h hclock

theorem ChainStep.numbered {n : Node T} {clock : Clock} {call : Call T} {bc : Blockchain T}
    (hstep : ChainStep n clock call bc) (h : Blockchain.Numbered n.blockchain.blocks) :
    Blockchain.Numbered bc.blocks :=
  hstep.blocks_induction h Blockchain.numbered_nil fun _ _ _ hbc hadded => hbc.added hadded

theorem ReachableBy.numbered {n : Node T} {t : TimePoint} (hn : n.ReachableBy t) :
    Blockchain.Numbered n.blockchain.blocks := by
  refine hn.induction (P := fun _ n => Blockchain.Numbered n.blockchain.blocks) ?_ ?_
  · intro host port t₀
    exact Blockchain.numbered_nil
  · rintro s s' - h ⟨call, clock, reply, -, -, hhandle, hnode⟩
    rw [← hnode]
    exact (handle_chainStep hhandle).numbered h

theorem ReachableBy.linked {n : Node T} {t : TimePoint} (hn : n.ReachableBy t) :
    Blockchain.Linked n.blockchain.blocks := by
  refine hn.induction (P := fun _ n => Blockchain.Linked n.blockchain.blocks) ?_ ?_
  · intro host port t₀
    exact Blockchain.linked_nil
  · rintro s s' - h ⟨call, clock, reply, -, -, hhandle, hnode⟩
    rw [← hnode]
    exact (handle_chainStep hhandle).blocks_induction h Blockchain.linked_nil
      fun _ _ _ hbc hadded => hbc.added hadded

/-- Where nothing is mined, a block that a call adds is as the call has checked it. -/
theorem ChainStep.blocks_valid {n : Node T} {clock : Clock} {call : Call T} {bc : Blockchain T}
    {t t' : TimePoint} (hpow : ¬ Env.proofOfWork) (hstep : ChainStep n clock call bc)
    (h : ∀ b ∈ n.blockchain.blocks, b.valid t = .ok ()) (hclock : ∀ i, t ≤ clock i ∧ clock i ≤ t') :
    ∀ b ∈ bc.blocks, b.valid t' = .ok () := by
  have hlater : ∀ b ∈ n.blockchain.blocks, b.valid t' = .ok () :=
    fun b hb => Block.valid_mono (h b hb) (TimePoint.le_trans (hclock 0).1 (hclock 0).2)
  cases hstep with
  | kept hblocks hsame =>
    rw [hblocks]
    exact hlater
  | constructed hstep =>
    exact Blockchain.forall_mem_added hstep.blocks hlater
      (Block.valid_mono (hstep.block_valid hpow) (hclock 1).2)
  | appended hjudged hstep =>
    exact Blockchain.forall_mem_added hstep.blocks hlater
      (Block.valid_mono hstep.valid (hclock 1).2)
  | replaced hreceived hkey =>
    obtain ⟨j, -, -, hvalid⟩ := receivedChain_eq_ok.mp hreceived
    exact (Blockchain.validFrom_of_valid hvalid fun i => (hclock _).2).blocks

theorem ReachableBy.blocks_valid {n : Node T} {t : TimePoint} (hpow : ¬ Env.proofOfWork)
    (hn : n.ReachableBy t) : ∀ b ∈ n.blockchain.blocks, b.valid t = .ok () := by
  refine hn.induction (P := fun t n => ∀ b ∈ n.blockchain.blocks, b.valid t = .ok ()) ?_ ?_
  · intro host port t₀ b hb
    cases hb
  · rintro s s' - h ⟨call, clock, reply, -, hclock, hhandle, hnode⟩
    rw [← hnode]
    exact (handle_chainStep hhandle).blocks_valid hpow h hclock

/-- A block that adjoins the chain may follow its latest block. -/
theorem links_of_adjoins {n : Node T} {b : Block T} (h : n.adjoins b) :
    Blockchain.Links n.blockchain.latestBlock? b := by
  obtain ⟨hgenesis, hsuccessor⟩ := adjoins_iff.mp h
  cases hlast : n.blockchain.latestBlock? with
  | none => exact Block.isGenesis_iff.mp (hgenesis hlast)
  | some last => exact (Block.isSuccessorOf_iff.mp (hsuccessor last hlast)).2

/-- Receiving the block that comes next in a build that checks no work. -/
theorem handleReceiveLatestBlock_eq_of_valid {n : Node T} {data : Json} {clock : Clock}
    {connection : Except String Unit} {b : Block T} (hpow : ¬ Env.proofOfWork)
    (hb : n.receivedBlock data = .ok b) (hvalid : ∀ i, b.valid (clock i) = .ok ())
    (hindex : b.index.toNat = n.blockchain.length) (hadjoins : n.adjoins b)
    (hroom : n.blockchain.blocks.length < Env.maxSize) :
    n.handle clock (.receiveLatestBlock data connection) =
      (received n.members b.data).map fun members => {
        node := { n with
          blockchain := { n.blockchain with blocks := n.blockchain.blocks ++ [b] }
          members }
        answer := .ok .null } := by
  have hjudge : n.judge data clock connection = .ok (.append b) := by
    refine judge_eq_ok.mpr ⟨b, hb, hvalid 0, .inr (.inl ⟨hindex, ?_⟩)⟩
    rw [if_pos hadjoins]
  have hlinks := links_of_adjoins hadjoins
  have happend := Blockchain.appendNextBlock_of_valid hpow hlinks (hvalid 1) hroom
  simp only [handle, handleReceiveLatestBlock, hjudge, happend]
  cases received n.members b.data <;> rfl

/-- When all goes well. -/
theorem handleReceiveLatestBlock_of_valid {n : Node T} {data : Json} {clock : Clock}
    {connection : Except String Unit} {b : Block T} {members : Members T}
    (hpow : ¬ Env.proofOfWork) (hb : n.receivedBlock data = .ok b)
    (hvalid : ∀ i, b.valid (clock i) = .ok ()) (hindex : b.index.toNat = n.blockchain.length)
    (hadjoins : n.adjoins b) (hroom : n.blockchain.blocks.length < Env.maxSize)
    (hreceived : received n.members b.data = some members) :
    n.handle clock (.receiveLatestBlock data connection) = some {
      node := { n with
        blockchain := { n.blockchain with blocks := n.blockchain.blocks ++ [b] }
        members }
      answer := .ok .null } := by
  rw [handleReceiveLatestBlock_eq_of_valid hpow hb hvalid hindex hadjoins hroom, hreceived]
  rfl

/-- Without `PROOF_OF_WORK` a text that is received is handled to the end. -/
theorem stepsDefined_receiveLatestBlock (hpow : ¬ Env.proofOfWork) (n : Node Text)
    (clock : Clock) (data : Json) (connection : Except String Unit) :
    n.StepsDefined clock (.receiveLatestBlock data connection) := by
  refine fun b => ⟨fun _ => ⟨?_, fun _ => rfl⟩, fun _ _ _ => rfl⟩
  exact n.blockchain.appendNextBlock_ne_crash hpow b (clock 1)

/-- The chain of a node is empty or valid, from its last call on. -/
theorem ReachableBy.eq_nil_or_valid {n : Node T} {t : TimePoint}
    (hδ : 0 < config.blockgenTimeMaxDelta) (hn : n.ReachableBy t) :
    n.blockchain.blocks = [] ∨
      ∀ clock : Clock, (∀ i, t ≤ clock i) → n.blockchain.valid clock = .ok () := by
  by_cases hne : n.blockchain.blocks = []
  · exact .inl hne
  · exact .inr fun clock hclock => (hn.validFrom hδ).valid hne hclock

end Node

/-- Two blocks, the second of them a second later. -/
theorem Node.ReachableBy.eq_nil_or_valid_two_blocks :
    letI := plainBuild
    ∃ n : Node Text, n.blockchain.blocks.map Block.timestamp = [0, 1000] ∧ n.ReachableBy 1000 ∧
      (n.blockchain.blocks = [] ∨
        ∀ clock : Clock, (∀ i, 1000 ≤ clock i) → n.blockchain.valid clock = .ok ()) := by
  let env := plainBuild
  let first : Node Text := {
    Node.new "localhost" 8332 with
    blockchain := ⟨[Blockchain.new.nextBlock ⟨"first"⟩ 0], .fresh⟩ }
  have hfirst : (Node.new "localhost" 8332 : Node Text).handle .epoch
      (.blocksPost (.string "first") 0) = some ⟨first, .ok .null, [.broadcastLatestBlock]⟩ :=
    handleBlocksPost_of_valid (by decide) rfl rfl rfl (by decide) (by decide)
  have hn := (ReachableBy.new "localhost" 8332 0).handle (by decide) (by decide) hfirst
  have hsecond : first.handle (.const 1000 (by decide)) (.blocksPost (.string "second") 0) =
      some _ :=
    handleBlocksPost_of_valid (by decide) rfl rfl rfl (by decide) (show 1 < 2 ^ 32 by decide)
  have hn' := hn.handle (by decide) (by decide) hsecond
  exact ⟨_, rfl, hn', ReachableBy.eq_nil_or_valid (by decide) hn'⟩

end BuenzliCoin
