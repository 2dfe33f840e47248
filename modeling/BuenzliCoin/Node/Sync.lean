-- SUMMARY: The list of unspent outputs of a node against the transactions of its chain.
import BuenzliCoin.Ledger.Validation
import BuenzliCoin.Node.Ledger

namespace BuenzliCoin

open Runs TransactionUnspentOutputs

namespace Node

variable [Env]

omit [Env] in
/-- The list of unspent outputs is what `blockchain_setup` would make of the
    chain. -/
def InSync (n : Node TransactionList) : Prop :=
  n.unspentOutputs = updateAll [] n.blockchain.transactions

/-- A call that does not receive a valid block ahead of the chain, or one whose
    transactions leave the list of unspent outputs as it is. -/
def SkipsHarmlessly (n : Node TransactionList) (input : Clock × Call TransactionList) : Prop :=
  ∀ data connection b peerId peers, input.2 = .receiveLatestBlock data connection →
    n.judge data input.1 connection = .ok (.requestAll b peerId peers) →
    updateAll n.unspentOutputs b.data.transactions = n.unspentOutputs

theorem inSync_new (host : String) (port : UInt16) :
    (new host port : Node TransactionList).InSync := rfl

omit [Env] in
theorem InSync.of_blocks {n n' : Node TransactionList} (h : n.InSync)
    (hblocks : n'.blockchain.blocks = n.blockchain.blocks)
    (hutxos : n'.unspentOutputs = n.unspentOutputs) : n'.InSync := by
  rw [InSync, hutxos, Blockchain.transactions_congr hblocks]
  exact h

omit [Env] in
/-- A block that is appended goes through the list of unspent outputs. -/
theorem InSync.concat {n n' : Node TransactionList} {b : Block TransactionList} (h : n.InSync)
    (hblocks : n'.blockchain.blocks = n.blockchain.blocks ++ [b])
    (hutxos : n'.unspentOutputs = updateAll n.unspentOutputs b.data.transactions) : n'.InSync := by
  rw [InSync, hutxos, h, Blockchain.transactions_concat hblocks, updateAll_append]

theorem InSync.step {n n' : Node TransactionList} {input : Clock × Call TransactionList}
    (h : n.InSync) (hskip : ∀ data connection b peerId peers,
      input.2 = .receiveLatestBlock data connection →
      n.judge data input.1 connection ≠ .ok (.requestAll b peerId peers))
    (hstep : n.step input = some n') : n'.InSync := by
  obtain ⟨clock, call⟩ := input
  obtain ⟨reply, hhandle, rfl⟩ := step_eq_some.mp hstep
  cases handle_ledgerStep hhandle with
  | idle hblocks hutxos hpool => exact h.of_blocks hblocks hutxos
  | pooled hlinked hblocks hutxos hpool => exact h.of_blocks hblocks hutxos
  | mined hassembled hconstructed hmined hledger =>
    obtain ⟨e, herror, -⟩ | ⟨address, drawn, hts, hutxos, -⟩ :=
      TransactionMembers.assemble_cases hassembled
    · cases herror
    · apply h.concat hmined.blocks
      rw [unspentOutputs, (TransactionMembers.mined_eq_some hledger).1, hmined.data, hutxos]
      rfl
  | appended hjudged happended hstep hledger =>
    exact h.concat hstep.blocks (TransactionMembers.received_eq_some hledger).1
  | skipped hjudged hblocks hledger => exact absurd hjudged (hskip _ _ _ _ _ rfl)
  | replaced hreceived hexceeds hledger =>
    exact congrArg TransactionMembers.unspentOutputs (TransactionMembers.setup_eq_some hledger)

/-- One call on a node that is in sync. -/
theorem InSync.step_iff {n n' : Node TransactionList} {input : Clock × Call TransactionList}
    (h : n.InSync) (hstep : n.step input = some n') : n'.InSync ↔ n.SkipsHarmlessly input := by
  obtain ⟨clock, call⟩ := input
  by_cases hskip : ∃ data connection b peerId peers, call = .receiveLatestBlock data connection ∧
      n.judge data clock connection = .ok (.requestAll b peerId peers)
  · obtain ⟨data, connection, b, peerId, peers, rfl, hjudged⟩ := hskip
    obtain ⟨reply, hhandle, rfl⟩ := step_eq_some.mp hstep
    obtain ⟨hblockchain, hreceived⟩ := handleReceiveLatestBlock_requestAll hjudged hhandle
    have hutxos : reply.node.unspentOutputs = updateAll n.unspentOutputs b.data.transactions :=
      (TransactionMembers.received_eq_some hreceived).1
    rw [InSync, hutxos, hblockchain]
    constructor
    · intro hinSync data' connection' b' peerId' peers' hcall hjudged'
      cases hcall
      rw [hjudged] at hjudged'
      cases hjudged'
      exact hinSync.trans h.symm
    · intro hharmless
      exact (hharmless _ _ _ _ _ rfl hjudged).trans h
  · constructor
    · intro _ data connection b peerId peers hcall hjudged
      exact absurd ⟨data, connection, b, peerId, peers, hcall, hjudged⟩ hskip
    · intro _
      refine h.step ?_ hstep
      intro data connection b peerId peers hcall hjudged
      exact hskip ⟨data, connection, b, peerId, peers, hcall, hjudged⟩

/-- A node stays in sync throughout a run exactly if no call of the run takes
    the transactions of a block that it does not append into the list. -/
theorem everyState_inSync_iff (host : String) (port : UInt16)
    (inputs : List (Clock × Call TransactionList)) :
    EveryState step InSync (new host port) inputs ↔
      EveryStep step SkipsHarmlessly (new host port) inputs :=
  everyState_iff_everyStep (fun _ _ _ h hstep => h.step_iff hstep) (inSync_new host port)

end Node

/-! ## A block ahead of the chain -/

/-- A block with index 1 and no predecessor, which pays a reward. -/
def strayBlock : Block TransactionList :=
  letI := plainBuild
  Block.hashed {
    data := ⟨[Transaction.reward "mallory" 1]⟩
    timestamp := 0
    nonce := 0
    index := 1
    hashPrev := none
    hash := ⟨[]⟩ }

def strayMessage : Json :=
  .object [("block", strayBlock.toJson),
    ("origin", .object [("host", .string "localhost"), ("port", .numberUnsigned 8333)])]

/-- The stray block as a node with these members reads it. -/
def linkedStrayBlock (m : TransactionMembers) : Block TransactionList :=
  { strayBlock with data := m.link strayBlock.data }

/-- The snapshots are not hashed. -/
theorem determineHash_linkedStrayBlock [Env] (m : TransactionMembers) :
    (linkedStrayBlock m).determineHash = strayBlock.determineHash := by
  rw [← Block.determineHash_stored, ← strayBlock.determineHash_stored]
  rfl

/-- A node whose chain is empty asks for the whole chain. -/
theorem Node.judge_strayMessage {n : Node TransactionList} {connection : Except String Unit}
    {peerId : Nat} {peers : WebSocketPeers} (hblocks : n.blockchain.blocks = []) :
    letI := plainBuild
    n.requestFrom strayMessage connection = .ok (peerId, peers) →
      n.judge strayMessage .epoch connection =
        .ok (.requestAll (linkedStrayBlock n.ledger) peerId peers) := by
  let env := plainBuild
  intro hrequest
  refine judge_eq_ok.mpr ⟨linkedStrayBlock n.ledger, ?_, ?_, .inl ⟨?_, _, _, hrequest, rfl⟩⟩
  · exact receivedBlock_eq_ok.mpr ⟨_, _, rfl, strayBlock.fromJson_toJson, rfl⟩
  · have hdata : strayBlock.data.valid 1 = .ok () :=
      TransactionList.valid_of_reward (by decide) (by simp)
    have hinputs : ∀ t ∈ strayBlock.data.transactions, t.inputs = [] := by decide
    have htime : (0 : TimePoint) - config.blockgenTimeMaxDelta < 0 := by decide
    exact Block.valid_eq_ok.mpr ⟨TransactionList.valid_updateUnspentOutputs hdata hinputs _, htime,
      (determineHash_linkedStrayBlock n.ledger).symm⟩
  · rw [Blockchain.length, hblocks]
    exact Nat.one_pos

/-- A node whose chain stays empty lists the reward of the stray block. -/
theorem Node.not_inSync_of_strayMessage :
    letI := plainBuild
    ∃ n : Node TransactionList,
      (new "localhost" 8332).step
        (.epoch, .receiveLatestBlock strayMessage (.ok ())) = some n ∧
      n.blockchain.blocks = [] ∧ n.unspentOutputs.length = 1 ∧ ¬ n.InSync := by
  let env := plainBuild
  have hjudge : (new "localhost" 8332 : Node TransactionList).judge strayMessage .epoch (.ok ()) =
      _ := judge_strayMessage rfl rfl
  have hhandle := handleReceiveLatestBlock_of_requestAll hjudge (by rfl)
  refine ⟨_, step_eq_some.mpr ⟨_, hhandle, rfl⟩, rfl, rfl, ?_⟩
  intro hinSync
  have hlength := congrArg List.length hinSync
  exact absurd hlength (by decide)

end BuenzliCoin
