-- SUMMARY: A node that follows the blocks of another one keeps the same list of unspent outputs.
import BuenzliCoin.Node.Lockstep
import BuenzliCoin.Node.Supply

/-!
# Replicas

In builds with transactions, the two nodes of a pair do not have the same chain: each
links the transactions to outputs that it knew of when it got them. If the blocks are
regular, node B accepts every block of node A even so, and both answer alike.
-/

namespace BuenzliCoin

open CoinHistory NodeData Relation Runs TransactionUnspentOutputs

-- ---------------------------------------------------------------------------
-- Links
-- ---------------------------------------------------------------------------

namespace Transaction

/-- Where an input is found, and what it is worth, is the same in all lists of some coins
    that list it. -/
theorem inputValid_relinked [Env] {coins us : List UTxO} {t : Transaction} {txi : TxI}
    (hnodup : (coins.map UTxO.ref).Nodup) (hsnapshot : t.unspentOutputs.Sublist coins)
    (hus : us.Sublist coins) (hlisted : txi.ref ∈ us.map UTxO.ref) (h : t.InputValid txi) :
    (t.updateUnspentOutputs us).InputValid txi := by
  obtain ⟨utxo, hmem, href⟩ := List.mem_map.mp hlisted
  obtain ⟨utxo', hmem', href'⟩ := List.mem_map.mp (mem_of_inputAddress_ne h.found)
  obtain rfl : utxo = utxo' :=
    List.inj_on_of_nodup_map hnodup (hus.subset hmem) (hsnapshot.subset hmem')
      (href.trans href'.symm)
  have hold := inputAddress_of_mem (hnodup.sublist (hsnapshot.map UTxO.ref)) hmem' href'
  have hnew : (t.updateUnspentOutputs us).inputAddress txi = utxo.output.address :=
    inputAddress_of_mem (hnodup.sublist (hus.map UTxO.ref)) hmem href
  refine ⟨?_, ?_⟩
  · rw [hnew, ← hold]
    exact h.found
  · rw [hnew, ← hold]
    exact h.signed

/-- A transaction that is valid stays so if it is linked to other coins, among which are
    those that it spends. -/
theorem valid_relinked [Env] {coins us : List UTxO} {t : Transaction}
    (hnodup : (coins.map UTxO.ref).Nodup) (hsnapshot : t.unspentOutputs.Sublist coins)
    (hus : us.Sublist coins) (hlisted : ∀ ref ∈ t.refs, ref ∈ us.map UTxO.ref)
    (h : t.valid = .ok ()) : (t.updateUnspentOutputs us).valid = .ok () := by
  unfold valid at h ⊢
  have htype : (t.updateUnspentOutputs us).type = t.type := rfl
  rw [htype]
  cases hkind : t.type with
  | reward =>
    rw [hkind] at h
    exact validReward_eq_ok.mpr (validReward_eq_ok.mp h)
  | standard =>
    rw [hkind] at h
    obtain ⟨hhash, hinputs, hbalance⟩ := validStandard_eq_ok.mp h
    have hlisted : ∀ txi ∈ t.inputs, txi.ref ∈ us.map UTxO.ref :=
      fun txi htxi => hlisted _ (List.mem_map_of_mem htxi)
    refine validStandard_eq_ok.mpr ⟨hhash, fun txi htxi => ?_, ?_⟩
    · exact inputValid_relinked hnodup hsnapshot hus (hlisted txi htxi)
        (hinputs txi htxi)
    · have hamounts : t.inputs.map (fun txi => amountIn us txi.ref) =
          t.inputs.map fun txi => amountIn t.unspentOutputs txi.ref := by
        refine List.map_congr_left fun txi htxi => ?_
        have hfound := mem_of_inputAddress_ne (hinputs txi htxi).found
        exact (amountAt_of_sublist hus hnodup (hlisted txi htxi)).trans
          (amountAt_of_sublist hsnapshot hnodup hfound).symm
      exact hbalance.trans (congrArg (·.sum % 2 ^ 64) hamounts).symm

end Transaction

theorem TransactionUnspentOutputs.updateAll_map_updateUnspentOutputs (us us' : List UTxO)
    (ts : List Transaction) :
    updateAll us (ts.map fun t => t.updateUnspentOutputs us') = updateAll us ts := by
  rw [updateAll, List.foldl_map]
  rfl

theorem TransactionUnspentOutputs.updateAll?_map_updateUnspentOutputs (us us' : List UTxO)
    (ts : List Transaction) :
    updateAll? us (ts.map fun t => t.updateUnspentOutputs us') = updateAll? us ts := by
  rw [updateAll?, List.foldlM_map]
  rfl

/-- A block whose transactions are linked to a list of unspent outputs. -/
def Block.relinked (b : Block TransactionList) (us : List UTxO) : Block TransactionList :=
  { b with data := ⟨b.data.transactions.map fun t => t.updateUnspentOutputs us⟩ }

theorem Block.stored_relinked (b : Block TransactionList) (us : List UTxO) :
    (b.relinked us).stored = b.stored := by
  have hdata : (StoredData.stored (b.relinked us).data : TransactionList) =
      StoredData.stored b.data := by
    simp only [StoredData.stored, relinked, List.map_map]
    rfl
  simp only [stored, hdata]
  rfl

section

variable [Env]

/-- A block of regular transactions stays valid if it is linked to the list of the node. -/
theorem TransactionList.valid_relinked {coins us : List UTxO} {ts : TransactionList}
    {index : UInt64} (hnodup : (coins.map UTxO.ref).Nodup)
    (hsnapshots : ∀ t ∈ ts.transactions, t.unspentOutputs.Sublist coins) (hus : us.Sublist coins)
    (hlisted : ∀ ref ∈ ts.transactions.flatMap Transaction.refs, ref ∈ us.map UTxO.ref)
    (hvalid : ts.valid index = .ok ()) :
    (TransactionList.mk (ts.transactions.map fun t => t.updateUnspentOutputs us)).valid index =
      .ok () := by
  refine valid_linked hvalid fun t ht ht' => ?_
  exact Transaction.valid_relinked hnodup (hsnapshots t ht) hus
    (fun ref href => hlisted ref (List.mem_flatMap.mpr ⟨t, ht, href⟩)) ht'

theorem Block.determineHash_relinked (b : Block TransactionList) (us : List UTxO) :
    (b.relinked us).determineHash = b.determineHash := by
  rw [← determineHash_stored, stored_relinked, determineHash_stored]

omit [Env] in
/-- What a node reads out of a message. -/
theorem Node.receivedBlock_eq_relinked {n : Node TransactionList} {data : Json}
    {b : Block TransactionList} (h : data.find? "block" = some b.toJson) :
    n.receivedBlock data = .ok (b.relinked n.unspentOutputs) := by
  refine receivedBlock_eq_ok.mpr ⟨_, _, h, b.fromJson_toJson, ?_⟩
  have hdata : (link n.members b.stored.data : TransactionList) =
      (b.relinked n.unspentOutputs).data := by
    simp only [link, TransactionMembers.link, Block.stored_data,
      TransactionList.stored_transactions, List.map_map]
    rfl
  rw [hdata]
  rfl

-- ---------------------------------------------------------------------------
-- Rounds
-- ---------------------------------------------------------------------------

/-- A call that has not added a block is regular. -/
theorem Node.regular_of_quiet {n : Node TransactionList} {clock : Clock} {data : Json} {fuel : Nat}
    {reply : Reply TransactionList} (hposted : n.handle clock (.blocksPost data fuel) = some reply)
    (hidle : .broadcastLatestBlock ∉ reply.tasks) : n.Regular (clock, .blocksPost data fuel) := by
  have hadds : ∀ ts, ¬ n.Adds (clock, .blocksPost data fuel) ts := by
    intro ts hadds
    cases hadds with
    | mined hassembled hconstructed =>
      have hassemble : assemble n.members n.blockchain.length data = _ := hassembled
      simp only [handle, handleBlocksPost, hassemble, hconstructed] at hposted
      obtain ⟨members, -, hreply⟩ := Option.bind_eq_some_iff.mp hposted
      cases hreply
      exact hidle (List.mem_singleton_self _)
  refine ⟨?_, ?_, ?_, ?_, ?_⟩
  · intro data' connection b peerId peers hcall
    cases hcall
  · exact fun ts h => absurd h (hadds ts)
  · exact fun ts h => absurd h (hadds ts)
  · exact fun ts h => absurd h (hadds ts)
  · exact fun bc h => absurd h (not_adopts_blocksPost bc)

/-- A request that one of the nodes serves, and what B does about a block that A has
    constructed. The calls of A are regular, and those of both nodes come to an end: the
    loops that erase from their lists and their pools are defined. -/
inductive Pair.LedgerRound (s : Pair TransactionList) : Pair TransactionList → Prop where
  | serveA {request : TransactionRequest} {clock : Clock} {reply : Reply TransactionList}
      (handled : s.a.handle clock (.other request) = some reply) :
      LedgerRound s { s with a := reply.node }
  | serveB {request : TransactionRequest} {clock : Clock} {reply : Reply TransactionList}
      (handled : s.b.handle clock (.other request) = some reply) :
      LedgerRound s { s with b := reply.node }
  | quiet {data : Json} {fuel : Nat} {clock : Clock} {reply : Reply TransactionList}
      {time : TimePoint} (readings : ∀ i, s.time ≤ clock i ∧ clock i ≤ time)
      (posted : s.a.handle clock (.blocksPost data fuel) = some reply)
      (idle : .broadcastLatestBlock ∉ reply.tasks) :
      LedgerRound s { s with a := reply.node, time }
  | broadcast {data : Json} {fuel : Nat} {clock clockB : Clock}
      {reply replyB : Reply TransactionList} {time : TimePoint} {message : Json}
      {connection : Except String Unit} (regular : s.a.Regular (clock, .blocksPost data fuel))
      (readings : ∀ i, s.time ≤ clock i ∧ clock i ≤ time)
      (posted : s.a.handle clock (.blocksPost data fuel) = some reply)
      (task : .broadcastLatestBlock ∈ reply.tasks)
      (formed : reply.node.latestBlockMessage = some message)
      (lag : ∀ i, (clock 0).toInt < (clockB i).toInt + config.blockgenTimeMaxDelta.toInt)
      (received : s.b.handle clockB (.receiveLatestBlock message connection) = some replyB) :
      LedgerRound s { a := reply.node, b := replyB.node, time }

/-- The nodes have the same list of unspent outputs, and the same chain but for the links. -/
structure Pair.SameLedger (s : Pair TransactionList) : Prop where
  blocks : s.b.blockchain.blocks.map Block.stored = s.a.blockchain.blocks.map Block.stored
  unspentOutputs : s.b.unspentOutputs = s.a.unspentOutputs
  tracked : s.a.Tracked
  numbered : Blockchain.Numbered s.a.blockchain.blocks
  timestamps : ∀ b ∈ s.a.blockchain.blocks, 0 ≤ b.timestamp ∧ b.timestamp ≤ s.time

namespace Pair.SameLedger

variable {s s' : Pair TransactionList}

theorem length_eq (h : s.SameLedger) : s.b.blockchain.length = s.a.blockchain.length := by
  have hlength := congrArg List.length h.blocks
  rwa [List.length_map, List.length_map] at hlength

theorem latestBlock?_eq (h : s.SameLedger) :
    s.b.blockchain.latestBlock?.map Block.stored =
      s.a.blockchain.latestBlock?.map Block.stored := by
  rw [Blockchain.latestBlock?, Blockchain.latestBlock?, ← List.getLast?_map, ← List.getLast?_map,
    h.blocks]

/-- B takes the block that A has constructed for the next one. -/
theorem adjoins {clock : Clock} {b : Block TransactionList} (h : s.SameLedger)
    (hδ : 0 < config.blockgenTimeMaxDelta) (hclock : s.time ≤ clock 0)
    (hlinks : Blockchain.Links s.a.blockchain.latestBlock? b) (hstamp : b.timestamp = clock 0)
    (us : List UTxO) : s.b.adjoins (b.relinked us) := by
  have hlatest := h.latestBlock?_eq
  refine Node.adjoins_iff.mpr ⟨?_, ?_⟩
  · intro hnone
    rw [hnone] at hlatest
    exact hlinks.isGenesis (Option.map_eq_none_iff.mp hlatest.symm)
  · intro lastB hlastB
    rw [hlastB, Option.map_some] at hlatest
    obtain ⟨last, hlast, hstored⟩ := Option.map_eq_some_iff.mp hlatest.symm
    obtain ⟨hepoch, hle⟩ := h.timestamps last (List.mem_of_getLast? hlast)
    have hsuccessor : b.isSuccessorOf last := by
      refine hlinks.isSuccessorOf hlast ?_
      rw [hstamp]
      exact TimePoint.lt_of_lt_of_le (TimePoint.sub_lt hepoch hδ) (TimePoint.le_trans hle hclock)
    -- What succeeds what does not depend on the data.
    have hsame : (b.relinked us).isSuccessorOf lastB = b.stored.isSuccessorOf lastB.stored := rfl
    rw [hsame, ← hstored]
    exact hsuccessor

/-- What A has constructed in a regular call: only coins that are listed are spent, and the
    update of the list was defined. -/
theorem constructed {clock : Clock} {data : Json} {fuel : Nat} {reply : Reply TransactionList}
    (h : s.SameLedger) (hregular : s.a.Regular (clock, .blocksPost data fuel))
    (hposted : s.a.handle clock (.blocksPost data fuel) = some reply)
    (htask : .broadcastLatestBlock ∈ reply.tasks) :
    ∃ d b, Blockchain.Constructed s.a.blockchain d clock b reply.node.blockchain ∧
      (∀ t ∈ b.data.transactions, t.unspentOutputs.Sublist (created s.a.blockchain.history)) ∧
      (∀ ref ∈ b.data.transactions.flatMap Transaction.refs,
        ref ∈ s.a.unspentOutputs.map UTxO.ref) ∧
      updateAll? s.a.unspentOutputs b.data.transactions = some reply.node.unspentOutputs := by
  obtain ⟨htasks, -⟩ | ⟨-, d, m, b, hassembled, -, hstep, hmembers⟩ :=
    Node.handleBlocksPost_cases hposted
  · rw [htasks] at htask
    cases htask
  have hupdated : updateAll? s.a.unspentOutputs b.data.transactions =
      some reply.node.unspentOutputs := by
    obtain ⟨us, hus, hrest⟩ := Option.bind_eq_some_iff.mp hmembers
    obtain ⟨pool, -, hrest⟩ := Option.bind_eq_some_iff.mp hrest
    have hlisted : reply.node.unspentOutputs = us :=
      congrArg TransactionMembers.unspentOutputs (Option.some.inj hrest).symm
    obtain ⟨e, he, -⟩ | ⟨address, drawn, -, hkept, -⟩ :=
      TransactionMembers.assemble_cases hassembled
    · cases he
    · rw [hlisted, hstep.data, ← hus, hkept]
      rfl
  have hnext : s.a.step (clock, .blocksPost data fuel) = some reply.node :=
    Node.step_eq_some.mpr ⟨reply, hposted, rfl⟩
  cases Node.historyStep_of_step hregular.skips hnext with
  | same hblocks _ _ =>
    have hgrown := congrArg List.length (hstep.blocks.symm.trans hblocks)
    rw [List.length_append, List.length_singleton] at hgrown
    omega
  | adopted hadopts _ _ => exact absurd hadopts (Node.not_adopts_blocksPost _)
  | @extended b' hadds hblocks _ hlinked _ _ =>
    obtain rfl : b' = b :=
      List.singleton_inj.mp (List.append_cancel_left (hblocks.symm.trans hstep.blocks))
    refine ⟨d, b', hstep, fun t ht => ?_, hregular.spendsListed _ hadds, hupdated⟩
    rcases hlinked t ht with hpooled | hlisted
    · exact h.tracked.pool t hpooled
    · rw [h.tracked.unspentOutputs] at hlisted
      exact hlisted.trans (unspent_sublist _)

/-- B appends the block that A has constructed, if the loops are defined that clean up its
    list and its pool. -/
theorem handle_eq {clock clockB : Clock} {a : Node TransactionList} {d : TransactionList}
    {b : Block TransactionList} {message : Json} {connection : Except String Unit}
    (h : s.SameLedger) (hpow : ¬ Env.proofOfWork) (hδ : 0 < config.blockgenTimeMaxDelta)
    (hclock : s.time ≤ clock 0)
    (hlinked : ∀ t ∈ b.data.transactions, t.unspentOutputs.Sublist (created s.a.blockchain.history))
    (hlisted : ∀ ref ∈ b.data.transactions.flatMap Transaction.refs,
      ref ∈ s.a.unspentOutputs.map UTxO.ref)
    (hstep : Blockchain.Constructed s.a.blockchain d clock b a.blockchain)
    (hformed : a.latestBlockMessage = some message)
    (hlag : ∀ i, (clock 0).toInt < (clockB i).toInt + config.blockgenTimeMaxDelta.toInt) :
    s.b.handle clockB (.receiveLatestBlock message connection) =
      (s.b.ledger.received (b.relinked s.b.unspentOutputs).data).map fun members => {
        node := { s.b with
          blockchain := { s.b.blockchain with
            blocks := s.b.blockchain.blocks ++ [b.relinked s.b.unspentOutputs] }
          members := members }
        answer := .ok .null } := by
  have hstamp : b.timestamp = clock 0 := by
    rw [hstep.eq_nextBlock hpow, Blockchain.nextBlock_timestamp]
  have hlatest : a.blockchain.latestBlock? = some b := by
    rw [Blockchain.latestBlock?, hstep.blocks, List.getLast?_concat]
  have hdecoded : s.b.receivedBlock message = .ok (b.relinked s.b.unspentOutputs) := by
    obtain ⟨b', hb', hfind⟩ := holdsLatest_of_latestBlockMessage hformed
    rw [hlatest] at hb'
    cases hb'
    exact Node.receivedBlock_eq_relinked hfind
  -- The list of B is part of what A has created, as the links of A are.
  have hsub : s.b.unspentOutputs.Sublist (created s.a.blockchain.history) := by
    rw [h.unspentOutputs, h.tracked.unspentOutputs]
    exact unspent_sublist _
  have hdata : BlockData.valid (b.relinked s.b.unspentOutputs).data b.index = .ok () :=
    TransactionList.valid_relinked h.tracked.sound.createdNodup hlinked hsub
      (h.unspentOutputs ▸ hlisted) hstep.dataValid
  have hvalid : ∀ i, (b.relinked s.b.unspentOutputs).valid (clockB i) = .ok () := by
    intro i
    refine Block.valid_eq_ok.mpr ⟨hdata, ?_, hstep.hash.trans (b.determineHash_relinked _).symm⟩
    have htime := TimePoint.sub_lt_of_toInt_lt (clock.sinceEpoch 0) hδ (hlag i)
    rw [← hstamp] at htime
    exact htime
  have hindex : (b.relinked s.b.unspentOutputs).index.toNat = s.b.blockchain.length := by
    rw [h.length_eq]
    exact h.numbered.index_of_links hstep.room hstep.links
  have hroom : s.b.blockchain.blocks.length < Env.maxSize := by
    have hlength := h.length_eq
    rw [Blockchain.length, Blockchain.length] at hlength
    rw [hlength]
    exact hstep.room
  have hadjoins := h.adjoins hδ hclock hstep.links hstamp s.b.unspentOutputs
  exact Node.handleReceiveLatestBlock_eq_of_valid hpow hdecoded hvalid hindex hadjoins hroom

/-- The nodes go on with a block each. -/
theorem broadcast {clock clockB : Clock} {data : Json} {fuel : Nat}
    {reply replyB : Reply TransactionList} {time : TimePoint} {message : Json}
    {connection : Except String Unit} (h : s.SameLedger) (hpow : ¬ Env.proofOfWork)
    (hδ : 0 < config.blockgenTimeMaxDelta) (hregular : s.a.Regular (clock, .blocksPost data fuel))
    (hclock : ∀ i, s.time ≤ clock i ∧ clock i ≤ time)
    (hposted : s.a.handle clock (.blocksPost data fuel) = some reply)
    (htask : .broadcastLatestBlock ∈ reply.tasks)
    (hformed : reply.node.latestBlockMessage = some message)
    (hlag : ∀ i, (clock 0).toInt < (clockB i).toInt + config.blockgenTimeMaxDelta.toInt)
    (hreceived : s.b.handle clockB (.receiveLatestBlock message connection) = some replyB) :
    SameLedger { a := reply.node, b := replyB.node, time } := by
  have htracked := h.tracked.step hregular (Node.step_eq_some.mpr ⟨reply, hposted, rfl⟩)
  obtain ⟨d, b, hstep, hlinked, hlisted, hupdated⟩ := h.constructed hregular hposted htask
  rw [h.handle_eq hpow hδ (hclock 0).1 hlinked hlisted hstep hformed hlag] at hreceived
  obtain ⟨members, hmembers, rfl⟩ := Option.map_eq_some_iff.mp hreceived
  have hutxosB : members.unspentOutputs = updateAll s.b.unspentOutputs b.data.transactions :=
    (TransactionMembers.received_eq_some hmembers).1.trans
      (updateAll_map_updateUnspentOutputs _ _ _)
  refine ⟨?_, ?_, htracked, h.numbered.added hstep.toAdded, ?_⟩
  · simp only [hstep.blocks, List.map_append, List.map_singleton, Block.stored_relinked, h.blocks]
  · rw [h.unspentOutputs, updateAll_of_updateAll? hupdated] at hutxosB
    exact hutxosB
  · refine Blockchain.forall_mem_added (P := fun b => 0 ≤ b.timestamp ∧ b.timestamp ≤ time)
      hstep.blocks ?_ ?_
    · intro b hb
      exact ⟨(h.timestamps b hb).1, TimePoint.le_trans (h.timestamps b hb).2
        (TimePoint.le_trans (hclock 0).1 (hclock 0).2)⟩
    · rw [hstep.eq_nextBlock hpow, Blockchain.nextBlock_timestamp]
      exact ⟨clock.sinceEpoch 0, (hclock 0).2⟩

/-- If its pool is empty, B always goes on. -/
theorem exists_reply {clock clockB : Clock} {data : Json} {fuel : Nat}
    {reply : Reply TransactionList} {message : Json} (h : s.SameLedger)
    (connection : Except String Unit) (hpow : ¬ Env.proofOfWork)
    (hδ : 0 < config.blockgenTimeMaxDelta)
    (hregular : s.a.Regular (clock, .blocksPost data fuel)) (hclock : s.time ≤ clock 0)
    (hposted : s.a.handle clock (.blocksPost data fuel) = some reply)
    (htask : .broadcastLatestBlock ∈ reply.tasks)
    (hformed : reply.node.latestBlockMessage = some message)
    (hlag : ∀ i, (clock 0).toInt < (clockB i).toInt + config.blockgenTimeMaxDelta.toInt)
    (hpool : s.b.unconfirmedPool = []) :
    ∃ replyB, s.b.handle clockB (.receiveLatestBlock message connection) = some replyB ∧
      replyB.node.unconfirmedPool = [] := by
  obtain ⟨d, b, hstep, hlinked, hlisted, hupdated⟩ := h.constructed hregular hposted htask
  rw [h.handle_eq hpow hδ hclock hlinked hlisted hstep hformed hlag]
  have hreceived : s.b.ledger.received (b.relinked s.b.unspentOutputs).data =
      some ⟨reply.node.unspentOutputs, []⟩ := by
    have hlistB : updateAll? s.b.ledger.unspentOutputs
        (b.relinked s.b.unspentOutputs).data.transactions = some reply.node.unspentOutputs := by
      rw [← hupdated, ← h.unspentOutputs]
      exact updateAll?_map_updateUnspentOutputs _ _ _
    have hpoolB : s.b.ledger.unconfirmedPool = [] := hpool
    simp only [TransactionMembers.received, hlistB, hpoolB,
      TransactionUnconfirmedPool.foldlM_remove?_nil, bind, Option.bind_some]
    rfl
  rw [hreceived]
  exact ⟨_, rfl, rfl⟩

theorem round (h : s.SameLedger) (hpow : ¬ Env.proofOfWork)
    (hδ : 0 < config.blockgenTimeMaxDelta) (hround : s.LedgerRound s') : s'.SameLedger := by
  cases hround with
  | @serveA request clock reply hhandled =>
    obtain ⟨hblockchain, hutxos⟩ := Node.handle_other_unchanged hhandled
    have htracked := h.tracked.step Node.RegularSums.other.toRegular
      (Node.step_eq_some.mpr ⟨reply, hhandled, rfl⟩)
    refine ⟨?_, h.unspentOutputs.trans hutxos.symm, htracked, hblockchain ▸ h.numbered, ?_⟩
    · simp only [hblockchain, h.blocks]
    · simp only [hblockchain]
      exact h.timestamps
  | serveB hhandled =>
    obtain ⟨hblockchain, hutxos⟩ := Node.handle_other_unchanged hhandled
    refine ⟨?_, hutxos.trans h.unspentOutputs, h.tracked, h.numbered, h.timestamps⟩
    simp only [hblockchain, h.blocks]
  | @quiet data fuel clock reply time hclock hposted hidle =>
    have hregular := Node.regular_of_quiet hposted hidle
    have hnext : s.a.step (clock, .blocksPost data fuel) = some reply.node :=
      Node.step_eq_some.mpr ⟨reply, hposted, rfl⟩
    obtain ⟨-, -, hsame, r, hassembled⟩ | ⟨htasks, -⟩ := Node.handleBlocksPost_cases hposted
    · have hblockchain := hsame hpow
      have hutxos : reply.node.unspentOutputs = s.a.unspentOutputs := by
        obtain ⟨e, -, hledger⟩ | ⟨address, drawn, -, hutxos, -⟩ :=
          TransactionMembers.assemble_cases hassembled
        · exact congrArg TransactionMembers.unspentOutputs hledger
        · exact hutxos
      refine ⟨?_, h.unspentOutputs.trans hutxos.symm, h.tracked.step hregular hnext,
        hblockchain ▸ h.numbered, ?_⟩
      · simp only [hblockchain, h.blocks]
      · simp only [hblockchain]
        intro b hb
        exact ⟨(h.timestamps b hb).1, TimePoint.le_trans (h.timestamps b hb).2
          (TimePoint.le_trans (hclock 0).1 (hclock 0).2)⟩
    · rw [htasks] at hidle
      exact absurd (List.mem_singleton_self _) hidle
  | broadcast hregular hclock hposted htask hformed hlag hreceived =>
    exact h.broadcast hpow hδ hregular hclock hposted htask hformed hlag hreceived

end Pair.SameLedger

theorem Pair.sameLedger_new (hostA hostB : String) (portA portB : UInt16) (t : TimePoint) :
    SameLedger ⟨.new hostA portA, .new hostB portB, t⟩ :=
  ⟨rfl, rfl, Node.tracked_new hostA portA, Blockchain.numbered_nil,
    fun _ hb => absurd hb List.not_mem_nil⟩

/-- Two nodes that start with nothing give the same answers to `GET /blocks` and to
    `GET /transactions/unspent` after every round. -/
theorem Pair.ledger_eq_of_rounds {hostA hostB : String} {portA portB : UInt16} {t : TimePoint}
    {s : Pair TransactionList} (hpow : ¬ Env.proofOfWork) (hδ : 0 < config.blockgenTimeMaxDelta)
    (hrounds : ReflTransGen LedgerRound ⟨.new hostA portA, .new hostB portB, t⟩ s) :
    s.b.blockchain.toJson = s.a.blockchain.toJson ∧ s.b.unspentOutputs = s.a.unspentOutputs := by
  have hsame : s.SameLedger := by
    induction hrounds with
    | refl => exact sameLedger_new hostA hostB portA portB t
    | tail _ hround ih => exact ih.round hpow hδ hround
  refine ⟨?_, hsame.unspentOutputs⟩
  have hjson : ∀ bs : List (Block TransactionList),
      bs.map Block.toJson = (bs.map Block.stored).map Block.toJson := by
    intro bs
    rw [List.map_map]
    exact List.map_congr_left fun b _ => b.toJson_stored.symm
  rw [Blockchain.toJson, Blockchain.toJson, hjson, hsame.blocks, ← hjson]

end

/-! ## A replica of a ledger with a transaction -/

/-- Alice mines, spends the reward, and mines again, and B follows. -/
theorem Pair.ledger_eq_of_rounds_spending :
    letI := plainBuild
    ∃ s : Pair TransactionList,
      ReflTransGen LedgerRound ⟨.new "localhost" 8332, .new "bob" 8333, 0⟩ s ∧
      s.a.blockchain.transactions = [aliceReward, Transaction.reward "alice" 1,
        (spending 1).updateUnspentOutputs [aliceCoin]] ∧
      s.b.blockchain.toJson = s.a.blockchain.toJson ∧ s.b.unspentOutputs = s.a.unspentOutputs := by
  let env := plainBuild
  have hdefined : (minedSpending 1).isSome := by decide +kernel
  obtain ⟨hfirst, -, hthird⟩ :=
    (everyStep_spendingRun_iff (by decide) hdefined).mp spendingRun_regular
  obtain ⟨m, hm⟩ := Option.isSome_iff_exists.mp hdefined
  have hmined : (afterSpending 1).handle .epoch (.blocksPost aliceMines 0) = some _ :=
    handle_minedSpending (by decide) hm
  have hskew : ∀ i, (Clock.epoch 0).toInt <
      (Clock.epoch i).toInt + config.blockgenTimeMaxDelta.toInt :=
    fun _ => show (0 : Int) < 0 + 60000 by decide
  have hclock := Clock.const_between (t := 0) (by decide) (Int64.le_refl 0) (Int64.le_refl 0)
  have hstart := sameLedger_new "localhost" "bob" 8332 8333 0
  obtain ⟨replyB, hreceived, hpool⟩ := hstart.exists_reply (.ok ()) (by decide)
    (by decide) hfirst.toRegular (hclock 0).1 handle_reward (List.mem_singleton_self _) rfl hskew
    rfl
  have hone := LedgerRound.broadcast hfirst.toRegular hclock handle_reward
    (List.mem_singleton_self _) rfl hskew hreceived
  have hsame := hstart.round (by decide) (by decide) hone
  have htwo := LedgerRound.serveA (s := ⟨afterReward, replyB.node, 0⟩)
    (handle_spending (k := 1) (by decide))
  have hsame' := hsame.round (by decide) (by decide) htwo
  have hformed : (afterMining 1 m).latestBlockMessage = some _ :=
    Option.map_eq_some_iff.mpr ⟨_, List.getLast?_concat, rfl⟩
  obtain ⟨replyB', hreceived', -⟩ := hsame'.exists_reply (.ok ()) (by decide)
    (by decide) hthird.toRegular (hclock 0).1 hmined (List.mem_singleton_self _) hformed hskew hpool
  have hthree := LedgerRound.broadcast hthird.toRegular hclock hmined (List.mem_singleton_self _)
    hformed hskew hreceived'
  have hrounds := ((ReflTransGen.single hone).tail htwo).tail hthree
  exact ⟨_, hrounds, rfl, ledger_eq_of_rounds (by decide) (by decide) hrounds⟩

end BuenzliCoin
