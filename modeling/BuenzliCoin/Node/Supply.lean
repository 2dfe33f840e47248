-- SUMMARY: Single spending and bounded supply, along runs that keep clear of the gaps in validation.
import BuenzliCoin.Node.Sync

/-!
# Single spending and supply

The chain of a node, read as a history of coins. Validation looks at one
transaction and one snapshot at a time. What it does not look at is collected in
`Regular`; in a run all of whose calls are regular, the list of unspent outputs
is what the history leaves unspent, and no output is spent twice.
-/

namespace BuenzliCoin

open CoinHistory Runs TransactionUnspentOutputs

-- ---------------------------------------------------------------------------
-- Histories
-- ---------------------------------------------------------------------------

theorem created_map_transfer (ts : List Transaction) :
    created (ts.map Transaction.transfer) = ts.flatMap Transaction.newUnspentOutputs := by
  simp [created, List.flatMap_map]

theorem spent_map_transfer (ts : List Transaction) :
    spent (ts.map Transaction.transfer) = ts.flatMap Transaction.refs := by
  simp [spent, List.flatMap_map]

/-- The coins that the transactions of a chain spend and create. -/
def Blockchain.history (bc : Blockchain TransactionList) : List (Transfer OutputRef UTxO) :=
  bc.transactions.map Transaction.transfer

theorem Blockchain.history_concat {bc bc' : Blockchain TransactionList} {b : Block TransactionList}
    (h : bc'.blocks = bc.blocks ++ [b]) :
    bc'.history = bc.history ++ b.data.transactions.map Transaction.transfer := by
  rw [history, transactions_concat h, List.map_append]
  rfl

namespace Node

variable [Env]

-- ---------------------------------------------------------------------------
-- Regular calls
-- ---------------------------------------------------------------------------

/-- What the handlers do not check about the block or the chain that a call
    brings in. -/
structure Regular (n : Node TransactionList) (input : Clock × Call TransactionList) : Prop where
  /-- A block ahead of the chain leaves the list of unspent outputs as it is. -/
  skips : n.SkipsHarmlessly input
  /-- No two inputs of a block name the same output. -/
  spendsOnce : ∀ ts, n.Adds input ts → (ts.transactions.flatMap Transaction.refs).Nodup
  /-- The inputs of a block, which may come from the pool, name outputs that are
      still listed. -/
  spendsListed : ∀ ts, n.Adds input ts →
    ∀ ref ∈ ts.transactions.flatMap Transaction.refs, ref ∈ n.unspentOutputs.map UTxO.ref
  /-- The outputs of a block have references that no earlier output has had. -/
  createsFresh : ∀ ts, n.Adds input ts →
    (((n.blockchain.transactions ++ ts.transactions).flatMap
      Transaction.newUnspentOutputs).map UTxO.ref).Nodup
  /-- The outputs of a chain that is adopted have distinct references. -/
  adoptsFresh : ∀ bc, n.Adopts input bc →
    ((bc.transactions.flatMap Transaction.newUnspentOutputs).map UTxO.ref).Nodup

/-- What a call does to the history of coins. -/
inductive HistoryStep (n : Node TransactionList) (input : Clock × Call TransactionList)
    (n' : Node TransactionList) : Prop where
  | same (blocks : n'.blockchain.blocks = n.blockchain.blocks)
      (unspentOutputs : n'.unspentOutputs = n.unspentOutputs)
      (pool : ∀ t ∈ n'.unconfirmedPool,
        t ∈ n.unconfirmedPool ∨ t.unspentOutputs = n.unspentOutputs)
  | extended {b : Block TransactionList} (adds : n.Adds input b.data)
      (blocks : n'.blockchain.blocks = n.blockchain.blocks ++ [b])
      (valid : b.data.valid b.index = .ok ())
      (linked : ∀ t ∈ b.data.transactions,
        t ∈ n.unconfirmedPool ∨ t.unspentOutputs.Sublist n.unspentOutputs)
      (unspentOutputs : n'.unspentOutputs = updateAll n.unspentOutputs b.data.transactions)
      (pool : n'.unconfirmedPool.Sublist n.unconfirmedPool)
  | adopted (adopts : n.Adopts input n'.blockchain)
      (unspentOutputs : n'.unspentOutputs = updateAll [] n'.blockchain.transactions)
      (pool : n'.unconfirmedPool = [])

/-- The block of a message is linked to the list of unspent outputs. -/
theorem linked_of_judge {n : Node TransactionList} {data : Json} {clock : Clock}
    {connection : Except String Unit} {b : Block TransactionList}
    (h : n.judge data clock connection = .ok (.append b)) :
    ∀ t ∈ b.data.transactions, t.unspentOutputs = n.unspentOutputs := by
  obtain ⟨hb, -⟩ := judge_append h
  obtain ⟨j, b', -, -, rfl⟩ := receivedBlock_eq_ok.mp hb
  intro t ht
  obtain ⟨t', -, rfl⟩ := List.mem_map.mp ht
  rfl

theorem historyStep_of_step {n n' : Node TransactionList} {input : Clock × Call TransactionList}
    (hskips : n.SkipsHarmlessly input) (hstep : n.step input = some n') :
    HistoryStep n input n' := by
  obtain ⟨clock, call⟩ := input
  obtain ⟨reply, hhandle, rfl⟩ := step_eq_some.mp hstep
  cases handle_ledgerStep hhandle with
  | idle hblocks hutxos hpool =>
    exact .same hblocks hutxos fun t ht => .inl (hpool.subset ht)
  | pooled hlinked hblocks hutxos hpool =>
    refine .same hblocks hutxos fun t ht => ?_
    rw [(TransactionUnconfirmedPool.add_eq_ok.mp hpool).2.2.2, List.mem_append,
      List.mem_singleton] at ht
    rcases ht with ht | rfl
    · exact .inl ht
    · exact .inr hlinked
  | @mined data fuel _ m ts b hassembled hconstructed hmined hledger =>
    have hadds : n.Adds (clock, .blocksPost data fuel) b.data :=
      hmined.data ▸ .mined hassembled hconstructed
    obtain ⟨e, herror, -⟩ | ⟨address, drawn, hts, hutxos, hpool⟩ :=
      TransactionMembers.assemble_cases hassembled
    · cases herror
    · refine .extended hadds hmined.blocks hmined.dataValid ?_ ?_ ?_
      · rw [hmined.data, Except.ok.inj hts]
        intro t ht
        rcases List.mem_cons.mp ht with rfl | ht
        · exact .inr (List.nil_sublist _)
        · refine .inl ?_
          rw [unconfirmedPool, hpool]
          exact List.mem_append_left _ ht
      · rw [unspentOutputs, (TransactionMembers.mined_eq_some hledger).1, hmined.data, hutxos]
        rfl
      · exact (TransactionMembers.mined_sublist hledger).trans
          (TransactionMembers.assemble_sublist hassembled)
  | appended hjudged happended hstep hledger =>
    refine .extended (.received hjudged happended) hstep.blocks hstep.dataValid ?_ ?_ ?_
    · intro t ht
      rw [linked_of_judge hjudged t ht]
      exact .inr (List.Sublist.refl _)
    · exact (TransactionMembers.received_eq_some hledger).1
    · exact TransactionMembers.received_sublist hledger
  | skipped hjudged hblocks hledger =>
    refine .same hblocks ?_ fun t ht => .inl ?_
    · have hharmless := hskips _ _ _ _ _ rfl hjudged
      exact (TransactionMembers.received_eq_some hledger).1.trans hharmless
    · exact (TransactionMembers.received_sublist hledger).subset ht
  | replaced hreceived hexceeds hledger =>
    have hsetup := TransactionMembers.setup_eq_some hledger
    exact .adopted ⟨_, rfl, hreceived, hexceeds⟩
      (congrArg TransactionMembers.unspentOutputs hsetup)
      (congrArg TransactionMembers.unconfirmedPool hsetup)

-- ---------------------------------------------------------------------------
-- Single spending
-- ---------------------------------------------------------------------------

/-- The list of unspent outputs is what a sound history leaves unspent, and the
    transactions in the pool know of no outputs but those of the history. -/
structure Tracked (n : Node TransactionList) : Prop where
  sound : Sound UTxO.ref n.blockchain.history
  unspentOutputs : n.unspentOutputs = unspent UTxO.ref n.blockchain.history
  pool : ∀ t ∈ n.unconfirmedPool, t.unspentOutputs.Sublist (created n.blockchain.history)

theorem tracked_new (host : String) (port : UInt16) :
    (new host port : Node TransactionList).Tracked where
  sound := sound_nil
  unspentOutputs := rfl
  pool t ht := by cases ht

theorem Tracked.fitsBlock {n : Node TransactionList} {input : Clock × Call TransactionList}
    {ts : TransactionList} (hn : n.Tracked) (hregular : n.Regular input) (hadds : n.Adds input ts) :
    FitsBlock UTxO.ref n.blockchain.history (ts.transactions.map Transaction.transfer) where
  fresh := by
    rw [Blockchain.history, created_map_transfer, created_map_transfer, ← List.flatMap_append]
    exact hregular.createsFresh ts hadds
  spendsNodup := by
    rw [spent_map_transfer]
    exact hregular.spendsOnce ts hadds
  spendsUnspent := by
    rw [spent_map_transfer, ← hn.unspentOutputs]
    exact hregular.spendsListed ts hadds

theorem Adopts.decoded {n : Node TransactionList} {input : Clock × Call TransactionList}
    {bc : Blockchain TransactionList} (h : n.Adopts input bc) :
    ∃ j clock, Blockchain.fromJson j clock = .ok bc := by
  obtain ⟨data, -, hreceived, -⟩ := h
  obtain ⟨j, -, hdecoded, -⟩ := receivedChain_eq_ok.mp hreceived
  exact ⟨j, input.1, hdecoded⟩

/-- A chain that was decoded fits the empty history. -/
theorem Regular.fitsBlock {n : Node TransactionList} {input : Clock × Call TransactionList}
    {bc : Blockchain TransactionList} (hregular : n.Regular input) (hadopts : n.Adopts input bc) :
    FitsBlock UTxO.ref [] bc.history := by
  have hspent : spent bc.history = [] := by
    obtain ⟨j, clock, hdecoded⟩ := hadopts.decoded
    rw [Blockchain.history, spent_map_transfer, List.flatMap_eq_nil_iff]
    intro t ht
    rw [Transaction.refs, Blockchain.inputs_eq_nil_of_fromJson hdecoded t ht]
    rfl
  refine ⟨?_, ?_, ?_⟩
  · rw [Blockchain.history, created_map_transfer]
    exact hregular.adoptsFresh bc hadopts
  · rw [hspent]
    exact List.nodup_nil
  · rw [hspent]
    simp

theorem Tracked.historyStep {n n' : Node TransactionList} {input : Clock × Call TransactionList}
    (hn : n.Tracked) (hregular : n.Regular input) (hstep : HistoryStep n input n') :
    n'.Tracked := by
  have hlisted : n.unspentOutputs.Sublist (created n.blockchain.history) := by
    rw [hn.unspentOutputs]
    exact unspent_sublist _
  cases hstep with
  | same hblocks hutxos hpool =>
    have hhistory : n'.blockchain.history = n.blockchain.history :=
      congrArg (List.map Transaction.transfer) (Blockchain.transactions_congr hblocks)
    refine ⟨hhistory ▸ hn.sound, ?_, ?_⟩
    · rw [hutxos, hhistory]
      exact hn.unspentOutputs
    · intro t ht
      rw [hhistory]
      rcases hpool t ht with ht | hlinked
      · exact hn.pool t ht
      · rw [hlinked]
        exact hlisted
  | extended hadds hblocks hvalid hlinked hutxos hpool =>
    have hfits := hn.fitsBlock hregular hadds
    have hhistory := Blockchain.history_concat hblocks
    refine ⟨?_, ?_, ?_⟩
    · rw [hhistory]
      exact hn.sound.append_block hfits
    · rw [hutxos, hn.unspentOutputs, hhistory]
      exact updateAll_unspent hn.sound hfits
    · intro t ht
      rw [hhistory, created_append]
      exact (hn.pool t (hpool.subset ht)).trans (List.sublist_append_left ..)
  | adopted hadopts hutxos hpool =>
    have hfits := hregular.fitsBlock hadopts
    refine ⟨by simpa using sound_nil.append_block hfits, ?_, ?_⟩
    · rw [hutxos]
      exact updateAll_unspent sound_nil hfits
    · intro t ht
      rw [hpool] at ht
      cases ht

theorem Tracked.step {n n' : Node TransactionList} {input : Clock × Call TransactionList}
    (hn : n.Tracked) (hregular : n.Regular input) (hstep : n.step input = some n') : n'.Tracked :=
  hn.historyStep hregular (historyStep_of_step hregular.skips hstep)

omit [Env] in
/-- No output is named by two inputs on the chain. -/
def SpendsOnce (n : Node TransactionList) : Prop :=
  (n.blockchain.transactions.flatMap Transaction.refs).Nodup

/-- No run of regular calls spends an output twice. -/
theorem everyState_spendsOnce (host : String) (port : UInt16)
    {inputs : List (Clock × Call TransactionList)}
    (h : EveryStep step Regular (new host port) inputs) :
    EveryState step SpendsOnce (new host port) inputs := by
  have htracked : EveryState step Tracked (new host port) inputs :=
    h.everyState (fun _ _ _ hn hregular hstep => hn.step hregular hstep) (tracked_new host port)
  refine htracked.mono fun n hn => ?_
  have hnodup := hn.sound.spentNodup
  rw [Blockchain.history, spent_map_transfer] at hnodup
  exact hnodup

-- ---------------------------------------------------------------------------
-- Supply
-- ---------------------------------------------------------------------------

/-- What a transaction may create out of nothing. -/
def minted (t : Transaction) : Nat :=
  match t.type with
  | .reward => config.transactionRewardAmount.toNat
  | .standard => 0

omit [Env] in
/-- The outputs of the standard transactions add up without overflow. -/
def SumsFit (ts : List Transaction) : Prop :=
  ∀ t ∈ ts, t.type = .standard → total UTxO.amount t.newUnspentOutputs < 2 ^ 64

omit [Env] in
instance (ts : List Transaction) : Decidable (SumsFit ts) :=
  inferInstanceAs (Decidable (∀ t ∈ ts, t.type = .standard → _ < _))

/-- A transaction that validation accepts on outputs of the history creates no
    more than it spends and mints. -/
theorem total_newUnspentOutputs_le {h : List (Transfer OutputRef UTxO)} {t : Transaction}
    (hs : Sound UTxO.ref h) (hvalid : t.valid = .ok ())
    (hlinked : t.unspentOutputs.Sublist (created h))
    (hsum : t.type = .standard → total UTxO.amount t.newUnspentOutputs < 2 ^ 64) :
    total UTxO.amount t.newUnspentOutputs ≤
      (t.refs.map (amountAt UTxO.ref UTxO.amount (created h))).sum + minted t := by
  unfold Transaction.valid at hvalid
  cases htype : t.type with
  | reward =>
    rw [htype] at hvalid
    obtain ⟨-, -, txo, houtputs, hamount⟩ := Transaction.validReward_eq_ok.mp hvalid
    have htotal : total UTxO.amount t.newUnspentOutputs = minted t := by
      simp [total, Transaction.newUnspentOutputs, UTxO.amount, minted, houtputs, hamount, htype]
    rw [htotal]
    exact Nat.le_add_left ..
  | standard =>
    rw [htype] at hvalid
    obtain ⟨-, hinputs, hbalance⟩ := Transaction.validStandard_eq_ok.mp hvalid
    have hamounts : t.refs.map (amountAt UTxO.ref UTxO.amount (created h)) =
        t.inputs.map fun txi => Transaction.amountIn t.unspentOutputs txi.ref := by
      rw [Transaction.refs, List.map_map]
      refine List.map_congr_left fun txi htxi => ?_
      have hfound := Transaction.mem_of_inputAddress_ne (hinputs txi htxi).found
      exact (amountAt_of_sublist hlinked hs.createdNodup hfound).symm
    rw [hamounts]
    have hfits := hsum htype
    have hle := Nat.mod_le (t.inputs.map fun txi =>
      Transaction.amountIn t.unspentOutputs txi.ref).sum (2 ^ 64)
    rw [Nat.mod_eq_of_lt hfits] at hbalance
    omega

/-- A block mints at most one reward. -/
theorem sum_minted_le {ts : TransactionList} {index : UInt64} (hvalid : ts.valid index = .ok ()) :
    (ts.transactions.map minted).sum ≤ config.transactionRewardAmount.toNat := by
  obtain ⟨-, -, htypes⟩ := TransactionList.valid_eq_ok.mp hvalid
  cases hts : ts.transactions with
  | nil => exact Nat.zero_le _
  | cons t rest =>
    rw [hts] at htypes
    have hrest : (rest.map minted).sum = 0 := by
      rw [List.sum_eq_zero_iff]
      intro amount hamount
      obtain ⟨t', ht', rfl⟩ := List.mem_map.mp hamount
      obtain ⟨k, hk, rfl⟩ := List.getElem_of_mem ht'
      have htype := htypes (k + 1) (Nat.succ_lt_succ hk)
      rw [List.getElem_cons_succ, if_neg (Nat.succ_ne_zero k)] at htype
      simp [minted, htype]
    have htype := htypes 0 (Nat.succ_pos _)
    rw [List.getElem_cons_zero, if_pos rfl] at htype
    simp [hrest, minted, htype]

/-- A regular call that brings in no sum that overflows. -/
structure RegularSums (n : Node TransactionList) (input : Clock × Call TransactionList) : Prop
    extends n.Regular input where
  sumsFit : ∀ ts, n.Adds input ts → SumsFit ts.transactions
  adoptedSumsFit : ∀ bc, n.Adopts input bc → SumsFit bc.transactions

/-- All that is listed as unspent has been minted, and each block has minted at
    most one reward. -/
structure Funded (n : Node TransactionList) : Prop extends n.Tracked where
  supply : total UTxO.amount n.unspentOutputs ≤ (n.blockchain.transactions.map minted).sum
  minting : ∀ b ∈ n.blockchain.blocks,
    (b.data.transactions.map minted).sum ≤ config.transactionRewardAmount.toNat

theorem funded_new (host : String) (port : UInt16) :
    (new host port : Node TransactionList).Funded where
  toTracked := tracked_new host port
  supply := Nat.zero_le _
  minting b hb := by cases hb

/-- What a call does to the total. -/
theorem Funded.supply_step {n n' : Node TransactionList} {input : Clock × Call TransactionList}
    (hn : n.Funded) (hregular : n.RegularSums input) (hstep : HistoryStep n input n') :
    total UTxO.amount n'.unspentOutputs ≤ (n'.blockchain.transactions.map minted).sum := by
  have hsupply := hn.supply
  have htracked := hn.toTracked.historyStep hregular.toRegular hstep
  cases hstep with
  | same hblocks hutxos hpool =>
    rw [hutxos, Blockchain.transactions_congr hblocks]
    exact hsupply
  | extended hadds hblocks hvalid hlinked hutxos hpool =>
    rename_i b
    have hfits := hn.fitsBlock hregular.toRegular hadds
    have hcreates : ∀ t ∈ b.data.transactions, total UTxO.amount t.newUnspentOutputs ≤
        (t.refs.map (amountAt UTxO.ref UTxO.amount (created n.blockchain.history))).sum +
          minted t := by
      intro t ht
      have htransaction := TransactionList.valid_of_mem hvalid ht
      refine total_newUnspentOutputs_le hn.sound htransaction ?_ (hregular.sumsFit _ hadds t ht)
      rcases hlinked t ht with hpooled | hlisted
      · exact hn.pool t hpooled
      · rw [hn.unspentOutputs] at hlisted
        exact hlisted.trans (unspent_sublist _)
    have hle := total_unspent_append_block_le UTxO.amount hn.sound hfits hcreates
    rw [hn.unspentOutputs] at hsupply
    rw [htracked.unspentOutputs, Blockchain.history_concat hblocks,
      Blockchain.transactions_concat hblocks, List.map_append, List.sum_append]
    omega
  | adopted hadopts hutxos hpool =>
    have hfits := hregular.fitsBlock hadopts
    let start : List (Transfer OutputRef UTxO) := []
    have hcreates : ∀ t ∈ n'.blockchain.transactions, total UTxO.amount t.newUnspentOutputs ≤
        (t.refs.map (amountAt UTxO.ref UTxO.amount (created start))).sum + minted t := by
      intro t ht
      obtain ⟨j, clock, hdecoded⟩ := hadopts.decoded
      obtain ⟨hvalid, hunlinked⟩ := Blockchain.unlinked_of_fromJson hdecoded t ht
      refine total_newUnspentOutputs_le sound_nil hvalid ?_ (hregular.adoptedSumsFit _ hadopts t ht)
      rw [hunlinked]
      exact List.nil_sublist _
    have hle := total_unspent_append_block_le UTxO.amount sound_nil hfits hcreates
    have hnil : total UTxO.amount
        (unspent UTxO.ref ([] : List (Transfer OutputRef UTxO))) = 0 := rfl
    rw [hnil, Nat.zero_add, List.nil_append] at hle
    rw [htracked.unspentOutputs]
    exact hle

theorem Funded.minting_step {n n' : Node TransactionList} {input : Clock × Call TransactionList}
    (hn : n.Funded) (hstep : HistoryStep n input n') : ∀ b ∈ n'.blockchain.blocks,
      (b.data.transactions.map minted).sum ≤ config.transactionRewardAmount.toNat := by
  intro b hb
  cases hstep with
  | same hblocks hutxos hpool =>
    rw [hblocks] at hb
    exact hn.minting b hb
  | extended hadds hblocks hvalid hlinked hutxos hpool =>
    rw [hblocks, List.mem_append, List.mem_singleton] at hb
    rcases hb with hb | rfl
    · exact hn.minting b hb
    · exact sum_minted_le hvalid
  | adopted hadopts hutxos hpool =>
    obtain ⟨j, clock, hdecoded⟩ := hadopts.decoded
    exact sum_minted_le (Blockchain.valid_of_fromJson hdecoded b hb)

theorem Funded.step {n n' : Node TransactionList} {input : Clock × Call TransactionList}
    (hn : n.Funded) (hregular : n.RegularSums input) (hstep : n.step input = some n') :
    n'.Funded := by
  have hhistory := historyStep_of_step hregular.skips hstep
  exact ⟨hn.toTracked.historyStep hregular.toRegular hhistory, hn.supply_step hregular hhistory,
    hn.minting_step hhistory⟩

omit [Env] in
theorem sum_map_transactions_le {bc : Blockchain TransactionList} {f : Transaction → Nat}
    {bound : Nat} (h : ∀ b ∈ bc.blocks, (b.data.transactions.map f).sum ≤ bound) :
    (bc.transactions.map f).sum ≤ bound * bc.length := by
  unfold Blockchain.transactions Blockchain.length
  generalize bc.blocks = bs at h
  induction bs with
  | nil => simp
  | cons b bs ih =>
    have hhead := h b (List.mem_cons_self ..)
    have htail := ih fun b' hb' => h b' (List.mem_cons_of_mem b hb')
    rw [List.flatMap_cons, List.map_append, List.sum_append, List.length_cons, Nat.mul_succ]
    omega

/-- The listed amounts add up to no more than one reward for each block. -/
def SupplyBounded (n : Node TransactionList) : Prop :=
  total UTxO.amount n.unspentOutputs ≤ config.transactionRewardAmount.toNat * n.blockchain.length

/-- No run of regular calls without overflow gets more than the rewards for its
    blocks. -/
theorem everyState_supplyBounded (host : String) (port : UInt16)
    {inputs : List (Clock × Call TransactionList)}
    (h : EveryStep step RegularSums (new host port) inputs) :
    EveryState step SupplyBounded (new host port) inputs := by
  have hfunded : EveryState step Funded (new host port) inputs :=
    h.everyState (fun _ _ _ hn hregular hstep => hn.step hregular hstep) (funded_new host port)
  exact hfunded.mono fun n hn => hn.supply.trans (sum_map_transactions_le hn.minting)

-- ---------------------------------------------------------------------------
-- A regular run, and one that is not
-- ---------------------------------------------------------------------------

/-- What is left to check of `POST /blocks`. -/
theorem RegularSums.blocksPost {n : Node TransactionList} {clock : Clock} {data : Json} {fuel : Nat}
    {ts : TransactionList}
    (hassembled : (n.ledger.assemble n.blockchain.length data).1 = .ok ts)
    (hspends : (ts.transactions.flatMap Transaction.refs).Nodup)
    (hlisted : ∀ ref ∈ ts.transactions.flatMap Transaction.refs,
      ref ∈ n.unspentOutputs.map UTxO.ref)
    (hfresh : (((n.blockchain.transactions ++ ts.transactions).flatMap
      Transaction.newUnspentOutputs).map UTxO.ref).Nodup)
    (hsums : SumsFit ts.transactions) : n.RegularSums (clock, .blocksPost data fuel) := by
  have hadds : ∀ ts', n.Adds (clock, .blocksPost data fuel) ts' → ts' = ts :=
    fun _ => adds_blocksPost hassembled
  refine ⟨⟨?_, ?_, ?_, ?_, ?_⟩, ?_, ?_⟩
  · intro data' connection b peerId peers hcall
    cases hcall
  · exact fun ts' h => hadds ts' h ▸ hspends
  · exact fun ts' h => hadds ts' h ▸ hlisted
  · exact fun ts' h => hadds ts' h ▸ hfresh
  · exact fun bc h => absurd h (not_adopts_blocksPost bc)
  · exact fun ts' h => hadds ts' h ▸ hsums
  · exact fun bc h => absurd h (not_adopts_blocksPost bc)

theorem RegularSums.other {n : Node TransactionList} {clock : Clock}
    {request : TransactionRequest} :
    n.RegularSums (clock, .other request) := by
  refine ⟨⟨?_, ?_, ?_, ?_, ?_⟩, ?_, ?_⟩
  · intro data' connection b peerId peers hcall
    cases hcall
  · exact fun ts h => absurd h (not_adds_other ts)
  · exact fun ts h => absurd h (not_adds_other ts)
  · exact fun ts h => absurd h (not_adds_other ts)
  · exact fun bc h => absurd h (not_adopts_other bc)
  · exact fun ts h => absurd h (not_adds_other ts)
  · exact fun bc h => absurd h (not_adopts_other bc)

end Node

/-- The run in which the reward is spent once is regular. -/
theorem spendingRun_regular :
    letI := plainBuild
    EveryStep Node.step Node.RegularSums (Node.new "localhost" 8332) (spendingRun 1) := by
  let env := plainBuild
  have hfirst : Node.RegularSums (Node.new "localhost" 8332)
      (.epoch, .blocksPost aliceMines 0) := by
    refine .blocksPost rfl ?_ ?_ ?_ ?_ <;> decide +kernel
  have hthird : Node.RegularSums (afterSpending 1)
      (.epoch, .blocksPost aliceMines 0) := by
    refine .blocksPost rfl ?_ ?_ ?_ ?_ <;> decide +kernel
  apply (everyStep_spendingRun_iff (by decide) (by decide +kernel)).mpr
  exact ⟨hfirst, .other, hthird⟩

theorem Node.everyState_spendsOnce_spendingRun :
    letI := plainBuild
    (∃ n : Node TransactionList, run step (new "localhost" 8332) (spendingRun 1) = some n ∧
      n.blockchain.transactions.flatMap Transaction.refs = [aliceCoin.ref]) ∧
    EveryState step SpendsOnce (new "localhost" 8332) (spendingRun 1) := by
  let env := plainBuild
  obtain ⟨n, hrun, -, htransactions, -⟩ := run_spending (k := 1) (by decide) (by decide +kernel)
  refine ⟨⟨n, hrun, ?_⟩, ?_⟩
  · rw [htransactions]
    rfl
  · exact everyState_spendsOnce _ _ (spendingRun_regular.mono fun _ _ h => h.toRegular)

theorem Node.everyState_supplyBounded_spendingRun :
    letI := plainBuild
    (∃ n : Node TransactionList, run step (new "localhost" 8332) (spendingRun 1) = some n ∧
      total UTxO.amount n.unspentOutputs = 100) ∧
    EveryState step SupplyBounded (new "localhost" 8332) (spendingRun 1) := by
  let env := plainBuild
  obtain ⟨n, hrun, -, htransactions, -, hutxos⟩ :=
    run_spending (k := 1) (by decide) (by decide +kernel)
  refine ⟨⟨n, hrun, ?_⟩, everyState_supplyBounded _ _ spendingRun_regular⟩
  rw [hutxos, htransactions]
  decide +kernel

/-- A transaction that names the reward twice is accepted, mined, and pays out
    the reward twice. -/
theorem Node.not_spendsOnce_spendingRun :
    letI := plainBuild
    ∃ n : Node TransactionList, n.ReachableBy 0 ∧
      n.blockchain.transactions.flatMap Transaction.refs = [aliceCoin.ref, aliceCoin.ref] ∧
      ¬ n.SpendsOnce := by
  let env := plainBuild
  obtain ⟨n, -, hn, htransactions, -⟩ := run_spending (k := 2) (by decide) (by decide +kernel)
  have hrefs : n.blockchain.transactions.flatMap Transaction.refs =
      [aliceCoin.ref, aliceCoin.ref] := by
    rw [htransactions]
    rfl
  refine ⟨n, hn, hrefs, ?_⟩
  rw [SpendsOnce, hrefs]
  simp

theorem Node.not_supplyBounded_spendingRun :
    letI := plainBuild
    ∃ n : Node TransactionList, n.ReachableBy 0 ∧ n.blockchain.length = 2 ∧
      total UTxO.amount n.unspentOutputs = 150 ∧ ¬ n.SupplyBounded := by
  let env := plainBuild
  obtain ⟨n, -, hn, htransactions, hlength, hutxos⟩ :=
    run_spending (k := 2) (by decide) (by decide +kernel)
  have htotal : total UTxO.amount n.unspentOutputs = 150 := by
    rw [hutxos, htransactions]
    decide +kernel
  refine ⟨n, hn, hlength, htotal, ?_⟩
  rw [SupplyBounded, htotal, hlength]
  decide

end BuenzliCoin
