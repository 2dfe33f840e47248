-- SUMMARY: What one handler call can do to the chain, the unspent outputs and the pool of a node.
import BuenzliCoin.Ledger.Chain
import BuenzliCoin.Lib.Runs
import BuenzliCoin.Node.Builds
import BuenzliCoin.Node.Run

namespace BuenzliCoin

open NodeData Node

/-- What `blockchain_setup` leaves. -/
theorem TransactionMembers.setup_eq_some {bc : Blockchain TransactionList} {m : TransactionMembers}
    (h : setup (bc.blocks.map Block.data) = some m) :
    m = ⟨TransactionUnspentOutputs.updateAll [] bc.transactions, []⟩ := by
  obtain ⟨us, hus, h⟩ := Option.bind_eq_some_iff.mp h
  cases h
  rw [List.flatMap_map] at hus
  rw [← TransactionUnspentOutputs.updateAll_of_updateAll? hus]
  rfl

/-- It is defined on a chain that spends nothing, as are all that have been decoded. -/
theorem TransactionMembers.setup_of_inputs_eq_nil {bc : Blockchain TransactionList}
    (h : ∀ t ∈ bc.transactions, t.inputs = []) :
    setup (bc.blocks.map Block.data) =
      some ⟨TransactionUnspentOutputs.updateAll [] bc.transactions, []⟩ := by
  have hupdate : TransactionUnspentOutputs.updateAll? [] bc.transactions = some _ :=
    TransactionUnspentOutputs.updateAll?_of_inputs_eq_nil h
  rw [setup, List.flatMap_map]
  exact congrArg (fun us => us.bind fun us => some (TransactionMembers.mk us [])) hupdate

/-- What is drawn from the pool and what is left of it make up the pool. -/
theorem TransactionMembers.draw_append {n : Nat} {pool rest : TransactionUnconfirmedPool}
    {drawn : List Transaction} (h : draw n pool = (drawn, rest)) : pool = drawn ++ rest := by
  induction n generalizing pool drawn with
  | zero =>
    cases h
    rfl
  | succ n ih =>
    cases pool with
    | nil =>
      cases h
      rfl
    | cons t pool =>
      simp only [draw, TransactionUnconfirmedPool.next] at h
      cases hdraw : draw n pool with
      | mk drawn' rest' =>
        rw [hdraw] at h
        cases h
        rw [ih hdraw]
        rfl

/-- What `POST /blocks` makes a block of. -/
theorem TransactionMembers.assemble_cases [Env] {m m' : TransactionMembers} {length : Nat}
    {data : Json} {r : Except Error TransactionList} (h : m.assemble length data = (r, m')) :
    (∃ e, r = .error e ∧ m' = m) ∨
    ∃ address drawn,
      r = .ok ⟨Transaction.reward address (UInt64.ofNat length) :: drawn⟩ ∧
      m'.unspentOutputs = m.unspentOutputs ∧
      m.unconfirmedPool = drawn ++ m'.unconfirmedPool := by
  unfold assemble at h
  split at h
  · next e _ =>
    cases h
    exact .inl ⟨e, rfl, rfl⟩
  · next address _ =>
    cases hdraw : draw config.transactionNumPerBlock.toNat m.unconfirmedPool with
    | mk drawn rest =>
      rw [hdraw] at h
      cases h
      exact .inr ⟨address, drawn, rfl, rfl, draw_append hdraw⟩

/-- To assemble a list only takes transactions out of the pool. -/
theorem TransactionMembers.assemble_sublist [Env] {m m' : TransactionMembers} {length : Nat}
    {data : Json} {r : Except Error TransactionList} (h : m.assemble length data = (r, m')) :
    m'.unconfirmedPool.Sublist m.unconfirmedPool := by
  obtain ⟨e, -, rfl⟩ | ⟨address, drawn, -, -, hpool⟩ := assemble_cases h
  · exact .refl _
  · rw [hpool]
    exact List.sublist_append_right ..

/-- What a block that has been mined makes of the members, where its loops are
    defined. -/
theorem TransactionMembers.mined_eq_some {m m' : TransactionMembers} {ts : TransactionList}
    (h : m.mined ts = some m') :
    m'.unspentOutputs = m.unspentOutputs.updateAll ts.transactions ∧
    m.unconfirmedPool.prune? m'.unspentOutputs = some m'.unconfirmedPool := by
  obtain ⟨us, hus, h⟩ := Option.bind_eq_some_iff.mp h
  obtain ⟨pool, hpool, h⟩ := Option.bind_eq_some_iff.mp h
  cases h
  exact ⟨(TransactionUnspentOutputs.updateAll_of_updateAll? hus).symm, hpool⟩

/-- What a block that is received makes of the members. -/
theorem TransactionMembers.received_eq_some {m m' : TransactionMembers} {ts : TransactionList}
    (h : m.received ts = some m') :
    m'.unspentOutputs = m.unspentOutputs.updateAll ts.transactions ∧
    ∃ pool, ts.transactions.foldlM TransactionUnconfirmedPool.remove? m.unconfirmedPool =
        some pool ∧
      pool.prune? m'.unspentOutputs = some m'.unconfirmedPool := by
  obtain ⟨us, hus, h⟩ := Option.bind_eq_some_iff.mp h
  obtain ⟨pool, hpool, h⟩ := Option.bind_eq_some_iff.mp h
  obtain ⟨pruned, hpruned, h⟩ := Option.bind_eq_some_iff.mp h
  cases h
  exact ⟨(TransactionUnspentOutputs.updateAll_of_updateAll? hus).symm, pool, hpool, hpruned⟩

theorem TransactionMembers.mined_sublist {m m' : TransactionMembers} {ts : TransactionList}
    (h : m.mined ts = some m') : m'.unconfirmedPool.Sublist m.unconfirmedPool :=
  TransactionUnconfirmedPool.prune?_sublist (mined_eq_some h).2

/-- The transactions of a block that is received only leave the pool. -/
theorem TransactionMembers.received_sublist {m m' : TransactionMembers} {ts : TransactionList}
    (h : m.received ts = some m') : m'.unconfirmedPool.Sublist m.unconfirmedPool := by
  obtain ⟨-, pool, hpool, hpruned⟩ := received_eq_some h
  have hremoved := TransactionUnconfirmedPool.foldl_remove_sublist ts.transactions m.unconfirmedPool
  rw [TransactionUnconfirmedPool.foldl_remove_of_foldlM_remove? hpool] at hremoved
  exact (TransactionUnconfirmedPool.prune?_sublist hpruned).trans hremoved

/-- The transaction in a request that offers one to the pool. -/
def TransactionRequest.offer? : TransactionRequest → Option Json
  | .transactionsPost data | .receiveTransaction data => some data
  | _ => none

namespace TransactionMembers

variable [Env]

/-- A request does nothing to the members, or adds the transaction that it offers. -/
theorem serve_cases (m : TransactionMembers) (data : List TransactionList)
    (request : TransactionRequest) :
    (m.serve data request).1 = m ∨
    ∃ j t pool, request.offer? = some j ∧ Transaction.fromJson j = .ok t ∧
      m.unconfirmedPool.add (t.updateUnspentOutputs m.unspentOutputs) = .ok pool ∧
      (m.serve data request).1 = { m with unconfirmedPool := pool } := by
  cases request with
  | transactionsLatestGet => exact .inl rfl
  | transactionsUnconfirmedGet => exact .inl rfl
  | transactionsUnspentGet => exact .inl rfl
  | transactionsPost j =>
    simp only [serve, handleTransactionsPost]
    split
    · exact .inl rfl
    · next t pool hadded =>
      simp only [Error.rethrow_eq_ok, Except.bind_eq_ok_iff, Except.pure_eq_ok_iff,
        Prod.mk.injEq] at hadded
      obtain ⟨t', hdecoded, pool', hadd, -, rfl⟩ := hadded
      exact .inr ⟨j, t', pool', rfl, hdecoded, hadd, rfl⟩
  | receiveTransaction j =>
    simp only [serve, handleReceiveTransaction]
    split
    · exact .inl rfl
    · next t hparsed =>
      simp only [Error.rethrow_eq_ok, Except.bind_eq_ok_iff, Except.pure_eq_ok_iff] at hparsed
      obtain ⟨t', hdecoded, rfl⟩ := hparsed
      split
      · exact .inl rfl
      · next pool hadd => exact .inr ⟨j, t', pool, rfl, hdecoded, hadd, rfl⟩

theorem serve_of_offer {m : TransactionMembers} {data : List TransactionList}
    {request : TransactionRequest} {j : Json} {t : Transaction} {pool : TransactionUnconfirmedPool}
    (hoffer : request.offer? = some j) (hdecoded : Transaction.fromJson j = .ok t)
    (hadd : m.unconfirmedPool.add (t.updateUnspentOutputs m.unspentOutputs) = .ok pool) :
    (m.serve data request).1 = { m with unconfirmedPool := pool } := by
  cases request with
  | transactionsPost data =>
    cases hoffer
    simp only [serve, handleTransactionsPost, hdecoded, hadd, bind, Except.bind, pure, Except.pure,
      Error.rethrow_ok]
  | receiveTransaction data =>
    cases hoffer
    simp only [serve, handleReceiveTransaction, hdecoded, hadd, bind, Except.bind, pure,
      Except.pure, Error.rethrow_ok]
  | _ => cases hoffer

end TransactionMembers

namespace Node

variable [Env]

/-! # Steps of the ledger -/

omit [Env] in
/-- The members of a node that keep track of transactions. -/
def ledger (n : Node TransactionList) : TransactionMembers := n.members

omit [Env] in
/-- `m_transaction_unspent_outputs` -/
def unspentOutputs (n : Node TransactionList) : TransactionUnspentOutputs := n.ledger.unspentOutputs

omit [Env] in
/-- `m_transaction_unconfirmed_pool` -/
def unconfirmedPool (n : Node TransactionList) : TransactionUnconfirmedPool :=
  n.ledger.unconfirmedPool

/-- The transactions of the block that a call adds to the chain. -/
inductive Adds (n : Node TransactionList) :
    Clock × Call TransactionList → TransactionList → Prop where
  | mined {clock : Clock} {data : Json} {fuel : Nat} {m : TransactionMembers} {ts : TransactionList}
      {bc : Blockchain TransactionList}
      (assembled : n.ledger.assemble n.blockchain.length data = (.ok ts, m))
      (constructed : n.blockchain.constructNextBlock ts clock fuel = some (.ok (), bc)) :
      Adds n (clock, .blocksPost data fuel) ts
  | received {clock : Clock} {data : Json} {connection : Except String Unit}
      {b : Block TransactionList} {bc : Blockchain TransactionList}
      (judged : n.judge data clock connection = .ok (.append b))
      (appended : n.blockchain.appendNextBlock b (clock 1) = (.ok (), bc)) :
      Adds n (clock, .receiveLatestBlock data connection) b.data

/-- The chain that a call puts in place of the old one. -/
def Adopts (n : Node TransactionList) (input : Clock × Call TransactionList)
    (bc : Blockchain TransactionList) : Prop :=
  ∃ data, input.2 = .receiveAllBlocks data ∧ receivedChain data input.1 = .ok bc ∧
    bc.exceeds n.blockchain = some true

theorem adds_blocksPost {n : Node TransactionList} {clock : Clock} {data : Json} {fuel : Nat}
    {ts ts' : TransactionList}
    (hassembled : (n.ledger.assemble n.blockchain.length data).1 = .ok ts)
    (h : n.Adds (clock, .blocksPost data fuel) ts') : ts' = ts := by
  cases h with
  | mined hassembled' hconstructed =>
    rw [hassembled'] at hassembled
    exact Except.ok.inj hassembled

theorem not_adopts_blocksPost {n : Node TransactionList} {clock : Clock} {data : Json} {fuel : Nat}
    (bc : Blockchain TransactionList) : ¬ n.Adopts (clock, .blocksPost data fuel) bc := by
  rintro ⟨data', hcall, -⟩
  cases hcall

theorem not_adds_other {n : Node TransactionList} {clock : Clock} {request : TransactionRequest}
    (ts : TransactionList) : ¬ n.Adds (clock, .other request) ts := by
  intro h
  cases h

theorem not_adopts_other {n : Node TransactionList} {clock : Clock} {request : TransactionRequest}
    (bc : Blockchain TransactionList) : ¬ n.Adopts (clock, .other request) bc := by
  rintro ⟨data', hcall, -⟩
  cases hcall

/-- How a call changes the chain together with the ledger. -/
inductive LedgerStep (n : Node TransactionList) (clock : Clock) :
    Call TransactionList → Node TransactionList → Prop where
  /-- A call that changes neither, but for transactions that it may have drawn
      from the pool before it failed. -/
  | idle {call : Call TransactionList} {n' : Node TransactionList}
      (blocks : n'.blockchain.blocks = n.blockchain.blocks)
      (unspentOutputs : n'.unspentOutputs = n.unspentOutputs)
      (pool : n'.unconfirmedPool.Sublist n.unconfirmedPool) : LedgerStep n clock call n'
  | pooled {call : Call TransactionList} {n' : Node TransactionList} {t : Transaction}
      (linked : t.unspentOutputs = n.unspentOutputs)
      (blocks : n'.blockchain.blocks = n.blockchain.blocks)
      (unspentOutputs : n'.unspentOutputs = n.unspentOutputs)
      (pool : n.unconfirmedPool.add t = .ok n'.unconfirmedPool) : LedgerStep n clock call n'
  | mined {data : Json} {fuel : Nat} {n' : Node TransactionList} {m : TransactionMembers}
      {ts : TransactionList} {b : Block TransactionList}
      (assembled : n.ledger.assemble n.blockchain.length data = (.ok ts, m))
      (constructed : n.blockchain.constructNextBlock ts clock fuel = some (.ok (), n'.blockchain))
      (step : Blockchain.Constructed n.blockchain ts clock b n'.blockchain)
      (ledger : m.mined ts = some n'.ledger) : LedgerStep n clock (.blocksPost data fuel) n'
  | appended {data : Json} {connection : Except String Unit} {n' : Node TransactionList}
      {b : Block TransactionList} (judged : n.judge data clock connection = .ok (.append b))
      (appended : n.blockchain.appendNextBlock b (clock 1) = (.ok (), n'.blockchain))
      (step : Blockchain.Appended n.blockchain b (clock 1) n'.blockchain)
      (ledger : n.ledger.received b.data = some n'.ledger) :
      LedgerStep n clock (.receiveLatestBlock data connection) n'
  /-- A block that does not stand next to the chain: not appended, but the
      ledger is updated as if it were. -/
  | skipped {data : Json} {connection : Except String Unit} {n' : Node TransactionList}
      {b : Block TransactionList} {peerId : Nat} {peers : WebSocketPeers}
      (judged : n.judge data clock connection = .ok (.requestAll b peerId peers))
      (blocks : n'.blockchain.blocks = n.blockchain.blocks)
      (ledger : n.ledger.received b.data = some n'.ledger) :
      LedgerStep n clock (.receiveLatestBlock data connection) n'
  | replaced {data : Json} {n' : Node TransactionList}
      (received : receivedChain data clock = .ok n'.blockchain)
      (exceeds : n'.blockchain.exceeds n.blockchain = some true)
      (ledger : TransactionMembers.setup (n'.blockchain.blocks.map Block.data) = some n'.ledger) :
      LedgerStep n clock (.receiveAllBlocks data) n'

/-- A call that leaves the members alone and adds no block. -/
theorem LedgerStep.of_members {n n' : Node TransactionList} {clock : Clock}
    {call : Call TransactionList} (hblocks : n'.blockchain.blocks = n.blockchain.blocks)
    (hmembers : n'.members = n.members) : LedgerStep n clock call n' := by
  have hledger : n'.ledger = n.ledger := hmembers
  refine .idle hblocks ?_ ?_
  · rw [unspentOutputs, hledger]
    rfl
  · rw [unconfirmedPool, hledger]
    exact List.Sublist.refl _

/-- A call that has added a transaction to the pool. -/
theorem LedgerStep.of_add {n n' : Node TransactionList} {clock : Clock}
    {call : Call TransactionList} {t : Transaction} {pool : TransactionUnconfirmedPool}
    (hblocks : n'.blockchain.blocks = n.blockchain.blocks)
    (hledger : n'.ledger = { n.ledger with unconfirmedPool := pool })
    (hadd : n.unconfirmedPool.add (t.updateUnspentOutputs n.unspentOutputs) = .ok pool) :
    LedgerStep n clock call n' := by
  refine .pooled (t := t.updateUnspentOutputs n.unspentOutputs) rfl hblocks ?_ ?_
  · rw [unspentOutputs, hledger]
    rfl
  · rw [hadd, unconfirmedPool, hledger]

/-- What has been drawn from the pool when `POST /blocks` throws is gone. -/
theorem refused_ledgerStep {n n' : Node TransactionList} {clock : Clock} {data : Json} {fuel : Nat}
    {r : Except Error TransactionList}
    (hassembled : n.ledger.assemble n.blockchain.length data = (r, n'.ledger))
    (hblocks : n'.blockchain.blocks = n.blockchain.blocks) :
    LedgerStep n clock (.blocksPost data fuel) n' := by
  obtain ⟨e, -, hledger⟩ | ⟨address, drawn, -, hutxos, -⟩ :=
    TransactionMembers.assemble_cases hassembled
  · exact .of_members hblocks hledger
  · exact .idle hblocks hutxos (TransactionMembers.assemble_sublist hassembled)

theorem serve_ledgerStep {n n' : Node TransactionList} {clock : Clock}
    {request : TransactionRequest}
    (hblocks : n'.blockchain.blocks = n.blockchain.blocks)
    (hmembers : n'.ledger = (n.ledger.serve (n.blockchain.blocks.map Block.data) request).1) :
    LedgerStep n clock (.other request) n' := by
  obtain hsame | ⟨j, t, pool, -, -, hadd, hserve⟩ :=
    n.ledger.serve_cases (n.blockchain.blocks.map Block.data) request
  · exact .of_members hblocks (hmembers.trans hsame)
  · exact .of_add hblocks (hmembers.trans hserve) hadd

theorem CallStep.ledgerStep {n n' : Node TransactionList} {clock : Clock}
    {call : Call TransactionList} (h : CallStep n clock call n') : LedgerStep n clock call n' := by
  cases h with
  | idle hblockchain hmembers => exact .of_members (congrArg _ hblockchain) hmembers
  | refused hassembled hblocks hsame => exact refused_ledgerStep hassembled hblocks
  | constructed hassembled hconstructed hstep hmembers =>
    exact .mined hassembled hconstructed hstep hmembers
  | rejected hjudged hblocks hsame hmembers => exact .of_members hblocks hmembers
  | appended hjudged happended hstep hmembers => exact .appended hjudged happended hstep hmembers
  | skipped hjudged hblockchain hmembers =>
    exact .skipped hjudged (congrArg _ hblockchain) hmembers
  | replaced hreceived hexceeds hmembers => exact .replaced hreceived hexceeds hmembers
  | served hblockchain hmembers => exact serve_ledgerStep (congrArg _ hblockchain) hmembers

/-- Every call of a handler is a step of the ledger. -/
theorem handle_ledgerStep {n : Node TransactionList} {clock : Clock} {call : Call TransactionList}
    {reply : Reply TransactionList} (h : n.handle clock call = some reply) :
    LedgerStep n clock call reply.node :=
  (handle_callStep h).ledgerStep

/-- Calls about transactions change neither the chain nor what is listed. -/
theorem handle_other_unchanged {n : Node TransactionList} {clock : Clock}
    {request : TransactionRequest} {reply : Reply TransactionList}
    (h : n.handle clock (.other request) = some reply) :
    reply.node.blockchain = n.blockchain ∧ reply.node.unspentOutputs = n.unspentOutputs := by
  cases handle_callStep h with
  | idle hblockchain hmembers =>
    exact ⟨hblockchain, congrArg TransactionMembers.unspentOutputs hmembers⟩
  | served hblockchain hmembers =>
    refine ⟨hblockchain, ?_⟩
    obtain hsame | ⟨_, _, pool, -, -, -, hadded⟩ :=
      n.ledger.serve_cases (n.blockchain.blocks.map Block.data) request
    · exact congrArg TransactionMembers.unspentOutputs (hmembers.trans hsame)
    · have hledger : reply.node.ledger = { n.ledger with unconfirmedPool := pool } :=
        hmembers.trans hadded
      rw [unspentOutputs, hledger]
      rfl

end Node

/-! # A run that spends -/

theorem Node.handleTransactionsPost_of_valid [Env] {n : Node TransactionList} {clock : Clock}
    {data : Json} {t : Transaction} {pool : TransactionUnconfirmedPool}
    (hdecoded : Transaction.fromJson data = .ok t)
    (hadd : n.unconfirmedPool.add (t.updateUnspentOutputs n.unspentOutputs) = .ok pool) :
    n.handle clock (.other (.transactionsPost data)) = some {
      node := { n with members := { n.ledger with unconfirmedPool := pool } }
      answer := .ok .null
      tasks := [.broadcastTransaction (t.updateUnspentOutputs n.unspentOutputs)] } := by
  have hserve : n.ledger.handleTransactionsPost data =
      ({ n.ledger with unconfirmedPool := pool }, .ok .null,
        [.broadcastTransaction (t.updateUnspentOutputs n.unspentOutputs)]) := by
    have hadd' : TransactionUnconfirmedPool.add n.ledger.unconfirmedPool
        (t.updateUnspentOutputs n.ledger.unspentOutputs) = .ok pool := hadd
    simp only [TransactionMembers.handleTransactionsPost, hdecoded, hadd', bind, Except.bind, pure,
      Except.pure, Error.rethrow_ok]
    rfl
  exact congrArg (fun r : TransactionMembers × Except Error Json × List Task =>
    some (⟨{ n with members := r.1 }, r.2.1, r.2.2⟩ : Reply TransactionList)) hserve

/-- The reward for the first block. -/
def aliceReward : Transaction :=
  letI := plainBuild
  Transaction.reward "alice" 0

/-- A transaction that names the reward for the first block `k` times and pays
    out `k` times its amount. -/
def spending (k : Nat) : Transaction :=
  letI := plainBuild
  let t : Transaction := {
    type := .standard
    index := 1
    hash := ⟨[]⟩
    inputs := List.replicate k ⟨aliceReward.hash, 0, ⟨[]⟩⟩
    outputs := [⟨UInt64.ofNat (50 * k), "bob"⟩] }
  { t with hash := t.determineHash }

/-- The unspent output of that reward. -/
def aliceCoin : UTxO := ⟨aliceReward.hash, 0, ⟨50, "alice"⟩⟩

theorem spending_valid {k : Nat} (hk : 50 * k < 2 ^ 64) :
    letI := plainBuild
    ((spending k).updateUnspentOutputs [aliceCoin]).valid = .ok () := by
  let env := plainBuild
  have href : aliceCoin.ref = TxI.ref ⟨aliceReward.hash, 0, ⟨[]⟩⟩ := rfl
  have haddress : ((spending k).updateUnspentOutputs [aliceCoin]).inputAddress
      ⟨aliceReward.hash, 0, ⟨[]⟩⟩ = "alice" := by
    refine Transaction.inputAddress_of_mem ?_ (List.mem_singleton_self aliceCoin) href
    exact List.nodup_singleton aliceCoin.ref
  have hamount : Transaction.amountIn [aliceCoin] aliceCoin.ref = 50 := by
    simp [Transaction.amountIn, CoinHistory.amountAt, CoinHistory.total, UTxO.amount, aliceCoin]
  refine Transaction.validStandard_eq_ok.mpr ⟨rfl, ?_, ?_⟩
  · intro txi htxi
    obtain rfl := List.eq_of_mem_replicate htxi
    exact ⟨by rw [haddress]; decide, rfl⟩
  · have hinputs : ((spending k).inputs.map fun txi =>
        Transaction.amountIn [aliceCoin] txi.ref).sum = 50 * k := by
      simp [spending, ← href, hamount, Nat.mul_comm]
    have houtputs : CoinHistory.total UTxO.amount (spending k).newUnspentOutputs = 50 * k := by
      simpa [CoinHistory.total, Transaction.newUnspentOutputs, UTxO.amount, spending] using hk
    exact (congrArg (· % 2 ^ 64) houtputs).trans (congrArg (· % 2 ^ 64) hinputs).symm

def aliceMines : Json := .object [("address", .string "alice")]

/-- The node after the first block. -/
def afterReward : Node TransactionList where
  host := "localhost"
  port := 8332
  blockchain :=
    letI := plainBuild
    ⟨[Blockchain.new.nextBlock ⟨[aliceReward]⟩ 0], .fresh⟩
  members := ({ unspentOutputs := [aliceCoin], unconfirmedPool := [] } : TransactionMembers)
  peers := []

/-- The node that has the transaction in its pool as well. -/
def afterSpending (k : Nat) : Node TransactionList :=
  { afterReward with
    members := ({
      unspentOutputs := [aliceCoin]
      unconfirmedPool := [(spending k).updateUnspentOutputs [aliceCoin]] } : TransactionMembers) }

theorem handle_reward :
    letI := plainBuild
    (Node.new "localhost" 8332 : Node TransactionList).handle .epoch
      (.blocksPost aliceMines 0) = some ⟨afterReward, .ok .null, [.broadcastLatestBlock]⟩ := by
  let env := plainBuild
  have hdata : (TransactionList.mk [aliceReward]).valid 0 = .ok () :=
    TransactionList.valid_of_reward (by decide) (by simp)
  have hhandle : (Node.new "localhost" 8332 : Node TransactionList).handle .epoch
      (.blocksPost aliceMines 0) = some _ :=
    Node.handleBlocksPost_of_valid (by decide) rfl (by rfl) hdata (by decide) (by decide)
  exact hhandle

theorem handle_spending {k : Nat} (hk : 50 * k < 2 ^ 64) :
    letI := plainBuild
    afterReward.handle .epoch (.other (.transactionsPost (spending k).toJson)) =
      some ⟨afterSpending k, .ok .null,
        [.broadcastTransaction ((spending k).updateUnspentOutputs [aliceCoin])]⟩ := by
  let env := plainBuild
  apply Node.handleTransactionsPost_of_valid (spending k).fromJson_toJson
  exact TransactionUnconfirmedPool.add_eq_ok.mpr ⟨by decide, spending_valid hk, rfl, rfl⟩

/-- Alice mines a block, spends the reward, and mines another one. -/
def spendingRun (k : Nat) : List (Clock × Call TransactionList) :=
  [(.epoch, .blocksPost aliceMines 0),
    (.epoch, .other (.transactionsPost (spending k).toJson)),
    (.epoch, .blocksPost aliceMines 0)]

/-- The members once that transaction is mined, along with the reward for its block. -/
def minedSpending (k : Nat) : Option TransactionMembers :=
  letI := plainBuild
  TransactionMembers.mined ⟨[aliceCoin], []⟩
    ⟨[Transaction.reward "alice" 1, (spending k).updateUnspentOutputs [aliceCoin]]⟩

/-- The node that has mined it and is left with these members. -/
def afterMining (k : Nat) (m : TransactionMembers) : Node TransactionList :=
  letI := plainBuild
  let ts : TransactionList :=
    ⟨[Transaction.reward "alice" 1, (spending k).updateUnspentOutputs [aliceCoin]]⟩
  { afterReward with
    blockchain := ⟨afterReward.blockchain.blocks ++ [afterReward.blockchain.nextBlock ts 0], .fresh⟩
    members := m }

theorem handle_minedSpending {k : Nat} (hk : 50 * k < 2 ^ 64) {m : TransactionMembers}
    (hm : minedSpending k = some m) :
    letI := plainBuild
    (afterSpending k).handle .epoch (.blocksPost aliceMines 0) =
      some ⟨afterMining k m, .ok .null, [.broadcastLatestBlock]⟩ := by
  let env := plainBuild
  have hdata : (TransactionList.mk [Transaction.reward "alice" 1,
      (spending k).updateUnspentOutputs [aliceCoin]]).valid 1 = .ok () := by
    apply TransactionList.valid_of_reward (show 1 + 1 ≤ _ by decide)
    intro t ht
    obtain rfl := List.mem_singleton.mp ht
    exact ⟨rfl, rfl, spending_valid hk⟩
  exact Node.handleBlocksPost_of_valid (n := afterSpending k) (by decide) rfl hm hdata (by decide)
    (show 1 < 2 ^ 32 by decide)

/-- The run, where its last call is defined. -/
theorem run_spending {k : Nat} (hk : 50 * k < 2 ^ 64) (hdefined : (minedSpending k).isSome) :
    letI := plainBuild
    ∃ n : Node TransactionList,
      Runs.run Node.step (Node.new "localhost" 8332) (spendingRun k) = some n ∧ n.ReachableBy 0 ∧
      n.blockchain.transactions = [aliceReward, Transaction.reward "alice" 1,
        (spending k).updateUnspentOutputs [aliceCoin]] ∧
      n.blockchain.length = 2 ∧
      n.unspentOutputs = TransactionUnspentOutputs.updateAll [] n.blockchain.transactions := by
  let env := plainBuild
  obtain ⟨m, hm⟩ := Option.isSome_iff_exists.mp hdefined
  have hfirst := handle_reward
  have hsecond := handle_spending hk
  have hthird := handle_minedSpending hk hm
  refine ⟨afterMining k m, ?_, ?_, rfl, rfl, (TransactionMembers.mined_eq_some hm).1⟩
  · rw [spendingRun, Runs.run_cons (Node.step_eq_some.mpr ⟨_, hfirst, rfl⟩),
      Runs.run_cons (Node.step_eq_some.mpr ⟨_, hsecond, rfl⟩),
      Runs.run_cons (Node.step_eq_some.mpr ⟨_, hthird, rfl⟩)]
    rfl
  · have hreward := (Node.ReachableBy.new "localhost" 8332 0).handle (by decide) (by decide) hfirst
    have hspent := hreward.handle (by decide) (by decide) hsecond
    exact hspent.handle (by decide) (by decide) hthird

/-- What every step of the run meets, call by call. -/
theorem everyStep_spendingRun_iff {k : Nat} (hk : 50 * k < 2 ^ 64)
    (hdefined : (minedSpending k).isSome)
    {Q : Node TransactionList → Clock × Call TransactionList → Prop} :
    letI := plainBuild
    Runs.EveryStep Node.step Q (Node.new "localhost" 8332) (spendingRun k) ↔
      Q (Node.new "localhost" 8332) (.epoch, .blocksPost aliceMines 0) ∧
      Q afterReward (.epoch, .other (.transactionsPost (spending k).toJson)) ∧
      Q (afterSpending k) (.epoch, .blocksPost aliceMines 0) := by
  let env := plainBuild
  obtain ⟨m, hm⟩ := Option.isSome_iff_exists.mp hdefined
  rw [spendingRun, Runs.everyStep_cons_iff (Node.step_eq_some.mpr ⟨_, handle_reward, rfl⟩),
    Runs.everyStep_cons_iff (Node.step_eq_some.mpr ⟨_, handle_spending hk, rfl⟩),
    Runs.everyStep_cons_iff (Node.step_eq_some.mpr ⟨_, handle_minedSpending hk hm, rfl⟩)]
  simp only [Runs.EveryStep, and_true]

end BuenzliCoin
