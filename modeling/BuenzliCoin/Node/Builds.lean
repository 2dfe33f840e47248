-- SUMMARY: The two kinds of block data a node is built for: plain text, and lists of transactions.
import BuenzliCoin.Chain.Text
import BuenzliCoin.Ledger.UnconfirmedPool
import BuenzliCoin.Node.Basic

namespace BuenzliCoin

/-! # Builds without `TRANSACTIONS` -/

instance : NodeData Text where
  Members := Unit
  Request := Empty
  initial := ()
  setup _ := some ()
  assemble _ _ data := (Text.fromJson data, ())
  mined _ _ := some ()
  link _ text := text
  received _ _ := some ()
  serve _ _ request := nomatch request

/-! # Builds with `TRANSACTIONS` -/

structure TransactionMembers where
  unspentOutputs : TransactionUnspentOutputs
  unconfirmedPool : TransactionUnconfirmedPool

inductive TransactionRequest where
  | transactionsLatestGet
  | transactionsPost (data : Json)
  | transactionsUnconfirmedGet
  | transactionsUnspentGet
  | receiveTransaction (data : Json)

namespace TransactionMembers

/-- `blockchain_setup` -/
def setup (data : List TransactionList) : Option TransactionMembers := do
  let unspentOutputs ←
    TransactionUnspentOutputs.updateAll? [] (data.flatMap TransactionList.transactions)
  return { unspentOutputs, unconfirmedPool := [] }

/-- The loop that draws transactions from the pool until it is empty or `n` are
    drawn. -/
def draw : Nat → TransactionUnconfirmedPool → List Transaction × TransactionUnconfirmedPool
  | 0, pool => ([], pool)
  | n + 1, pool =>
    match pool.next with
    | none => ([], pool)
    | some (t, pool) =>
      let (ts, pool) := draw n pool
      (t :: ts, pool)

def assemble [Env] (m : TransactionMembers) (length : Nat) (data : Json) :
    Except Error TransactionList × TransactionMembers :=
  match (do (← data.atKey "address").getString) with
  | .error e => (.error e, m)
  | .ok rewardAddress =>
    let (ts, pool) := draw config.transactionNumPerBlock.toNat m.unconfirmedPool
    (.ok ⟨Transaction.reward rewardAddress (UInt64.ofNat length) :: ts⟩,
      { m with unconfirmedPool := pool })

def mined (m : TransactionMembers) (ts : TransactionList) : Option TransactionMembers := do
  let unspentOutputs ← m.unspentOutputs.updateAll? ts.transactions
  return { unspentOutputs, unconfirmedPool := ← m.unconfirmedPool.prune? unspentOutputs }

def link (m : TransactionMembers) (ts : TransactionList) : TransactionList :=
  ⟨ts.transactions.map fun t => t.updateUnspentOutputs m.unspentOutputs⟩

def received (m : TransactionMembers) (ts : TransactionList) : Option TransactionMembers := do
  let unspentOutputs ← m.unspentOutputs.updateAll? ts.transactions
  let pool ← ts.transactions.foldlM TransactionUnconfirmedPool.remove? m.unconfirmedPool
  return { unspentOutputs, unconfirmedPool := ← pool.prune? unspentOutputs }

/-- `handle_transactions_post` -/
def handleTransactionsPost [Env] (m : TransactionMembers) (data : Json) :
    TransactionMembers × Except Error Json × List Task :=
  let added := Error.rethrow
    (fun what => .http 400 (Node.malformed "POST /transactions/unconfirmed" data what)) do
      let t ← Transaction.fromJson data
      let t := t.updateUnspentOutputs m.unspentOutputs
      return (t, ← m.unconfirmedPool.add t)
  match added with
  | .error e => (m, .error e, [])
  | .ok (t, pool) => ({ m with unconfirmedPool := pool }, .ok .null, [.broadcastTransaction t])

/-- `handle_receive_transaction`, which only logs a failure to add. -/
def handleReceiveTransaction [Env] (m : TransactionMembers) (data : Json) :
    TransactionMembers × Except Error Json × List Task :=
  let parsed := Error.rethrow
    (fun what => .webSocket (Node.malformed "receive_transaction" data what)) do
      let t ← Transaction.fromJson data
      return t.updateUnspentOutputs m.unspentOutputs
  match parsed with
  | .error e => (m, .error e, [])
  | .ok t =>
    match m.unconfirmedPool.add t with
    | .error _ => (m, .ok .null, [])
    | .ok pool => ({ m with unconfirmedPool := pool }, .ok .null, [])

def serve [Env] (m : TransactionMembers) (data : List TransactionList) :
    TransactionRequest → TransactionMembers × Except Error Json × List Task
  | .transactionsLatestGet =>
    (m, .ok (match data.getLast? with
      | some ts => ts.toJson
      | none => .null), [])
  | .transactionsPost json => handleTransactionsPost m json
  | .transactionsUnconfirmedGet => (m, .ok m.unconfirmedPool.toJson, [])
  | .transactionsUnspentGet => (m, .ok m.unspentOutputs.toJson, [])
  | .receiveTransaction json => handleReceiveTransaction m json

end TransactionMembers

instance : NodeData TransactionList where
  Members := TransactionMembers
  Request := TransactionRequest
  initial := { unspentOutputs := [], unconfirmedPool := [] }
  setup := TransactionMembers.setup
  assemble := TransactionMembers.assemble
  mined := TransactionMembers.mined
  link := TransactionMembers.link
  received := TransactionMembers.received
  serve := TransactionMembers.serve

end BuenzliCoin
