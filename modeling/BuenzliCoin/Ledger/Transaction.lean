-- SUMMARY: Transactions and transaction lists: hashing, validation against a snapshot, and the JSON form.
import BuenzliCoin.Chain.Codec

namespace BuenzliCoin

/-! # Transactions -/

/-- A transaction input. -/
structure TxI where
  outputHash : Digest
  outputIndex : UInt64
  signature : Digest
  deriving DecidableEq, Repr

/-- A transaction output. -/
structure TxO where
  amount : UInt64
  address : String
  deriving DecidableEq, Repr

/-- An unspent transaction output. -/
structure UTxO where
  outputHash : Digest
  outputIndex : UInt64
  output : TxO
  deriving DecidableEq, Repr

/-- What an input names an output by, and what the `operator==` of inputs and
    unspent outputs compare. -/
structure OutputRef where
  outputHash : Digest
  outputIndex : UInt64
  deriving DecidableEq, Repr

def TxI.ref (txi : TxI) : OutputRef := ⟨txi.outputHash, txi.outputIndex⟩

def UTxO.ref (utxo : UTxO) : OutputRef := ⟨utxo.outputHash, utxo.outputIndex⟩

inductive TransactionType where
  | standard
  | reward
  deriving DecidableEq, Repr

/-- A transaction, with the unspent outputs it was last linked to. -/
structure Transaction where
  type : TransactionType
  index : UInt64
  hash : Digest
  inputs : List TxI
  outputs : List TxO
  unspentOutputs : List UTxO := []
  deriving DecidableEq, Repr

namespace Transaction

def updateUnspentOutputs (t : Transaction) (unspentOutputs : List UTxO) : Transaction :=
  { t with unspentOutputs }

@[simp] theorem updateUnspentOutputs_unspentOutputs (t : Transaction) (us : List UTxO) :
    (t.updateUnspentOutputs us).unspentOutputs = us := rfl

/-- The transaction without its snapshot, which is not part of its JSON form. -/
def unlinked (t : Transaction) : Transaction := t.updateUnspentOutputs []

/-- The references its inputs spend. -/
def refs (t : Transaction) : List OutputRef := t.inputs.map TxI.ref

variable [Env]

def determineHash (t : Transaction) : Digest :=
  Env.hash <|
    toString t.index ++
      String.join (t.inputs.map fun txi => txi.outputHash.toString ++ toString txi.outputIndex) ++
      String.join (t.outputs.map fun txo => toString txo.amount ++ txo.address)

def reward (rewardAddress : String) (index : UInt64) : Transaction :=
  let t : Transaction := {
    type := .reward
    index
    hash := ⟨[]⟩
    inputs := []
    outputs := [⟨config.transactionRewardAmount, rewardAddress⟩] }
  { t with hash := t.determineHash }

/-! ## Validation -/

omit [Env] in
/-- The loop over the snapshot for one input: the address of the last matching
    entry, and the sum with the amounts of all of them. -/
def matchUnspentOutputs (t : Transaction) (txi : TxI) (txiSum : UInt64) : String × UInt64 :=
  t.unspentOutputs.foldl
    (fun acc utxo =>
      if utxo.outputHash = txi.outputHash ∧ utxo.outputIndex = txi.outputIndex then
        (utxo.output.address, acc.2 + utxo.output.amount)
      else acc)
    ("", txiSum)

/-- The loop over the inputs, from the one at position `i` on. -/
def validInputs (t : Transaction) (i : Nat) : List TxI → UInt64 → Except String UInt64
  | [], txiSum => .ok txiSum
  | txi :: txis, txiSum =>
    let (txiAddress, txiSum) := t.matchUnspentOutputs txi txiSum
    if txiAddress = "" then .error s!"input {i}: no corresponding unspent output found"
    else
      match Env.verify txiAddress t.hash txi.signature with
      | .error e => .error s!"input {i}: exception during signature validation: {e}"
      | .ok false => .error s!"input {i}: invalid signature"
      | .ok true => validInputs t (i + 1) txis txiSum

omit [Env] in
def txoSum (t : Transaction) : UInt64 := t.outputs.foldl (fun sum txo => sum + txo.amount) 0

def validStandard (t : Transaction) : Except String Unit :=
  if t.hash ≠ t.determineHash then .error "invalid hash"
  else
    match t.validInputs 0 t.inputs 0 with
    | .error e => .error e
    | .ok txiSum => if txiSum ≠ t.txoSum then .error "mismatched input/output sums" else .ok ()

def validReward (t : Transaction) : Except String Unit :=
  if t.hash ≠ t.determineHash then .error "invalid hash"
  else if t.inputs ≠ [] then .error "inputs must be empty"
  else
    match t.outputs with
    | [txo] =>
      if txo.amount ≠ config.transactionRewardAmount then
        .error "output amount does not match reward amount"
      else .ok ()
    | _ => .error "more than one output"

def valid (t : Transaction) : Except String Unit :=
  match t.type with
  | .reward => t.validReward
  | .standard => t.validStandard

end Transaction

/-! ## JSON -/

namespace TxI

def toJson (txi : TxI) : Json :=
  .object [("output_hash", .string txi.outputHash.toString),
    ("output_index", .numberUnsigned txi.outputIndex),
    ("signature", .string txi.signature.toString)]

def fromJson (j : Json) : Except Error TxI := do
  let outputHash ← Digest.fromString (← (← j.get "output_hash").getString)
  let outputIndex ← (← j.get "output_index").getUInt64
  let signature ← Digest.fromString (← (← j.get "signature").getString)
  return { outputHash, outputIndex, signature }

@[simp] theorem fromJson_toJson (txi : TxI) : fromJson txi.toJson = .ok txi := by
  simp [fromJson, toJson, Json.get, Json.getString, Json.getUInt64, List.lookup_cons, bind,
    Except.bind, pure, Except.pure]

end TxI

namespace TxO

def toJson (txo : TxO) : Json :=
  .object [("address", .string txo.address), ("amount", .numberUnsigned txo.amount)]

def fromJson (j : Json) : Except Error TxO := do
  let amount ← (← j.get "amount").getUInt64
  let address ← (← j.get "address").getString
  return { amount, address }

@[simp] theorem fromJson_toJson (txo : TxO) : fromJson txo.toJson = .ok txo := by
  simp [fromJson, toJson, Json.get, Json.getString, Json.getUInt64, List.lookup_cons, bind,
    Except.bind, pure, Except.pure]

end TxO

def UTxO.toJson (utxo : UTxO) : Json :=
  .object [("output", utxo.output.toJson), ("output_hash", .string utxo.outputHash.toString),
    ("output_index", .numberUnsigned utxo.outputIndex)]

namespace TransactionType

def toJson : TransactionType → Json
  | .standard => .string "standard"
  | .reward => .string "reward"

def fromJson : Json → Except Error TransactionType
  | .string "standard" => .ok .standard
  | .string "reward" => .ok .reward
  | _ => .error (.exception "invalid transaction type")

@[simp] theorem fromJson_toJson (type : TransactionType) : fromJson type.toJson = .ok type := by
  cases type <;> rfl

end TransactionType

namespace Transaction

def toJson (t : Transaction) : Json :=
  .object [("hash", .string t.hash.toString), ("index", .numberUnsigned t.index),
    ("inputs", .array (t.inputs.map TxI.toJson)), ("outputs", .array (t.outputs.map TxO.toJson)),
    ("type", t.type.toJson)]

def fromJson (j : Json) : Except Error Transaction := do
  let type ← TransactionType.fromJson (← j.get "type")
  let index ← (← j.get "index").getUInt64
  let hash ← Digest.fromString (← (← j.get "hash").getString)
  let inputs ← (← j.get "inputs").items.mapM TxI.fromJson
  let outputs ← (← j.get "outputs").items.mapM TxO.fromJson
  return { type, index, hash, inputs, outputs }

theorem fromJson_toJson (t : Transaction) : fromJson t.toJson = .ok t.unlinked := by
  have hinputs :=
    Except.mapM_map_eq_ok (f := id) fun txi (_ : txi ∈ t.inputs) => txi.fromJson_toJson
  have houtputs :=
    Except.mapM_map_eq_ok (f := id) fun txo (_ : txo ∈ t.outputs) => txo.fromJson_toJson
  simp [fromJson, toJson, unlinked, updateUnspentOutputs, hinputs, houtputs, Json.get,
    Json.getString, Json.getUInt64, List.lookup_cons, bind, Except.bind, pure, Except.pure]

end Transaction

/-! # Transaction lists -/

structure TransactionList where
  transactions : List Transaction
  deriving DecidableEq

namespace TransactionList

/-- The loop of `valid`, from the transaction at position `i` on. -/
def validTransactions [Env] (index : UInt64) (i : Nat) : List Transaction → Except String Unit
  | [] => .ok ()
  | t :: ts =>
    if t.type ≠ (if i = 0 then TransactionType.reward else .standard) then
      .error s!"transaction {i}: invalid type"
    else if t.index ≠ index then .error s!"transaction {i}: invalid index {t.index}"
    else
      match t.valid with
      | .error e => .error s!"transaction {i}: {e}"
      | .ok () => validTransactions index (i + 1) ts

def valid [Env] (ts : TransactionList) (index : UInt64) : Except String Unit :=
  if ts.transactions.length > (config.transactionNumPerBlock + 1).toNat then
    .error "invalid number of transactions"
  else validTransactions index 0 ts.transactions

def toJson (ts : TransactionList) : Json := .array (ts.transactions.map Transaction.toJson)

def fromJson (j : Json) : Except Error TransactionList := do
  let ts ← j.items.mapM Transaction.fromJson
  return ⟨ts⟩

instance : BlockData TransactionList where
  valid := valid
  toJson := toJson
  fromJson := fromJson

instance : StoredData TransactionList where
  stored ts := ⟨ts.transactions.map Transaction.unlinked⟩
  fromJson_toJson ts := by
    have h := Except.mapM_map_eq_ok fun t (_ : t ∈ ts.transactions) => t.fromJson_toJson
    simp only [BlockData.fromJson, BlockData.toJson, fromJson, toJson, Json.items_array, h]
    rfl
  toJson_stored ts := by
    simp only [BlockData.toJson, toJson, List.map_map]
    rfl

@[simp] theorem stored_transactions (ts : TransactionList) :
    (StoredData.stored ts).transactions = ts.transactions.map Transaction.unlinked := rfl

end TransactionList

/-! # Wire format -/

/-- The snapshot is not hashed. -/
@[simp] theorem Transaction.determineHash_unlinked [Env] (t : Transaction) :
    t.unlinked.determineHash = t.determineHash := rfl

/-- A block of transactions is read back of its JSON form but for the snapshots,
    which neither the hashes nor the JSON form depend on. -/
theorem Block.fromJson_toJson_transactions [Env] (b : Block TransactionList) :
    ∃ b' : Block TransactionList, fromJson b.toJson = .ok b' ∧
      b' = { b with data := ⟨b.data.transactions.map fun t => { t with unspentOutputs := [] }⟩ } ∧
      b'.determineHash = b.determineHash ∧
      b'.data.transactions.map Transaction.determineHash =
        b.data.transactions.map Transaction.determineHash ∧
      b'.toJson = b.toJson := by
  refine ⟨b.stored, b.fromJson_toJson, rfl, b.determineHash_stored, ?_, b.toJson_stored⟩
  rw [stored_data, TransactionList.stored_transactions, List.map_map]
  exact List.map_congr_left fun t _ => t.determineHash_unlinked

end BuenzliCoin
