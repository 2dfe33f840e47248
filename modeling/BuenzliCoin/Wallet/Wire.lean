-- SUMMARY: The transaction types of the wallet, their JSON forms, and how they stand for those of the node.
import BuenzliCoin.Ledger.UnspentOutputs
import BuenzliCoin.Wallet.Go

/-!
# Wire

The wallet has Go types of its own for transactions. Its numbers are of type
`int`, signed and with 64 bits, where the node has `std::size_t`. Digests stay
in the text form in which the node sends them.
-/

namespace BuenzliCoin

open GoString

/-- How a function of the wallet ends if it does not succeed: with an error of its
    own, with that of another package, or with a panic. -/
inductive Failure where
  | error (text : GoString)
  | library (package : String)
  | panic
  deriving DecidableEq

-- ---------------------------------------------------------------------------
-- Types
-- ---------------------------------------------------------------------------

structure TransactionInput where
  outputHash : GoString
  outputIndex : Int64
  signature : GoString

structure TransactionOutput where
  amount : Int64
  address : GoString

structure TransactionUnspentOutput where
  outputHash : GoString
  outputIndex : Int64
  output : TransactionOutput

/-- `transaction` -/
structure WalletTransaction where
  type : GoString
  index : Int64
  hash : GoString
  inputs : List TransactionInput
  outputs : List TransactionOutput

-- ---------------------------------------------------------------------------
-- Package encoding/json
-- ---------------------------------------------------------------------------

/-! `json.Unmarshal` into a new value. What is missing or null stays zero; any other
    mismatch of types is an error, and so is a number that the type does not hold.
    The node spells the keys as the tags do, and writes none of them twice. -/

namespace Unmarshal

def mismatch : Failure := .library "encoding/json"

def string : Option Json → Except Failure GoString
  | none | some .null => .ok []
  | some (.string s) => .ok (ofString s)
  | some _ => .error mismatch

def int : Option Json → Except Failure Int64
  | none | some .null => .ok 0
  | some (.numberUnsigned n) => if n.toNat < 2 ^ 63 then .ok n.toInt64 else .error mismatch
  | some (.numberInteger i) => .ok i
  | some _ => .error mismatch

def slice {α : Type} (decode : Option Json → Except Failure α) :
    Option Json → Except Failure (List α)
  | none | some .null => .ok []
  | some (.array items) => items.mapM fun j => decode (some j)
  | some _ => .error mismatch

/-- The fields of a struct. -/
def fields : Option Json → Except Failure (String → Option Json)
  | none | some .null => .ok fun _ => none
  | some (.object members) => .ok fun key => members.lookup key
  | some _ => .error mismatch

end Unmarshal

/-! `json.Marshal`. -/

namespace Marshal

def string (s : GoString) : Json := .string (Utf8.text s)

def int (n : Int64) : Json := if 0 ≤ n then .numberUnsigned n.toUInt64 else .numberInteger n

end Marshal

namespace TransactionInput

def unmarshal (j : Option Json) : Except Failure TransactionInput := do
  let field ← Unmarshal.fields j
  let outputHash ← Unmarshal.string (field "output_hash")
  let outputIndex ← Unmarshal.int (field "output_index")
  let signature ← Unmarshal.string (field "signature")
  return { outputHash, outputIndex, signature }

def toJson (txi : TransactionInput) : Json :=
  .object [("output_hash", Marshal.string txi.outputHash),
    ("output_index", Marshal.int txi.outputIndex), ("signature", Marshal.string txi.signature)]

end TransactionInput

namespace TransactionOutput

def unmarshal (j : Option Json) : Except Failure TransactionOutput := do
  let field ← Unmarshal.fields j
  let amount ← Unmarshal.int (field "amount")
  let address ← Unmarshal.string (field "address")
  return { amount, address }

def toJson (txo : TransactionOutput) : Json :=
  .object [("address", Marshal.string txo.address), ("amount", Marshal.int txo.amount)]

end TransactionOutput

def TransactionUnspentOutput.unmarshal (j : Option Json) :
    Except Failure TransactionUnspentOutput := do
  let field ← Unmarshal.fields j
  let outputHash ← Unmarshal.string (field "output_hash")
  let outputIndex ← Unmarshal.int (field "output_index")
  let output ← TransactionOutput.unmarshal (field "output")
  return { outputHash, outputIndex, output }

namespace WalletTransaction

def unmarshal (j : Option Json) : Except Failure WalletTransaction := do
  let field ← Unmarshal.fields j
  let type ← Unmarshal.string (field "type")
  let index ← Unmarshal.int (field "index")
  let hash ← Unmarshal.string (field "hash")
  let inputs ← Unmarshal.slice TransactionInput.unmarshal (field "inputs")
  let outputs ← Unmarshal.slice TransactionOutput.unmarshal (field "outputs")
  return { type, index, hash, inputs, outputs }

def toJson (t : WalletTransaction) : Json :=
  .object [("hash", Marshal.string t.hash), ("index", Marshal.int t.index),
    ("inputs", .array (t.inputs.map TransactionInput.toJson)),
    ("outputs", .array (t.outputs.map TransactionOutput.toJson)),
    ("type", Marshal.string t.type)]

end WalletTransaction

-- ---------------------------------------------------------------------------
-- Numbers that an `int` holds
-- ---------------------------------------------------------------------------

/-- The number fits an `int`. -/
def FitsInt (n : UInt64) : Prop := n.toNat < 2 ^ 63

instance (n : UInt64) : Decidable (FitsInt n) := inferInstanceAs (Decidable (n.toNat < 2 ^ 63))

theorem FitsInt.toInt {n : UInt64} (h : FitsInt n) : n.toInt64.toInt = n.toNat := by
  rw [← Int64.toInt_toBitVec, UInt64.toBitVec_toInt64, BitVec.toInt_eq_toNat_of_lt]
  · rfl
  · have hlt : n.toNat < 2 ^ 63 := h
    have hnat : n.toBitVec.toNat = n.toNat := rfl
    omega

theorem FitsInt.nonneg {n : UInt64} (h : FitsInt n) : 0 ≤ n.toInt64 := by
  rw [Int64.le_iff_toInt_le, h.toInt]
  exact Int.natCast_nonneg _

/-- A number that is not negative, without its sign. -/
theorem toNat_toUInt64 {n : Int64} (h : 0 ≤ n) : (n.toUInt64.toNat : Int) = n.toInt := by
  have hnonneg : 0 ≤ n.toBitVec.toInt := Int64.le_iff_toInt_le.mp h
  have hnat : n.toUInt64.toNat = n.toBitVec.toNat := rfl
  rw [hnat, ← Int64.toInt_toBitVec]
  rw [BitVec.toInt_eq_toNat_cond] at hnonneg ⊢
  split_ifs at hnonneg ⊢ with hsmall
  · rfl
  · omega

theorem fitsInt_toUInt64 {n : Int64} (h : 0 ≤ n) : FitsInt n.toUInt64 := by
  have hnat := toNat_toUInt64 h
  have hlt := n.toInt_lt
  unfold FitsInt
  omega

theorem FitsInt.unmarshal {n : UInt64} (h : FitsInt n) :
    Unmarshal.int (some (.numberUnsigned n)) = .ok n.toInt64 := if_pos h

theorem fitsInt_of_unmarshal {n : UInt64} {i : Int64}
    (h : Unmarshal.int (some (.numberUnsigned n)) = .ok i) : FitsInt n := by
  by_contra hfits
  have hlarge : ¬ n.toNat < 2 ^ 63 := hfits
  rw [Unmarshal.int, if_neg hlarge] at h
  cases h

theorem FitsInt.marshal {n : UInt64} (h : FitsInt n) :
    Marshal.int n.toInt64 = .numberUnsigned n := by
  rw [Marshal.int, if_pos h.nonneg, UInt64.toUInt64_toInt64]

/-- `strconv.Itoa` and `operator<<` write the same digits. -/
theorem FitsInt.toString {n : UInt64} (h : FitsInt n) : toString n.toInt64 = toString n := by
  change ToString.toString n.toInt64.toInt = ToString.toString n.toNat
  rw [h.toInt]
  rfl

-- ---------------------------------------------------------------------------
-- What the node sends
-- ---------------------------------------------------------------------------

/-! The values of the wallet's types that stand for those of the node's. -/

def TxI.toGo (txi : TxI) : TransactionInput :=
  ⟨ofString txi.outputHash.toString, txi.outputIndex.toInt64, ofString txi.signature.toString⟩

def TxO.toGo (txo : TxO) : TransactionOutput := ⟨txo.amount.toInt64, ofString txo.address⟩

def UTxO.toGo (utxo : UTxO) : TransactionUnspentOutput :=
  ⟨ofString utxo.outputHash.toString, utxo.outputIndex.toInt64, utxo.output.toGo⟩

def TransactionType.toGo : TransactionType → GoString
  | .standard => ofString "standard"
  | .reward => ofString "reward"

def Transaction.toGo (t : Transaction) : WalletTransaction :=
  ⟨t.type.toGo, t.index.toInt64, ofString t.hash.toString, t.inputs.map TxI.toGo,
    t.outputs.map TxO.toGo⟩

/-- All numbers of an unspent output fit an `int`. -/
structure UTxO.Fits (utxo : UTxO) : Prop where
  outputIndex : FitsInt utxo.outputIndex
  amount : FitsInt utxo.output.amount

/-- All numbers of a transaction fit an `int`. -/
structure Transaction.Fits (t : Transaction) : Prop where
  index : FitsInt t.index
  inputs : ∀ txi ∈ t.inputs, FitsInt txi.outputIndex
  outputs : ∀ txo ∈ t.outputs, FitsInt txo.amount

theorem TxI.unmarshal_toJson {txi : TxI} (h : FitsInt txi.outputIndex) :
    TransactionInput.unmarshal (some txi.toJson) = .ok txi.toGo := by
  simp [TransactionInput.unmarshal, toJson, Unmarshal.fields, Unmarshal.string, h.unmarshal,
    List.lookup_cons, toGo, bind, Except.bind, pure, Except.pure]

theorem TxO.unmarshal_toJson {txo : TxO} (h : FitsInt txo.amount) :
    TransactionOutput.unmarshal (some txo.toJson) = .ok txo.toGo := by
  simp [TransactionOutput.unmarshal, toJson, Unmarshal.fields, Unmarshal.string, h.unmarshal,
    List.lookup_cons, toGo, bind, Except.bind, pure, Except.pure]

theorem UTxO.unmarshal_toJson {utxo : UTxO} (h : utxo.Fits) :
    TransactionUnspentOutput.unmarshal (some utxo.toJson) = .ok utxo.toGo := by
  simp [TransactionUnspentOutput.unmarshal, toJson, Unmarshal.fields, Unmarshal.string,
    h.outputIndex.unmarshal, TxO.unmarshal_toJson h.amount, List.lookup_cons, toGo, bind,
    Except.bind, pure, Except.pure]

theorem Transaction.unmarshal_toJson {t : Transaction} (h : t.Fits) :
    WalletTransaction.unmarshal (some t.toJson) = .ok t.toGo := by
  have hinputs : (t.inputs.map TxI.toJson).mapM (fun j => TransactionInput.unmarshal (some j)) =
      .ok (t.inputs.map TxI.toGo) :=
    Except.mapM_map_eq_ok fun txi htxi => TxI.unmarshal_toJson (h.inputs txi htxi)
  have houtputs : (t.outputs.map TxO.toJson).mapM (fun j => TransactionOutput.unmarshal (some j)) =
      .ok (t.outputs.map TxO.toGo) :=
    Except.mapM_map_eq_ok fun txo htxo => TxO.unmarshal_toJson (h.outputs txo htxo)
  have htype : Unmarshal.string (some t.type.toJson) = .ok t.type.toGo := by
    cases t.type <;> rfl
  have hhash : Unmarshal.string (some (.string t.hash.toString)) = .ok (ofString t.hash.toString) :=
    rfl
  simp only [WalletTransaction.unmarshal, toJson, Unmarshal.fields, List.lookup_cons,
    String.reduceBEq, Unmarshal.slice, htype, h.index.unmarshal, hhash, hinputs, houtputs, bind,
    Except.bind, pure, Except.pure]
  rfl

/-! What the wallet takes in has numbers that fit. -/

theorem TxI.fitsInt_of_unmarshal {txi : TxI} {i : TransactionInput}
    (h : TransactionInput.unmarshal (some txi.toJson) = .ok i) : FitsInt txi.outputIndex := by
  obtain ⟨field, hfields, h⟩ := Except.bind_eq_ok_iff.mp h
  cases hfields
  obtain ⟨hash, hhash, h⟩ := Except.bind_eq_ok_iff.mp h
  obtain ⟨i, hindex, -⟩ := Except.bind_eq_ok_iff.mp h
  exact BuenzliCoin.fitsInt_of_unmarshal hindex

theorem TxO.fitsInt_of_unmarshal {txo : TxO} {o : TransactionOutput}
    (h : TransactionOutput.unmarshal (some txo.toJson) = .ok o) : FitsInt txo.amount := by
  obtain ⟨field, hfields, h⟩ := Except.bind_eq_ok_iff.mp h
  cases hfields
  obtain ⟨amount, hamount, -⟩ := Except.bind_eq_ok_iff.mp h
  exact BuenzliCoin.fitsInt_of_unmarshal hamount

theorem UTxO.fits_of_unmarshal {utxo : UTxO} {u : TransactionUnspentOutput}
    (h : TransactionUnspentOutput.unmarshal (some utxo.toJson) = .ok u) : utxo.Fits := by
  obtain ⟨field, hfields, h⟩ := Except.bind_eq_ok_iff.mp h
  cases hfields
  obtain ⟨hash, hhash, h⟩ := Except.bind_eq_ok_iff.mp h
  obtain ⟨i, hindex, h⟩ := Except.bind_eq_ok_iff.mp h
  obtain ⟨output, houtput, -⟩ := Except.bind_eq_ok_iff.mp h
  exact ⟨BuenzliCoin.fitsInt_of_unmarshal hindex, TxO.fitsInt_of_unmarshal houtput⟩

theorem Transaction.fits_of_unmarshal {t : Transaction} {trans : WalletTransaction}
    (h : WalletTransaction.unmarshal (some t.toJson) = .ok trans) : t.Fits := by
  obtain ⟨field, hfields, h⟩ := Except.bind_eq_ok_iff.mp h
  cases hfields
  obtain ⟨type, htype, h⟩ := Except.bind_eq_ok_iff.mp h
  obtain ⟨index, hindex, h⟩ := Except.bind_eq_ok_iff.mp h
  obtain ⟨hash, hhash, h⟩ := Except.bind_eq_ok_iff.mp h
  obtain ⟨inputs, hinputs, h⟩ := Except.bind_eq_ok_iff.mp h
  obtain ⟨outputs, houtputs, -⟩ := Except.bind_eq_ok_iff.mp h
  refine ⟨BuenzliCoin.fitsInt_of_unmarshal hindex, ?_, ?_⟩
  · intro txi htxi
    obtain ⟨i, hi⟩ := Except.forall_of_mapM_eq_ok hinputs txi.toJson (List.mem_map_of_mem htxi)
    exact TxI.fitsInt_of_unmarshal hi
  · intro txo htxo
    obtain ⟨o, ho⟩ := Except.forall_of_mapM_eq_ok houtputs txo.toJson (List.mem_map_of_mem htxo)
    exact TxO.fitsInt_of_unmarshal ho

/-! ## What the wallet sends -/

theorem TxI.toJson_toGo {txi : TxI} (h : FitsInt txi.outputIndex) :
    txi.toGo.toJson = txi.toJson := by
  simp only [TransactionInput.toJson, toGo, toJson, Marshal.string, Utf8.text_ofString, h.marshal]

theorem TxO.toJson_toGo {txo : TxO} (h : FitsInt txo.amount) : txo.toGo.toJson = txo.toJson := by
  simp only [TransactionOutput.toJson, toGo, toJson, Marshal.string, Utf8.text_ofString, h.marshal]

/-- The wallet sends what the node would send. -/
theorem Transaction.toJson_toGo {t : Transaction} (h : t.Fits) : t.toGo.toJson = t.toJson := by
  have htype : Marshal.string t.type.toGo = t.type.toJson := by
    cases t.type <;> exact congrArg Json.string (Utf8.text_ofString _)
  have hinputs : (t.inputs.map TxI.toGo).map TransactionInput.toJson = t.inputs.map TxI.toJson := by
    rw [List.map_map]
    exact List.map_congr_left fun txi htxi => TxI.toJson_toGo (h.inputs txi htxi)
  have houtputs : (t.outputs.map TxO.toGo).map TransactionOutput.toJson =
      t.outputs.map TxO.toJson := by
    rw [List.map_map]
    exact List.map_congr_left fun txo htxo => TxO.toJson_toGo (h.outputs txo htxo)
  rw [WalletTransaction.toJson, toGo, hinputs, houtputs, htype, h.index.marshal, Marshal.string,
    Utf8.text_ofString]
  rfl

end BuenzliCoin
