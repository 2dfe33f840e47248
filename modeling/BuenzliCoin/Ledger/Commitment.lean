-- SUMMARY: What the texts of digests and transactions determine: digests altogether, transactions up to where their fields end.
import BuenzliCoin.Chain.Tamper

/-!
# Commitments

A digest stands for itself in every text it is written into. A transaction is
signed by its hash, and that is taken over its index, its inputs and its outputs
one after the other, with nothing between them.
-/

namespace BuenzliCoin

open Readable

-- ---------------------------------------------------------------------------
-- Digests
-- ---------------------------------------------------------------------------

/-- A string is told from others by its JSON text. -/
theorem Json.dump_string_injective [Env] :
    Function.Injective fun s => (Json.string s).dump := by
  intro s s' h
  have htext : dumpString s = dumpString s' := by simpa only [dump] using h
  refine (dumpString_readsBack s s' [] [] trivial trivial trivial ?_).1
  simp only [htext]

/-- A digest is read back from its text, so that two digests differ wherever the
    text is written: in JSON, in a link to the block before, and in the key of an
    unspent output. -/
theorem Digest.text_roundTrip {T : Type} [BlockData T] [Env] :
    (∀ d : Digest, Digest.fromString d.toString = .ok d) ∧
    Function.Injective Digest.toString ∧
    ∀ d d' : Digest, d ≠ d' →
      (Json.string d.toString).dump ≠ (Json.string d'.toString).dump ∧
      (∀ b b' : Block T, b.hashPrev = some d → b'.hashPrev = some d' →
        b.prevText ≠ b'.prevText ∧ b.toJson.get "hash_prev" ≠ b'.toJson.get "hash_prev") ∧
      ∀ utxo utxo' : UTxO, utxo.outputHash = d → utxo'.outputHash = d' →
        utxo.toJson.get "output_hash" ≠ utxo'.toJson.get "output_hash" := by
  refine ⟨Digest.fromString_toString, Digest.toString_injective, ?_⟩
  intro d d' hne
  have htext : d.toString ≠ d'.toString := fun h => hne (Digest.toString_injective h)
  refine ⟨?_, ?_, ?_⟩
  · intro h
    exact htext (Json.dump_string_injective h)
  · intro b b' hprev hprev'
    constructor
    · intro h
      rw [Block.prevText, Block.prevText, hprev, hprev'] at h
      exact htext (String.toList_inj.mp h)
    · intro h
      simp [Block.toJson, Json.get, List.lookup_cons, hprev, hprev'] at h
      exact htext h
  · rintro utxo utxo' rfl rfl h
    simp [UTxO.toJson, Json.get, List.lookup_cons] at h
    exact htext h

-- ---------------------------------------------------------------------------
-- Transactions
-- ---------------------------------------------------------------------------

/-- The two texts of an input that are hashed are as long as those of another. -/
structure TxI.SameWidths (txi txi' : TxI) : Prop where
  outputHash : txi.outputHash.toString.toList.length = txi'.outputHash.toString.toList.length
  outputIndex : (decimal txi.outputIndex).length = (decimal txi'.outputIndex).length

structure TxO.SameWidths (txo txo' : TxO) : Prop where
  amount : (decimal txo.amount).length = (decimal txo'.amount).length
  address : txo.address.toList.length = txo'.address.toList.length

/-- The text of an input in the hash. -/
def TxI.hashedText (txi : TxI) : List Char :=
  txi.outputHash.toString.toList ++ decimal txi.outputIndex

def TxO.hashedText (txo : TxO) : List Char := decimal txo.amount ++ txo.address.toList

theorem TxI.SameWidths.length_hashedText {txi txi' : TxI} (h : txi.SameWidths txi') :
    txi.hashedText.length = txi'.hashedText.length := by
  simp only [hashedText, List.length_append, h.outputHash, h.outputIndex]

theorem TxO.SameWidths.length_hashedText {txo txo' : TxO} (h : txo.SameWidths txo') :
    txo.hashedText.length = txo'.hashedText.length := by
  simp only [hashedText, List.length_append, h.amount, h.address]

/-- An input is read off its text if it is known where the hash ends. -/
theorem TxI.ref_eq_of_hashedText {txi txi' : TxI} (hwidths : txi.SameWidths txi')
    (h : txi.hashedText = txi'.hashedText) : txi.ref = txi'.ref := by
  obtain ⟨hhash, hindex⟩ := List.append_inj h hwidths.outputHash
  rw [TxI.ref, TxI.ref, Digest.toString_injective (String.toList_inj.mp hhash),
    decimal_injective hindex]

theorem TxO.eq_of_hashedText {txo txo' : TxO} (hwidths : txo.SameWidths txo')
    (h : txo.hashedText = txo'.hashedText) : txo = txo' := by
  obtain ⟨hamount, haddress⟩ := List.append_inj h hwidths.amount
  cases txo
  cases txo'
  obtain rfl := decimal_injective hamount
  obtain rfl := String.toList_inj.mp haddress
  rfl

namespace Transaction

/-- The text that `determine_hash` hashes. -/
def hashedText (t : Transaction) : String :=
  toString t.index ++
    String.join (t.inputs.map fun txi => txi.outputHash.toString ++ toString txi.outputIndex) ++
    String.join (t.outputs.map fun txo => toString txo.amount ++ txo.address)

theorem determineHash_eq [Env] (t : Transaction) : t.determineHash = Env.hash t.hashedText := rfl

/-- The transactions are equal but for signatures, type and stored hash. -/
structure Agrees (t t' : Transaction) : Prop where
  index : t.index = t'.index
  refs : t.refs = t'.refs
  outputs : t.outputs = t'.outputs

/-- The transactions have equally many inputs and outputs, and the fields that
    are hashed have texts of the same length. -/
structure SameWidths (t t' : Transaction) : Prop where
  index : (decimal t.index).length = (decimal t'.index).length
  inputs : List.Forall₂ TxI.SameWidths t.inputs t'.inputs
  outputs : List.Forall₂ TxO.SameWidths t.outputs t'.outputs

theorem refs_eq_iff {t t' : Transaction} :
    t.refs = t'.refs ↔
      List.Forall₂ (fun txi txi' : TxI => txi.ref = txi'.ref) t.inputs t'.inputs := by
  rw [← List.forall₂_eq_eq_eq, refs, refs, List.forall₂_map_left_iff, List.forall₂_map_right_iff]

theorem Agrees.sameWidths {t t' : Transaction} (h : t.Agrees t') : t.SameWidths t' where
  index := by rw [h.index]
  inputs := by
    refine (refs_eq_iff.mp h.refs).imp ?_
    intro txi txi' href
    obtain ⟨hhash, hindex⟩ := OutputRef.mk.inj href
    exact ⟨by rw [hhash], by rw [hindex]⟩
  outputs := by
    rw [h.outputs]
    exact List.forall₂_same.mpr fun _ _ => ⟨rfl, rfl⟩

theorem toList_hashedText (t : Transaction) :
    t.hashedText.toList = decimal t.index ++
      (t.inputs.flatMap TxI.hashedText ++ t.outputs.flatMap TxO.hashedText) := by
  simp only [hashedText, String.toList_append, String.toList_join, List.flatMap_map,
    List.append_assoc]
  rfl

/-- Fields of which it is known where they end can be read off. -/
theorem agrees_of_hashedText {t t' : Transaction} (hwidths : t.SameWidths t')
    (h : t.hashedText = t'.hashedText) : t.Agrees t' := by
  have htext := congrArg String.toList h
  rw [toList_hashedText, toList_hashedText] at htext
  obtain ⟨hindex, htext⟩ := List.append_inj htext hwidths.index
  obtain ⟨hinputs, htext⟩ := flatMap_inj_of_widths (e := TxI.hashedText)
    (fun _ _ => TxI.SameWidths.length_hashedText) hwidths.inputs htext
  rw [← List.append_nil (t.outputs.flatMap _), ← List.append_nil (t'.outputs.flatMap _)] at htext
  obtain ⟨houtputs, -⟩ := flatMap_inj_of_widths (e := TxO.hashedText)
    (fun _ _ => TxO.SameWidths.length_hashedText) hwidths.outputs htext
  refine ⟨decimal_injective hindex, refs_eq_iff.mpr (hinputs.imp ?_), ?_⟩
  · exact fun _ _ h => TxI.ref_eq_of_hashedText h.1 h.2
  · rw [← List.forall₂_eq_eq_eq]
    exact houtputs.imp fun _ _ h => TxO.eq_of_hashedText h.1 h.2

/-- A hasher without collisions ties a hash to one transaction exactly as far as
    the widths of the fields go. -/
theorem agrees_iff_sameWidths [Env] {t t' : Transaction}
    (hinjective : Function.Injective Env.hash) (h : t.determineHash = t'.determineHash) :
    t.Agrees t' ↔ t.SameWidths t' :=
  ⟨Agrees.sameWidths, fun hwidths => agrees_of_hashedText hwidths (hinjective h)⟩

end Transaction

/-- The output that the transactions below spend. -/
def onePaid : UTxO := ⟨⟨[0xab]⟩, 0, ⟨1, "from"⟩⟩

/-- A transaction that spends it, with the given outputs. -/
def payingOutputs (outputs : List TxO) : Transaction :=
  letI := plainBuild
  let t : Transaction := {
    type := .standard
    index := 1
    hash := ⟨[]⟩
    inputs := [⟨⟨[0xab]⟩, 0, ⟨[0x01]⟩⟩]
    outputs }
  { t with hash := t.determineHash }

/-- Two transactions of the same hash that differ in the signature, and two that differ in
    what they pay. -/
theorem Transaction.agrees_iff_sameWidths_paying :
    letI := plainBuild
    let t := payingOutputs [⟨1, "a"⟩, ⟨0, "b"⟩]
    let signed := { t with inputs := [⟨⟨[0xab]⟩, 0, ⟨[0x02]⟩⟩] }
    let t' := payingOutputs [⟨1, "a0b"⟩]
    Function.Injective Env.hash ∧ t ≠ signed ∧ t ≠ t' ∧ t.determineHash = signed.determineHash ∧
    t.determineHash = t'.determineHash ∧ (t.Agrees signed ↔ t.SameWidths signed) ∧
    (t.Agrees t' ↔ t.SameWidths t') := by
  let env := plainBuild
  intro t signed t'
  have hsigned : t.determineHash = signed.determineHash := rfl
  have hhash : t.determineHash = t'.determineHash := by decide +kernel
  exact ⟨plainBuild_hash_injective, fun h => absurd (congrArg Transaction.inputs h) (by decide),
    fun h => absurd (congrArg Transaction.outputs h) (by decide), hsigned, hhash,
    agrees_iff_sameWidths plainBuild_hash_injective hsigned,
    agrees_iff_sameWidths plainBuild_hash_injective hhash⟩

/-- Paying 1 to "a" and 0 to "b" reads like paying 1 to "a0b": the hash is the
    same, and so is the signature that both are valid with. -/
theorem Transaction.not_agrees_of_paying :
    letI := plainBuild
    let t := payingOutputs [⟨1, "a"⟩, ⟨0, "b"⟩]
    let t' := payingOutputs [⟨1, "a0b"⟩]
    Function.Injective Env.hash ∧ fromJson t.toJson = .ok t ∧ fromJson t'.toJson = .ok t' ∧
    t.determineHash = t'.determineHash ∧ t.hash = t'.hash ∧
    t.inputs.map TxI.signature = t'.inputs.map TxI.signature ∧
    (t.updateUnspentOutputs [onePaid]).valid = .ok () ∧
    (t'.updateUnspentOutputs [onePaid]).valid = .ok () ∧ ¬ t.Agrees t' := by
  let env := plainBuild
  refine ⟨plainBuild_hash_injective, fromJson_toJson _, fromJson_toJson _, ?_, ?_, rfl, ?_, ?_, ?_⟩
  · decide +kernel
  · decide +kernel
  · decide +kernel
  · decide +kernel
  · intro h
    exact absurd h.outputs (by decide)

end BuenzliCoin
