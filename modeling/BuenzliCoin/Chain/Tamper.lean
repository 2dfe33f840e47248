-- SUMMARY: How far the hash of the last block determines a valid chain.
import BuenzliCoin.Base.JsonText
import BuenzliCoin.Chain.Validity
import BuenzliCoin.Ledger.Transaction

/-!
# Tamper evidence

A block is hashed over the concatenation of its data, its timestamp, its nonce,
its index and the hash before it. The data ends where its JSON text does, but the
three numbers that follow are not delimited.
-/

namespace BuenzliCoin

open Readable

-- ---------------------------------------------------------------------------
-- Data
-- ---------------------------------------------------------------------------

/-- Block data whose JSON text says where it ends. -/
class DelimitedData (T : Type) [BlockData T] : Prop where
  plain : ∀ d : T, (BlockData.toJson d).Plain
  delimited : ∀ (d : T) (s : List Char), (BlockData.toJson d).Follows s

instance : DelimitedData Text where
  plain t := .string t.text
  delimited _ _ := trivial

theorem TxI.plain_toJson (txi : TxI) : txi.toJson.Plain := by
  refine .object ?_
  simp only [List.forall_mem_cons]
  exact ⟨.string _, .unsigned _, .string _, fun _ h => absurd h List.not_mem_nil⟩

theorem TxO.plain_toJson (txo : TxO) : txo.toJson.Plain := by
  refine .object ?_
  simp only [List.forall_mem_cons]
  exact ⟨.string _, .unsigned _, fun _ h => absurd h List.not_mem_nil⟩

theorem TransactionType.plain_toJson (type : TransactionType) : type.toJson.Plain := by
  cases type with
  | standard => exact .string _
  | reward => exact .string _

theorem Json.plain_array_map {α : Type} {toJson : α → Json} (h : ∀ a, (toJson a).Plain)
    (as : List α) : (array (as.map toJson)).Plain := by
  refine .array ?_
  intro j hj
  obtain ⟨a, -, rfl⟩ := List.mem_map.mp hj
  exact h a

theorem Transaction.plain_toJson (t : Transaction) : t.toJson.Plain := by
  refine .object ?_
  simp only [List.forall_mem_cons]
  exact ⟨.string _, .unsigned _, Json.plain_array_map TxI.plain_toJson _,
    Json.plain_array_map TxO.plain_toJson _, t.type.plain_toJson,
    fun _ h => absurd h List.not_mem_nil⟩

instance : DelimitedData TransactionList where
  plain ts := Json.plain_array_map Transaction.plain_toJson ts.transactions
  delimited _ _ := trivial

-- ---------------------------------------------------------------------------
-- Blocks
-- ---------------------------------------------------------------------------

namespace Block

variable {T : Type} [BlockData T]

/-- The blocks are equal but for what the encoding of their data leaves out. -/
structure Agrees (b b' : Block T) : Prop where
  data : BlockData.toJson b.data = BlockData.toJson b'.data
  timestamp : b.timestamp = b'.timestamp
  nonce : b.nonce = b'.nonce
  index : b.index = b'.index
  hash : b.hash = b'.hash
  hashPrev : b.hashPrev = b'.hashPrev

omit [BlockData T] in
/-- Timestamps and nonces have equally many decimal digits. -/
structure SameWidths (b b' : Block T) : Prop where
  timestamp : (decimal b.timestamp.toTimeSinceEpoch).length =
    (decimal b'.timestamp.toTimeSinceEpoch).length
  nonce : (decimal b.nonce).length = (decimal b'.nonce).length

theorem Agrees.sameWidths {b b' : Block T} (h : b.Agrees b') : b.SameWidths b' where
  timestamp := by rw [h.timestamp]
  nonce := by rw [h.nonce]

omit [BlockData T] in
/-- The text of the hash before. -/
def prevText (b : Block T) : List Char :=
  match b.hashPrev with
  | some hashPrev => hashPrev.toString.toList
  | none => []

omit [BlockData T] in
theorem hashPrev_eq_of_prevText {b b' : Block T}
    (hsome : b.hashPrev = none ↔ b'.hashPrev = none) (h : b.prevText = b'.prevText) :
    b.hashPrev = b'.hashPrev := by
  unfold prevText at h
  cases hprev : b.hashPrev with
  | none => exact (hsome.mp hprev).symm
  | some d =>
    cases hprev' : b'.hashPrev with
    | none => exact absurd (hsome.mpr hprev') (by simp [hprev])
    | some d' =>
      rw [hprev, hprev'] at h
      exact congrArg some (Digest.toString_injective (String.toList_inj.mp h))

variable [Env]

/-- The text that a block is hashed over. -/
def hashedText (b : Block T) : List Char :=
  (BlockData.toJson b.data).dump.toList ++ decimal b.timestamp.toTimeSinceEpoch ++
    decimal b.nonce ++ decimal b.index ++ b.prevText

/-- A hasher without collisions hashes the same text only once. -/
theorem hashedText_eq_of_determineHash {b b' : Block T}
    (hinjective : Function.Injective Env.hash) (h : b.determineHash = b'.determineHash) :
    b.hashedText = b'.hashedText := by
  have htext := congrArg String.toList (hinjective h)
  simp only [String.toList_append] at htext
  unfold hashedText prevText
  cases hprev : b.hashPrev <;> cases hprev' : b'.hashPrev <;>
    simpa [hprev, hprev', decimal] using htext

/-- The numbers of which it is known where they end can be read off, and the rest
    with them. -/
theorem fields_eq_of_hashedText [DelimitedData T] {b b' : Block T} (hwidths : b.SameWidths b')
    (hindex : b.index = b'.index) (hsome : b.hashPrev = none ↔ b'.hashPrev = none)
    (h : b.hashedText = b'.hashedText) :
    BlockData.toJson b.data = BlockData.toJson b'.data ∧ b.timestamp = b'.timestamp ∧
    b.nonce = b'.nonce ∧ b.hashPrev = b'.hashPrev := by
  simp only [hashedText, List.append_assoc] at h
  obtain ⟨hdata, h⟩ := (DelimitedData.plain b.data).readsBack _ _ _ (DelimitedData.plain b'.data)
    (DelimitedData.delimited _ _) (DelimitedData.delimited _ _) h
  obtain ⟨htimestamp, h⟩ := List.append_inj h hwidths.timestamp
  obtain ⟨hnonce, h⟩ := List.append_inj h hwidths.nonce
  rw [hindex] at h
  refine ⟨hdata, ?_, decimal_injective hnonce,
    hashPrev_eq_of_prevText hsome (List.append_cancel_left h)⟩
  have hepoch := congrArg TimePoint.fromTimeSinceEpoch (decimal_injective htimestamp)
  simpa using hepoch

end Block

-- ---------------------------------------------------------------------------
-- Chains
-- ---------------------------------------------------------------------------

namespace Blockchain

variable {T : Type} [BlockData T] [Env]

/-- What `valid` has established about the block at a position. -/
structure InPlace (bs : List (Block T)) : Prop where
  index : ∀ i (hi : i < bs.length), bs[i].index = UInt64.ofNat i
  hashPrev : ∀ i (hi : i < bs.length), bs[i].hashPrev = none ↔ i = 0
  links : ∀ i (hi : i + 1 < bs.length), bs[i + 1].hashPrev = some bs[i].hash
  hash : ∀ b ∈ bs, b.hash = b.determineHash

theorem inPlace_of_valid {bc : Blockchain T} {clock : Clock} (h : bc.valid clock = .ok ()) :
    InPlace bc.blocks := by
  obtain ⟨-, hblocks, hgenesis, hsuccessors⟩ := valid_eq_ok.mp h
  have hfirst : ∀ hi : 0 < bc.blocks.length,
      bc.blocks[0].index = 0 ∧ bc.blocks[0].hashPrev = none := by
    intro hi
    apply Block.isGenesis_iff.mp
    apply hgenesis
    rw [List.head?_eq_getElem?, List.getElem?_eq_getElem hi]
  have hnext : ∀ i (hi : i + 1 < bc.blocks.length),
      bc.blocks[i + 1].index = bc.blocks[i].index + 1 ∧
        bc.blocks[i + 1].hashPrev = some bc.blocks[i].hash := by
    intro i hi
    exact (Block.isSuccessorOf_iff.mp (hsuccessors.getElem i hi)).2
  refine ⟨?_, ?_, fun i hi => (hnext i hi).2, ?_⟩
  · intro i
    induction i with
    | zero => exact fun hi => (hfirst hi).1
    | succ i ih =>
      intro hi
      rw [(hnext i hi).1, ih (Nat.lt_of_succ_lt hi), UInt64.ofNat_add]
      rfl
  · intro i hi
    cases i with
    | zero => simp [(hfirst hi).2]
    | succ i => simp [(hnext i hi).2]
  · intro b hb
    obtain ⟨i, hi, rfl⟩ := List.getElem_of_mem hb
    exact (Block.valid_eq_ok.mp (hblocks i hi)).2.2

theorem InPlace.agrees [DelimitedData T] {bs bs' : List (Block T)} (h : InPlace bs)
    (h' : InPlace bs') (hinjective : Function.Injective Env.hash) {i : Nat} (hi : i < bs.length)
    (hi' : i < bs'.length) (hwidths : bs[i].SameWidths bs'[i]) (hhash : bs[i].hash = bs'[i].hash) :
    bs[i].Agrees bs'[i] := by
  have hindex : bs[i].index = bs'[i].index := by rw [h.index i hi, h'.index i hi']
  have hsome : bs[i].hashPrev = none ↔ bs'[i].hashPrev = none := by
    rw [h.hashPrev i hi, h'.hashPrev i hi']
  have hdetermined : bs[i].determineHash = bs'[i].determineHash := by
    rw [← h.hash _ (List.getElem_mem hi), ← h'.hash _ (List.getElem_mem hi'), hhash]
  obtain ⟨hdata, htimestamp, hnonce, hprev⟩ := Block.fields_eq_of_hashedText hwidths hindex hsome
    (Block.hashedText_eq_of_determineHash hinjective hdetermined)
  exact ⟨hdata, htimestamp, hnonce, hindex, hhash, hprev⟩

/-- Back along the hash links, from the last block to the first. -/
theorem InPlace.hash_eq [DelimitedData T] {bs bs' : List (Block T)} (h : InPlace bs)
    (h' : InPlace bs') (hinjective : Function.Injective Env.hash)
    (hlength : bs.length = bs'.length)
    (hwidths : ∀ i (hi : i < bs.length) (hi' : i < bs'.length), bs[i].SameWidths bs'[i])
    (hlast : bs.getLast?.map Block.hash = bs'.getLast?.map Block.hash) (k : Nat) :
    ∀ i (hi : i < bs.length) (hi' : i < bs'.length), i + k + 1 = bs.length →
      bs[i].hash = bs'[i].hash := by
  induction k with
  | zero =>
    intro i hi hi' hend
    rw [List.getLast?_eq_getElem?, List.getLast?_eq_getElem?, ← hlength, ← hend,
      Nat.add_sub_cancel, Nat.add_zero, List.getElem?_eq_getElem hi, List.getElem?_eq_getElem hi']
      at hlast
    exact Option.some.inj hlast
  | succ k ih =>
    intro i hi hi' hend
    have hi₁ : i + 1 < bs.length := by omega
    have hi₁' : i + 1 < bs'.length := by omega
    have hnext := ih (i + 1) hi₁ hi₁' (by omega)
    have hprev := (h.agrees h' hinjective hi₁ hi₁' (hwidths (i + 1) hi₁ hi₁') hnext).hashPrev
    rw [h.links i hi₁, h'.links i hi₁'] at hprev
    exact Option.some.inj hprev

/-- Two valid chains whose last hashes are equal are equal exactly if they are of
    the same length and the numbers in their blocks of the same widths. -/
theorem forall₂_agrees_iff [DelimitedData T] {bc bc' : Blockchain T} {clock clock' : Clock}
    (hinjective : Function.Injective Env.hash) (h : bc.valid clock = .ok ())
    (h' : bc'.valid clock' = .ok ())
    (hlast : bc.latestBlock?.map Block.hash = bc'.latestBlock?.map Block.hash) :
    List.Forall₂ Block.Agrees bc.blocks bc'.blocks ↔
      List.Forall₂ Block.SameWidths bc.blocks bc'.blocks := by
  constructor
  · intro hagrees
    exact hagrees.imp fun _ _ => Block.Agrees.sameWidths
  · intro hwidths
    obtain ⟨hlength, hwidths⟩ := List.forall₂_iff_get.mp hwidths
    have hplace := inPlace_of_valid h
    have hplace' := inPlace_of_valid h'
    refine List.forall₂_iff_get.mpr ⟨hlength, fun i hi hi' => ?_⟩
    apply hplace.agrees hplace' hinjective hi hi' (hwidths i hi hi')
    exact hplace.hash_eq hplace' hinjective hlength hwidths hlast (bc.blocks.length - 1 - i) i hi
      hi' (by omega)

end Blockchain

-- ---------------------------------------------------------------------------
-- A collision of texts
-- ---------------------------------------------------------------------------

theorem plainBuild_hash_injective :
    letI := plainBuild
    Function.Injective Env.hash := by
  intro msg msg' h
  have hbytes : msg.toUTF8 = msg'.toUTF8 :=
    ByteArray.ext (Array.toList_inj.mp (Digest.mk.inj h))
  exact String.toByteArray_inj.mp hbytes

/-- A first block with the given numbers. -/
def numberedText (timestamp : TimePoint) (nonce : UInt64) : Block Text :=
  letI := plainBuild
  Block.hashed {
    data := ⟨"text"⟩, timestamp, nonce, index := 0, hashPrev := none, hash := ⟨[]⟩ }

/-- The chain of that block only. -/
def numberedChain (timestamp : TimePoint) (nonce : UInt64) : Blockchain Text :=
  letI := plainBuild
  ⟨[numberedText timestamp nonce], .fresh⟩

theorem numberedChain_valid {timestamp : TimePoint} (nonce : UInt64)
    (htime : timestamp - 60000 < 0) :
    letI := plainBuild
    (numberedChain timestamp nonce).valid .epoch = .ok () := by
  let env := plainBuild
  refine Blockchain.valid_eq_ok.mpr ⟨List.cons_ne_nil _ _, ?_, ?_, .singleton _⟩
  · intro k hk
    obtain rfl := Nat.lt_one_iff.mp hk
    exact Block.valid_eq_ok.mpr ⟨rfl, htime, rfl⟩
  · intro b hb
    cases hb
    rfl

theorem Blockchain.forall₂_agrees_iff_numberedChain :
    letI := plainBuild
    (numberedChain 12 3).valid .epoch = .ok () ∧ (numberedChain 1 23).valid .epoch = .ok () ∧
    Function.Injective Env.hash ∧
    (numberedChain 12 3).latestBlock?.map Block.hash =
      (numberedChain 1 23).latestBlock?.map Block.hash ∧
    (List.Forall₂ Block.Agrees (numberedChain 12 3).blocks (numberedChain 1 23).blocks ↔
      List.Forall₂ Block.SameWidths (numberedChain 12 3).blocks (numberedChain 1 23).blocks) := by
  let env := plainBuild
  have hvalid : (numberedChain 12 3).valid .epoch = .ok () :=
    numberedChain_valid 3 (by decide)
  have hvalid' : (numberedChain 1 23).valid .epoch = .ok () :=
    numberedChain_valid 23 (by decide)
  have hlast : (numberedChain 12 3).latestBlock?.map Block.hash =
      (numberedChain 1 23).latestBlock?.map Block.hash := rfl
  exact ⟨hvalid, hvalid', plainBuild_hash_injective, hlast,
    forall₂_agrees_iff plainBuild_hash_injective hvalid hvalid' hlast⟩

/-- The timestamp 12 before the nonce 3 reads like the timestamp 1 before the
    nonce 23. -/
theorem Blockchain.not_agrees_of_numberedChain :
    letI := plainBuild
    Function.Injective Env.hash ∧ (numberedChain 12 3).valid .epoch = .ok () ∧
    (numberedChain 1 23).valid .epoch = .ok () ∧
    (numberedChain 12 3).latestBlock?.map Block.hash =
      (numberedChain 1 23).latestBlock?.map Block.hash ∧
    ¬ List.Forall₂ Block.Agrees (numberedChain 12 3).blocks (numberedChain 1 23).blocks := by
  let env := plainBuild
  refine ⟨plainBuild_hash_injective, numberedChain_valid 3 (by decide),
    numberedChain_valid 23 (by decide), rfl, ?_⟩
  intro hagrees
  cases hagrees with
  | cons hblock _ => exact absurd hblock.timestamp (by decide)

end BuenzliCoin
