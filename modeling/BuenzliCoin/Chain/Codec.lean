-- SUMMARY: Blocks and chains through their JSON form, and what from_json has done when it returns.
import BuenzliCoin.Chain.Blockchain
import BuenzliCoin.Lib.Except

/-!
# JSON forms

A JSON form need not hold everything: a transaction leaves out the unspent
outputs that it was linked to. What is read back of a value is called its
stored part.
-/

namespace BuenzliCoin

/-- Block data whose JSON form can be read back. -/
class StoredData (T : Type) [BlockData T] where
  stored : T → T
  fromJson_toJson : ∀ d, BlockData.fromJson (BlockData.toJson d) = .ok (stored d)
  toJson_stored : ∀ d, BlockData.toJson (stored d) = BlockData.toJson d

theorem StoredData.stored_stored {T : Type} [BlockData T] [StoredData T] (d : T) :
    stored (stored d) = stored d := by
  have hread := fromJson_toJson (stored d)
  rw [toJson_stored, fromJson_toJson] at hread
  exact (Except.ok.inj hread).symm

namespace Block

variable {T : Type} [BlockData T]

/-- The data of a block that was decoded was decoded as well. -/
theorem data_of_fromJson {j : Json} {b : Block T} (h : fromJson j = .ok b) :
    ∃ dataJson, BlockData.fromJson dataJson = .ok b.data := by
  simp only [fromJson, Except.bind_eq_ok_iff] at h
  obtain ⟨dataJson, -, data, hdata, _, -, _, -, _, -, _, -, _, -, _, -, _, -, _, -, _, -, h⟩ := h
  refine ⟨dataJson, ?_⟩
  split_ifs at h
  · simp only [Except.bind_eq_ok_iff, Except.pure_eq_ok_iff] at h
    obtain ⟨_, -, _, -, _, -, rfl⟩ := h
    exact hdata
  · simp only [Except.bind_eq_ok_iff, Except.pure_eq_ok_iff] at h
    obtain ⟨_, -, rfl⟩ := h
    exact hdata

variable [StoredData T]

def stored (b : Block T) : Block T := { b with data := StoredData.stored b.data }

@[simp] theorem stored_data (b : Block T) : b.stored.data = StoredData.stored b.data := rfl
@[simp] theorem stored_timestamp (b : Block T) : b.stored.timestamp = b.timestamp := rfl
@[simp] theorem stored_index (b : Block T) : b.stored.index = b.index := rfl
@[simp] theorem stored_hashPrev (b : Block T) : b.stored.hashPrev = b.hashPrev := rfl
@[simp] theorem stored_hash (b : Block T) : b.stored.hash = b.hash := rfl

theorem fromJson_toJson (b : Block T) : fromJson b.toJson = .ok b.stored := by
  obtain ⟨data, timestamp, nonce, index, hashPrev, hash⟩ := b
  cases hashPrev <;>
    simp [fromJson, toJson, stored, Json.atKey, Json.contains, Json.getString, Json.getUInt64,
      StoredData.fromJson_toJson, List.lookup_cons, bind, Except.bind, pure, Except.pure,
      Functor.map, Except.map]

@[simp] theorem toJson_stored (b : Block T) : b.stored.toJson = b.toJson := by
  simp only [toJson, stored, StoredData.toJson_stored]

@[simp] theorem stored_stored (b : Block T) : b.stored.stored = b.stored := by
  simp only [stored, StoredData.stored_stored]

variable [Env]

/-- A block is hashed over its JSON form, so the hash survives it. -/
@[simp] theorem determineHash_stored (b : Block T) : b.stored.determineHash = b.determineHash := by
  simp only [determineHash, stored, StoredData.toJson_stored]

end Block

namespace Blockchain

variable {T : Type} [BlockData T]

/-- The blocks in the JSON form of a chain. -/
theorem mapM_fromJson_toJson [StoredData T] (bs : List (Block T)) :
    (bs.map Block.toJson).mapM Block.fromJson = .ok (bs.map Block.stored) :=
  Except.mapM_map_eq_ok fun b _ => b.fromJson_toJson

variable [Env]

/-- One round of the loop of `from_json`. -/
theorem appendAll_cons_eq_ok {bc bc' : Blockchain T} {j : Json} {js : List Json} {clock : Clock} :
    appendAll bc (j :: js) clock = .ok bc' ↔
      ∃ b next, Block.fromJson j = .ok b ∧ bc.appendNextBlock b (clock 0) = (.ok (), next) ∧
        appendAll next js (clock.drop 1) = .ok bc' := by
  rw [appendAll, Except.bind_eq_ok_iff]
  constructor
  · rintro ⟨b, hb, h⟩
    split at h
    · cases h
    · next next happend => exact ⟨b, next, hb, happend, h⟩
  · rintro ⟨b, next, hb, happend, h⟩
    refine ⟨b, hb, ?_⟩
    rw [happend]
    exact h

/-- The rule for `from_json`: what holds of the empty chain and is kept by every
    block that is appended holds of the chain that is returned. -/
theorem fromJson_induction {P : Blockchain T → Prop} {j : Json} {clock : Clock} {bc : Blockchain T}
    (h : fromJson j clock = .ok bc) (hnew : P new)
    (happend : ∀ bc b i bc', P bc → Appended bc b (clock i) bc' → P bc') : P bc := by
  unfold fromJson at h
  generalize new = start at h hnew
  generalize j.items = js at h
  induction js generalizing start clock with
  | nil =>
    cases h
    exact hnew
  | cons j js ih =>
    obtain ⟨b, next, -, hnext, h⟩ := appendAll_cons_eq_ok.mp h
    obtain ⟨e, herror, -⟩ | ⟨-, hstep⟩ := appendNextBlock_cases hnext
    · cases herror
    · have hlater : ∀ bc b i bc', P bc → Appended bc b (clock.drop 1 i) bc' → P bc' :=
        fun bc b i bc' hbc hstep => happend bc b (1 + i) bc' hbc hstep
      exact ih hlater next (happend start b 0 next hnew hstep) h

/-- The chain that `from_json` returns consists of the decoded blocks. -/
theorem fromJson_blocks {j : Json} {clock : Clock} {bc : Blockchain T}
    (h : fromJson j clock = .ok bc) : j.items.mapM Block.fromJson = .ok bc.blocks := by
  suffices hloop : ∀ (js : List Json) (start : Blockchain T) (clock : Clock),
      appendAll start js clock = .ok bc →
      ∃ bs, js.mapM Block.fromJson = .ok bs ∧ bc.blocks = start.blocks ++ bs by
    obtain ⟨bs, hbs, hblocks⟩ := hloop _ _ _ h
    rw [hbs, hblocks]
    rfl
  intro js
  induction js with
  | nil =>
    intro start clock h
    cases h
    exact ⟨[], rfl, by simp⟩
  | cons j js ih =>
    intro start clock h
    obtain ⟨b, next, hb, hnext, h⟩ := appendAll_cons_eq_ok.mp h
    obtain ⟨e, herror, -⟩ | ⟨-, hstep⟩ := appendNextBlock_cases hnext
    · cases herror
    · obtain ⟨bs, hbs, hblocks⟩ := ih next (clock.drop 1) h
      refine ⟨b :: bs, ?_, ?_⟩
      · rw [List.mapM_cons, hb, hbs]
        rfl
      · rw [hblocks, hstep.blocks]
        simp

end Blockchain

end BuenzliCoin
