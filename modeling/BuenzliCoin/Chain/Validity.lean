-- SUMMARY: Chains that are valid from some time on, and how adding blocks and decoding keep them so.
import Mathlib.Data.List.Chain
import BuenzliCoin.Chain.Text

namespace BuenzliCoin

namespace Blockchain

variable {T : Type} [BlockData T] [Env]

-- ---------------------------------------------------------------------------
-- What `valid` checks
-- ---------------------------------------------------------------------------

theorem validBlocks_eq_ok {i : Nat} {bs : List (Block T)} {clock : Clock} :
    validBlocks i bs clock = .ok () ↔ ∀ k (hk : k < bs.length), bs[k].valid (clock k) = .ok () := by
  induction bs generalizing i clock with
  | nil =>
    constructor
    · intro _ k hk
      exact absurd hk (Nat.not_lt_zero k)
    · intro _
      rfl
  | cons b bs ih =>
    rw [validBlocks]
    cases hb : b.valid (clock 0) with
    | error e =>
      constructor
      · intro h
        cases h
      · intro h
        have hfirst := h 0 (Nat.succ_pos _)
        rw [List.getElem_cons_zero, hb] at hfirst
        cases hfirst
    | ok _ =>
      simp only [ih, Clock.drop_apply]
      constructor
      · intro h k hk
        cases k with
        | zero => exact hb
        | succ k =>
          rw [List.getElem_cons_succ, Nat.add_comm k 1]
          exact h k (Nat.lt_of_succ_lt_succ hk)
      · intro h k hk
        have hnext := h (k + 1) (Nat.succ_lt_succ hk)
        rwa [List.getElem_cons_succ, Nat.add_comm k 1] at hnext

omit [BlockData T] in
theorem validSuccessors_eq_ok {i : Nat} {prev : Block T} {bs : List (Block T)} :
    validSuccessors i prev bs = .ok () ↔
      (prev :: bs).IsChain fun prev b => b.isSuccessorOf prev := by
  induction bs generalizing i prev with
  | nil => exact ⟨fun _ => .singleton _, fun _ => rfl⟩
  | cons b bs ih =>
    rw [validSuccessors, List.isChain_cons_cons]
    by_cases hb : b.isSuccessorOf prev
    · simp only [hb, if_true, ih, true_and]
    · simp [hb]

theorem valid_eq_ok {bc : Blockchain T} {clock : Clock} :
    bc.valid clock = .ok () ↔
      bc.blocks ≠ [] ∧
      (∀ k (hk : k < bc.blocks.length), bc.blocks[k].valid (clock k) = .ok ()) ∧
      (∀ b, bc.blocks.head? = some b → b.isGenesis) ∧
      bc.blocks.IsChain fun prev b => b.isSuccessorOf prev := by
  unfold valid
  cases bc.blocks with
  | nil => simp
  | cons b bs =>
    simp only [ne_eq, reduceCtorEq, not_false_eq_true, true_and, List.head?_cons,
      Option.some.injEq, forall_eq']
    rw [← validBlocks_eq_ok (i := 0), ← validSuccessors_eq_ok (i := 1)]
    cases validBlocks 0 (b :: bs) clock with
    | error e => simp
    | ok _ => by_cases hb : b.isGenesis <;> simp [hb]

-- ---------------------------------------------------------------------------
-- Validity from some time on
-- ---------------------------------------------------------------------------

omit [BlockData T] [Env] in
/-- What holds of the blocks of a chain and of the one that is added. -/
theorem forall_mem_added {P : Block T → Prop} {bc bc' : Blockchain T} {b : Block T}
    (hblocks : bc'.blocks = bc.blocks ++ [b]) (h : ∀ b ∈ bc.blocks, P b) (hb : P b) :
    ∀ b ∈ bc'.blocks, P b := by
  intro b' hb'
  rw [hblocks, List.mem_append, List.mem_singleton] at hb'
  rcases hb' with hb' | rfl
  · exact h b' hb'
  · exact hb

/-- What a chain keeps that is valid at time `t`: blocks do not turn invalid as
    time goes on. -/
structure ValidFrom (t : TimePoint) (bc : Blockchain T) : Prop where
  blocks : ∀ b ∈ bc.blocks, b.valid t = .ok ()
  genesis : ∀ b, bc.blocks.head? = some b → b.isGenesis
  successors : bc.blocks.IsChain fun prev b => b.isSuccessorOf prev

theorem validFrom_new (t : TimePoint) : (new : Blockchain T).ValidFrom t where
  blocks b hb := by cases hb
  genesis b hb := by cases hb
  successors := .nil

theorem ValidFrom.mono {bc : Blockchain T} {t t' : TimePoint} (h : bc.ValidFrom t) (hle : t ≤ t') :
    bc.ValidFrom t' where
  blocks b hb := Block.valid_mono (h.blocks b hb) hle
  genesis := h.genesis
  successors := h.successors

/-- Validity depends on the blocks only. -/
theorem ValidFrom.congr {bc bc' : Blockchain T} {t : TimePoint} (h : bc.ValidFrom t)
    (hblocks : bc'.blocks = bc.blocks) : bc'.ValidFrom t := by
  obtain ⟨hvalid, hgenesis, hsuccessors⟩ := h
  exact ⟨hblocks ▸ hvalid, hblocks ▸ hgenesis, hblocks ▸ hsuccessors⟩

theorem ValidFrom.valid {bc : Blockchain T} {t : TimePoint} {clock : Clock} (h : bc.ValidFrom t)
    (hne : bc.blocks ≠ []) (hclock : ∀ i, t ≤ clock i) : bc.valid clock = .ok () := by
  refine valid_eq_ok.mpr ⟨hne, ?_, h.genesis, h.successors⟩
  intro k hk
  exact Block.valid_mono (h.blocks _ (List.getElem_mem hk)) (hclock k)

theorem validFrom_of_valid {bc : Blockchain T} {t : TimePoint} {clock : Clock}
    (h : bc.valid clock = .ok ()) (hclock : ∀ i, clock i ≤ t) : bc.ValidFrom t := by
  obtain ⟨-, hblocks, hgenesis, hsuccessors⟩ := valid_eq_ok.mp h
  refine ⟨?_, hgenesis, hsuccessors⟩
  intro b hb
  obtain ⟨k, hk, rfl⟩ := List.getElem_of_mem hb
  exact Block.valid_mono (hblocks k hk) (hclock k)

omit [BlockData T] [Env] in
theorem Links.isGenesis {latest : Option (Block T)} {b : Block T} (h : Links latest b)
    (hnone : latest = none) : b.isGenesis := by
  rw [hnone] at h
  exact Block.isGenesis_iff.mpr h

omit [BlockData T] in
/-- A block that links to the latest one succeeds it if it is not too early. -/
theorem Links.isSuccessorOf {latest : Option (Block T)} {b last : Block T} (h : Links latest b)
    (hlast : latest = some last)
    (htime : last.timestamp - config.blockgenTimeMaxDelta < b.timestamp) :
    b.isSuccessorOf last := by
  rw [hlast] at h
  exact Block.isSuccessorOf_iff.mpr ⟨htime, h⟩

/-- A block that is valid and succeeds the latest one keeps a chain valid. -/
theorem ValidFrom.concat {bc bc' : Blockchain T} {b : Block T} {t : TimePoint}
    (h : bc.ValidFrom t) (hblocks : bc'.blocks = bc.blocks ++ [b]) (hb : b.valid t = .ok ())
    (hgenesis : bc.latestBlock? = none → b.isGenesis)
    (hsuccessor : ∀ last, bc.latestBlock? = some last → b.isSuccessorOf last) :
    bc'.ValidFrom t where
  blocks := forall_mem_added hblocks h.blocks hb
  genesis b' hb' := by
    rw [hblocks] at hb'
    cases hbs : bc.blocks with
    | nil =>
      rw [hbs] at hb'
      cases hb'
      exact hgenesis (by rw [latestBlock?, hbs]; rfl)
    | cons first bs =>
      rw [hbs] at hb'
      exact h.genesis b' (by rw [hbs]; exact hb')
  successors := by
    rw [hblocks]
    apply h.successors.append (.singleton b)
    intro last hlast b' hb'
    cases hb'
    exact hsuccessor last hlast

/-- A constructed block is valid and succeeds the latest one, although mining
    gives it a later timestamp after the check. -/
theorem ValidFrom.constructed {bc bc' : Blockchain T} {data : T} {clock : Clock} {b : Block T}
    {t t' : TimePoint} (hδ : 0 < config.blockgenTimeMaxDelta) (h : bc.ValidFrom t)
    (hclock : ∀ i, t ≤ clock i ∧ clock i ≤ t') (hstep : Constructed bc data clock b bc') :
    bc'.ValidFrom t' := by
  have hle : t ≤ t' := TimePoint.le_trans (hclock 0).1 (hclock 0).2
  obtain ⟨i, hstamp⟩ : ∃ i, b.timestamp = clock i := by
    have hblock := hstep.block
    split_ifs at hblock
    · obtain ⟨target, -, hmined⟩ := hblock
      obtain ⟨i, hi⟩ := hmined.timestamp
      exact ⟨2 + i, hi⟩
    · exact ⟨0, by rw [hblock, nextBlock_timestamp]⟩
  have hvalid : b.valid t' = .ok () := by
    refine Block.valid_eq_ok.mpr ⟨hstep.dataValid, ?_, hstep.hash⟩
    rw [hstamp]
    exact TimePoint.lt_of_lt_of_le (TimePoint.sub_lt (clock.sinceEpoch i) hδ) (hclock i).2
  refine (h.mono hle).concat hstep.blocks hvalid hstep.links.isGenesis ?_
  intro last hlast
  -- The latest block was admitted by time `t`, and the new one is not older.
  have hadmitted := (Block.valid_eq_ok.mp (h.blocks last (List.mem_of_getLast? hlast))).2.1
  apply hstep.links.isSuccessorOf hlast
  rw [hstamp]
  exact TimePoint.lt_of_lt_of_le hadmitted (hclock i).1

-- ---------------------------------------------------------------------------
-- Positions
-- ---------------------------------------------------------------------------

omit [BlockData T] in
/-- The index of every block is its position. -/
structure Numbered (bs : List (Block T)) : Prop where
  length_le : bs.length ≤ Env.maxSize
  index : ∀ k (hk : k < bs.length), bs[k].index.toNat = k

omit [BlockData T] in
theorem numbered_nil : Numbered ([] : List (Block T)) where
  length_le := Nat.zero_le _
  index k hk := absurd hk (Nat.not_lt_zero k)

omit [BlockData T] in
/-- A block that links to the latest one has the length of the chain as its
    index. -/
theorem Numbered.index_of_links {bc : Blockchain T} {b : Block T} (h : Numbered bc.blocks)
    (hroom : bc.blocks.length < Env.maxSize) (hlinks : Links bc.latestBlock? b) :
    b.index.toNat = bc.blocks.length := by
  cases hlast : bc.latestBlock? with
  | none =>
    rw [hlast] at hlinks
    rw [hlinks.1, List.getLast?_eq_none_iff.mp hlast]
    rfl
  | some last =>
    rw [hlast] at hlinks
    rw [latestBlock?, List.getLast?_eq_getElem?] at hlast
    obtain ⟨hk, rfl⟩ := List.getElem?_eq_some_iff.mp hlast
    have hprev := h.index _ hk
    have hsize := Env.maxSize_lt
    rw [hlinks.1, UInt64.toNat_add, hprev]
    simp only [UInt64.toNat_one]
    omega

/-- What is checked of the next block, which comes with the right index and hash. -/
theorem Numbered.nextBlock_valid_iff {bc : Blockchain T} {data : T} {t now : TimePoint}
    (h : Numbered bc.blocks) (hroom : bc.blocks.length < Env.maxSize) :
    (bc.nextBlock data t).valid now = .ok () ↔
      BlockData.valid data (UInt64.ofNat bc.length) = .ok () ∧
      t - config.blockgenTimeMaxDelta < now := by
  have hindex : (bc.nextBlock data t).index = UInt64.ofNat bc.length := by
    rw [length, ← h.index_of_links hroom (bc.nextBlock_links data t), UInt64.ofNat_toNat]
  rw [Block.valid_eq_ok, hindex, nextBlock_data, nextBlock_timestamp,
    and_iff_left (bc.nextBlock_hash data t)]

theorem Numbered.added {bc bc' : Blockchain T} {b : Block T} (h : Numbered bc.blocks)
    (hadded : Added bc b bc') : Numbered bc'.blocks := by
  rw [hadded.blocks]
  refine ⟨?_, ?_⟩
  · rw [List.length_append]
    exact hadded.room
  · intro k hk
    rw [List.length_append, List.length_singleton] at hk
    rcases Nat.lt_succ_iff_lt_or_eq.mp hk with hold | rfl
    · rw [List.getElem_append_left hold]
      exact h.index k hold
    · rw [List.getElem_concat_length rfl]
      exact h.index_of_links hadded.room hadded.links

-- ---------------------------------------------------------------------------
-- Decoding what was valid
-- ---------------------------------------------------------------------------

/-- The blocks of a list may follow each other from the start of a chain. -/
structure Linked (bs : List (Block T)) : Prop where
  first : ∀ b, bs.head? = some b → Links none b
  next : bs.IsChain fun prev b => Links (some prev) b

theorem ValidFrom.linked_stored [StoredData T] {bc : Blockchain T} {t : TimePoint}
    (h : bc.ValidFrom t) : Linked (bc.blocks.map Block.stored) where
  first b hb := by
    rw [List.head?_map, Option.map_eq_some_iff] at hb
    obtain ⟨b, hb, rfl⟩ := hb
    exact Block.isGenesis_iff.mp (h.genesis b hb)
  next := by
    rw [List.isChain_map]
    refine h.successors.imp fun prev b hsuccessor => ?_
    exact (Block.isSuccessorOf_iff.mp hsuccessor).2

omit [BlockData T] [Env] in
theorem Linked.links {bc : Blockchain T} {b : Block T} {bs : List (Block T)}
    (h : Linked (bc.blocks ++ b :: bs)) : Links bc.latestBlock? b := by
  cases hlast : bc.latestBlock? with
  | none =>
    rw [List.getLast?_eq_none_iff.mp hlast] at h
    exact h.first b rfl
  | some last => exact (List.isChain_append.mp h.next).2.2 last hlast b rfl

omit [BlockData T] [Env] in
theorem Linked.of_append {bs bs' : List (Block T)} (h : Linked (bs ++ bs')) : Linked bs where
  first b hb := h.first b (by rw [List.head?_append, hb]; rfl)
  next := (List.isChain_append.mp h.next).1

omit [BlockData T] [Env] in
theorem linked_nil : Linked ([] : List (Block T)) where
  first b hb := by cases hb
  next := .nil

theorem Linked.added {bc bc' : Blockchain T} {b : Block T} (h : Linked bc.blocks)
    (hadded : Added bc b bc') : Linked bc'.blocks := by
  have hlinks := hadded.links
  rw [hadded.blocks]
  refine ⟨?_, ?_⟩
  · intro first hfirst
    cases hbs : bc.blocks with
    | nil =>
      rw [hbs] at hfirst
      cases hfirst
      have hnone : bc.latestBlock? = none := List.getLast?_eq_none_iff.mpr hbs
      rw [hnone] at hlinks
      exact hlinks
    | cons _ _ =>
      rw [hbs] at hfirst
      apply h.first
      rw [hbs]
      exact hfirst
  · apply h.next.append (.singleton b)
    intro last hlast b' hb'
    cases hb'
    have hsome : bc.latestBlock? = some last := hlast
    rw [hsome] at hlinks
    exact hlinks

/-- A call of `append_next_block` that checks no work and goes well. -/
theorem appendNextBlock_of_valid {bc : Blockchain T} {b : Block T} {now : TimePoint}
    (hpow : ¬ Env.proofOfWork) (hlinks : Links bc.latestBlock? b) (hvalid : b.valid now = .ok ())
    (hroom : bc.blocks.length < Env.maxSize) :
    bc.appendNextBlock b now = (.ok (), { bc with blocks := bc.blocks ++ [b] }) := by
  simp only [appendNextBlock, checkNextBlock_eq_ok.mpr ⟨hlinks, hvalid⟩, hpow, emplaceBack,
    if_pos hroom]
  rfl

theorem appendAll_toJson [StoredData T] {start : Blockchain T} {bs : List (Block T)} {clock : Clock}
    (hpow : ¬ Env.proofOfWork) (hvalid : ∀ b ∈ bs, ∀ i, b.stored.valid (clock i) = .ok ())
    (hlinked : Linked (start.blocks ++ bs.map Block.stored))
    (hroom : start.blocks.length + bs.length ≤ Env.maxSize) :
    appendAll start (bs.map Block.toJson) clock =
      .ok { start with blocks := start.blocks ++ bs.map Block.stored } := by
  induction bs generalizing start clock with
  | nil =>
    rw [List.map_nil, List.map_nil, List.append_nil]
    rfl
  | cons b bs ih =>
    rw [List.length_cons] at hroom
    have hnext := appendNextBlock_of_valid hpow hlinked.links
      (hvalid b (List.mem_cons_self ..) 0) (by omega)
    refine appendAll_cons_eq_ok.mpr ⟨b.stored, _, b.fromJson_toJson, hnext, ?_⟩
    rw [ih]
    · simp
    · intro b' hb' i
      exact hvalid b' (List.mem_cons_of_mem b hb') (1 + i)
    · simpa using hlinked
    · simp only [List.length_append, List.length_singleton]
      omega

/-- A chain whose blocks are valid and linked is read back of its JSON form, if
    the data in its blocks is still valid without what the JSON form leaves out. -/
theorem fromJson_toJson_of_linked [StoredData T] {bc : Blockchain T} {t : TimePoint}
    {clock : Clock} (hpow : ¬ Env.proofOfWork) (hvalid : ∀ b ∈ bc.blocks, b.valid t = .ok ())
    (hlinked : Linked (bc.blocks.map Block.stored))
    (hdata : ∀ b ∈ bc.blocks, BlockData.valid (StoredData.stored b.data) b.index = .ok ())
    (hroom : bc.blocks.length ≤ Env.maxSize) (hclock : ∀ i, t ≤ clock i) :
    fromJson bc.toJson clock = .ok ⟨bc.blocks.map Block.stored, .fresh⟩ := by
  refine appendAll_toJson hpow ?_ hlinked (by simpa using hroom)
  intro b hb i
  obtain ⟨-, htime, hhash⟩ := Block.valid_eq_ok.mp (Block.valid_mono (hvalid b hb) (hclock i))
  refine Block.valid_eq_ok.mpr ⟨hdata b hb, htime, ?_⟩
  rw [Block.determineHash_stored]
  exact hhash

theorem fromJson_toJson_of_valid [StoredData T] {bc : Blockchain T} {t : TimePoint} {clock : Clock}
    (hpow : ¬ Env.proofOfWork) (h : bc.ValidFrom t)
    (hdata : ∀ b ∈ bc.blocks, BlockData.valid (StoredData.stored b.data) b.index = .ok ())
    (hroom : bc.blocks.length ≤ Env.maxSize) (hclock : ∀ i, t ≤ clock i) :
    fromJson bc.toJson clock = .ok ⟨bc.blocks.map Block.stored, .fresh⟩ :=
  fromJson_toJson_of_linked hpow h.blocks h.linked_stored hdata hroom hclock

end Blockchain

end BuenzliCoin
