-- SUMMARY: Blockchains: the two ways a block enters, whole-chain validation, comparison, and the JSON form.
import BuenzliCoin.Chain.Block

namespace BuenzliCoin

/-- The blocks and, in `PROOF_OF_WORK` builds, the difficulty adjuster, which
    other builds leave as it starts. -/
structure Blockchain (T : Type) where
  blocks : List (Block T)
  difficultyAdjuster : DifficultyAdjuster

namespace Blockchain

variable {T : Type} [BlockData T] [Env]

omit [BlockData T] in
/-- `Blockchain()` -/
def new : Blockchain T where
  blocks := []
  difficultyAdjuster := .fresh

omit [BlockData T] [Env] in
def length (bc : Blockchain T) : Nat := bc.blocks.length

omit [BlockData T] [Env] in
/-- `latest_block()`, which asserts that there is one. -/
def latestBlock? (bc : Blockchain T) : Option (Block T) := bc.blocks.getLast?

/-! ## Whole-chain validation -/

/-- The first loop of `valid`, from the block at position `i` on. -/
def validBlocks (i : Nat) : List (Block T) → Clock → Except String Unit
  | [], _ => .ok ()
  | b :: bs, clock =>
    match b.valid (clock 0) with
    | .error e => .error s!"block {i}: {e}"
    | .ok () => validBlocks (i + 1) bs (clock.drop 1)

omit [BlockData T] in
/-- The second loop of `valid`; `prev` is the block before the one at position `i`. -/
def validSuccessors (i : Nat) (prev : Block T) : List (Block T) → Except String Unit
  | [] => .ok ()
  | b :: bs =>
    if b.isSuccessorOf prev then validSuccessors (i + 1) b bs
    else .error s!"block {i}: not a valid successor"

def valid (bc : Blockchain T) (clock : Clock) : Except String Unit :=
  match bc.blocks with
  | [] => .error "empty blockchain"
  | b :: bs =>
    match validBlocks 0 (b :: bs) clock with
    | .error e => .error e
    | .ok () =>
      if b.isGenesis then validSuccessors 1 b bs
      else .error "invalid genesis block"

/-! ## Comparison -/

omit [BlockData T] [Env] in
/-- `none` if the cast to a `std::size_t` is undefined. -/
def cumulativeDifficulty (bc : Blockchain T) : Option Nat :=
  bc.difficultyAdjuster.cumulativeDifficulty.toUInt64?

omit [BlockData T] in
/-- What `operator<=>` compares. -/
def key (bc : Blockchain T) : Option Nat :=
  if Env.proofOfWork then bc.cumulativeDifficulty else some bc.length

omit [BlockData T] in
/-- `bc > other` -/
def exceeds (bc other : Blockchain T) : Option Bool := do
  return (← bc.key) > (← other.key)

/-! ## Adding blocks -/

omit [BlockData T] in
/-- `m_blocks.emplace_back(block)`, which throws when the vector is as long as
    it can get. -/
def emplaceBack (bc : Blockchain T) (b : Block T) : Except Error Unit × Blockchain T :=
  if bc.blocks.length < Env.maxSize then (.ok (), { bc with blocks := bc.blocks ++ [b] })
  else (.error (.exception "vector::_M_realloc_insert"), bc)

omit [BlockData T] in
def adjust (bc : Blockchain T) (timestamp : TimePoint) : Option (Blockchain T) := do
  return { bc with difficultyAdjuster := ← bc.difficultyAdjuster.adjust timestamp }

/-- The block that `construct_next_block` makes before it checks or mines it. -/
def nextBlock (bc : Blockchain T) (data : T) (now : TimePoint) : Block T :=
  match bc.latestBlock? with
  | none => Block.first data now
  | some last => Block.next data last now

/-- `none` if the adjuster traps, or the mining loop has not exited within `fuel`
    rounds. -/
def constructNextBlock (bc : Blockchain T) (data : T) (clock : Clock) (fuel : Nat) :
    Option (Except Error Unit × Blockchain T) :=
  let block := bc.nextBlock data (clock 0)
  match block.valid (clock 1) with
  | .error e => some (.error (.exception s!"attempted appending invalid data: {e}"), bc)
  | .ok () =>
    if Env.proofOfWork then do
      let bc ← bc.adjust block.timestamp
      let block ← block.adjustDifficulty bc.difficultyAdjuster.difficulty (clock.drop 2) fuel
      return bc.emplaceBack block
    else some (bc.emplaceBack block)

def validGenesisBlock (b : Block T) (now : TimePoint) : Except String Unit :=
  if b.index ≠ 0 then .error "invalid index"
  else if b.hashPrev ≠ none then .error "last hash not empty"
  else b.valid now

def validNextBlock (b prev : Block T) (now : TimePoint) : Except String Unit :=
  if b.index ≠ prev.index + 1 then .error "invalid index"
  else if b.hashPrev ≠ some prev.hash then .error "mismatched hashes"
  else b.valid now

/-- The check that opens `append_next_block`. -/
def checkNextBlock (bc : Blockchain T) (b : Block T) (now : TimePoint) : Except Error Unit :=
  match bc.latestBlock? with
  | none =>
    match validGenesisBlock b now with
    | .error e => .error (.exception s!"attempted appending invalid genesis block: {e}")
    | .ok () => .ok ()
  | some last =>
    match validNextBlock b last now with
    | .error e => .error (.exception s!"attempted appending invalid next block: {e}")
    | .ok () => .ok ()

def appendNextBlock (bc : Blockchain T) (b : Block T) (now : TimePoint) :
    Except Error Unit × Blockchain T :=
  match bc.checkNextBlock b now with
  | .error e => (.error e, bc)
  | .ok () =>
    if Env.proofOfWork then
      match bc.adjust b.timestamp with
      | none => (.error .crash, bc)
      | some bc =>
        if .finite b.maxDifficulty < bc.difficultyAdjuster.difficulty then
          (.error (.exception "attempted appending a block with invalid difficulty"), bc)
        else bc.emplaceBack b
    else bc.emplaceBack b

/-! ## JSON -/

omit [Env] in
def toJson (bc : Blockchain T) : Json := .array (bc.blocks.map Block.toJson)

/-- The loop of `from_json`. -/
def appendAll (bc : Blockchain T) : List Json → Clock → Except Error (Blockchain T)
  | [], _ => .ok bc
  | j :: js, clock => do
    let b ← Block.fromJson j
    match bc.appendNextBlock b (clock 0) with
    | (.error e, _) => .error e
    | (.ok (), bc) => appendAll bc js (clock.drop 1)

def fromJson (j : Json) (clock : Clock) : Except Error (Blockchain T) :=
  appendAll new j.items clock

/-! ## What the operations do -/

omit [BlockData T] in
@[simp] theorem new_blocks : (new : Blockchain T).blocks = [] := rfl

omit [BlockData T] in
@[simp] theorem new_difficultyAdjuster : (new : Blockchain T).difficultyAdjuster = .fresh := rfl

omit [BlockData T] in
theorem adjust_eq_some {bc bc' : Blockchain T} {t : TimePoint} :
    bc.adjust t = some bc' ↔
      ∃ da, bc.difficultyAdjuster.adjust t = some da ∧
        bc' = { bc with difficultyAdjuster := da } := by
  refine Option.bind_eq_some_iff.trans (exists_congr fun da => and_congr_right fun _ => ?_)
  exact Option.some.injEq .. |>.to_iff.trans eq_comm

omit [BlockData T] in
/-- The adjuster has no part in the blocks. -/
theorem blocks_of_adjust {bc bc' : Blockchain T} {t : TimePoint}
    (h : if Env.proofOfWork then bc.adjust t = some bc' else bc' = bc) :
    bc'.blocks = bc.blocks := by
  split_ifs at h
  · obtain ⟨da, -, rfl⟩ := adjust_eq_some.mp h
    rfl
  · rw [h]

omit [BlockData T] in
theorem exceeds_eq_some_true {bc other : Blockchain T} :
    bc.exceeds other = some true ↔
      ∃ k k', bc.key = some k ∧ other.key = some k' ∧ k' < k := by
  simp [exceeds, Option.bind_eq_some_iff]

omit [BlockData T] in
/-- Without `PROOF_OF_WORK` the longer chain is the greater one. -/
theorem exceeds_of_not_proofOfWork (hpow : ¬ Env.proofOfWork) (bc other : Blockchain T) :
    bc.exceeds other = some (decide (other.length < bc.length)) := by
  simp only [exceeds, key, if_neg hpow]
  rfl

omit [BlockData T] in
theorem length_lt_of_exceeds {bc other : Blockchain T} (hpow : ¬ Env.proofOfWork)
    (h : bc.exceeds other = some true) : other.length < bc.length := by
  rw [exceeds_of_not_proofOfWork hpow] at h
  exact of_decide_eq_true (Option.some.inj h)

/-- The conditions under which a block may stand after `prev`, or first. -/
def Links (prev : Option (Block T)) (b : Block T) : Prop :=
  match prev with
  | none => b.index = 0 ∧ b.hashPrev = none
  | some last => b.index = last.index + 1 ∧ b.hashPrev = some last.hash

theorem nextBlock_links (bc : Blockchain T) (data : T) (now : TimePoint) :
    Links bc.latestBlock? (bc.nextBlock data now) := by
  unfold nextBlock Links
  cases bc.latestBlock? with
  | none => exact ⟨rfl, rfl⟩
  | some last => exact ⟨rfl, rfl⟩

@[simp] theorem nextBlock_data (bc : Blockchain T) (data : T) (now : TimePoint) :
    (bc.nextBlock data now).data = data := by
  unfold nextBlock
  cases bc.latestBlock? <;> rfl

@[simp] theorem nextBlock_timestamp (bc : Blockchain T) (data : T) (now : TimePoint) :
    (bc.nextBlock data now).timestamp = now := by
  unfold nextBlock
  cases bc.latestBlock? <;> rfl

theorem nextBlock_hash (bc : Blockchain T) (data : T) (now : TimePoint) :
    (bc.nextBlock data now).hash = (bc.nextBlock data now).determineHash := by
  unfold nextBlock
  cases bc.latestBlock? <;> rfl

/-- A call of `construct_next_block` that mines nothing and goes well. -/
theorem constructNextBlock_of_valid {bc : Blockchain T} {data : T} {clock : Clock} {fuel : Nat}
    (hpow : ¬ Env.proofOfWork)
    (hdata : BlockData.valid data (bc.nextBlock data (clock 0)).index = .ok ())
    (htime : clock 0 - config.blockgenTimeMaxDelta < clock 1)
    (hroom : bc.blocks.length < Env.maxSize) :
    bc.constructNextBlock data clock fuel =
      some (.ok (), { bc with blocks := bc.blocks ++ [bc.nextBlock data (clock 0)] }) := by
  have hvalid : (bc.nextBlock data (clock 0)).valid (clock 1) = .ok () := by
    refine Block.valid_eq_ok.mpr ⟨?_, ?_, bc.nextBlock_hash data (clock 0)⟩
    · rw [nextBlock_data]
      exact hdata
    · rw [nextBlock_timestamp]
      exact htime
  simp only [constructNextBlock, hvalid, hpow, emplaceBack, if_pos hroom]
  rfl

/-- A call of `construct_next_block` whose search exits in its first round. -/
theorem constructNextBlock_of_zeros {bc : Blockchain T} {data : T} {clock : Clock} {fuel : Nat}
    {da : DifficultyAdjuster} {target : Nat} (hpow : Env.proofOfWork)
    (hvalid : (bc.nextBlock data (clock 0)).valid (clock 1) = .ok ())
    (hadjust : bc.difficultyAdjuster.adjust (clock 0) = some da)
    (htarget : difficultyTarget da.difficulty = some target)
    (hzeros : target ≤
      ((bc.nextBlock data (clock 0)).attempt (clock.drop 2) 0).determineHash.zeroPrefixLength)
    (hroom : bc.blocks.length < Env.maxSize) :
    bc.constructNextBlock data clock (fuel + 1) =
      some (.ok (), ⟨bc.blocks ++ [((bc.nextBlock data (clock 0)).attempt (clock.drop 2) 0).hashed],
        da⟩) := by
  have hadjusted : bc.adjust (clock 0) = some { bc with difficultyAdjuster := da } :=
    adjust_eq_some.mpr ⟨da, hadjust, rfl⟩
  simp only [constructNextBlock, hvalid, hpow, if_true, nextBlock_timestamp, hadjusted,
    Option.bind_eq_bind, Option.bind_some, Block.adjustDifficulty, htarget,
    Block.adjustDifficultyLoop_succ, if_pos hzeros, emplaceBack, if_pos hroom]
  rfl

theorem checkNextBlock_eq_ok {bc : Blockchain T} {b : Block T} {now : TimePoint} :
    bc.checkNextBlock b now = .ok () ↔ Links bc.latestBlock? b ∧ b.valid now = .ok () := by
  unfold checkNextBlock Links
  cases bc.latestBlock? with
  | none =>
    simp only [validGenesisBlock]
    split_ifs with hindex hprev
    · simp_all
    · simp_all
    · cases h : b.valid now <;> simp_all
  | some last =>
    simp only [validNextBlock]
    split_ifs with hindex hprev
    · simp_all
    · simp_all
    · cases h : b.valid now <;> simp_all

omit [BlockData T] in
theorem emplaceBack_cases {bc bc' : Blockchain T} {b : Block T} {r : Except Error Unit}
    (h : bc.emplaceBack b = (r, bc')) :
    (∃ e, r = .error e ∧ bc' = bc ∧ ¬ bc.blocks.length < Env.maxSize) ∨
    (r = .ok () ∧ bc' = { bc with blocks := bc.blocks ++ [b] } ∧
      bc.blocks.length < Env.maxSize) := by
  unfold emplaceBack at h
  split_ifs at h with hroom
  · cases h
    exact .inr ⟨rfl, rfl, hroom⟩
  · cases h
    exact .inl ⟨_, rfl, rfl, hroom⟩

/-- What both ways of adding a block have in common: the block links to the one
    before it, and its data and hash satisfy the checks of `Block::valid`. -/
structure Added (bc : Blockchain T) (b : Block T) (bc' : Blockchain T) : Prop where
  blocks : bc'.blocks = bc.blocks ++ [b]
  links : Links bc.latestBlock? b
  dataValid : BlockData.valid b.data b.index = .ok ()
  hash : b.hash = b.determineHash
  room : bc.blocks.length < Env.maxSize

/-- A call of `construct_next_block` that has returned. -/
structure Constructed (bc : Blockchain T) (data : T) (clock : Clock) (b : Block T)
    (bc' : Blockchain T) : Prop extends Added bc b bc' where
  valid : (bc.nextBlock data (clock 0)).valid (clock 1) = .ok ()
  block : if Env.proofOfWork
    then ∃ target, difficultyTarget bc'.difficultyAdjuster.difficulty = some target ∧
      Block.Mined target (clock.drop 2) (bc.nextBlock data (clock 0)) b
    else b = bc.nextBlock data (clock 0)
  adjuster : if Env.proofOfWork
    then bc.difficultyAdjuster.adjust (clock 0) = some bc'.difficultyAdjuster
    else bc'.difficultyAdjuster = bc.difficultyAdjuster

theorem Constructed.data {bc bc' : Blockchain T} {data : T} {clock : Clock} {b : Block T}
    (h : Constructed bc data clock b bc') : b.data = data := by
  have hblock := h.block
  split_ifs at hblock
  · obtain ⟨target, -, hmined⟩ := hblock
    rw [hmined.data, nextBlock_data]
  · rw [hblock, nextBlock_data]

/-- Without `PROOF_OF_WORK` the candidate is added as it is. -/
theorem Constructed.eq_nextBlock {bc bc' : Blockchain T} {data : T} {clock : Clock} {b : Block T}
    (hpow : ¬ Env.proofOfWork) (h : Constructed bc data clock b bc') :
    b = bc.nextBlock data (clock 0) := by
  have hblock := h.block
  rwa [if_neg hpow] at hblock

theorem Constructed.block_valid {bc bc' : Blockchain T} {data : T} {clock : Clock} {b : Block T}
    (hpow : ¬ Env.proofOfWork) (h : Constructed bc data clock b bc') :
    b.valid (clock 1) = .ok () := by
  rw [h.eq_nextBlock hpow]
  exact h.valid

/-- A call of `append_next_block` that has returned. -/
structure Appended (bc : Blockchain T) (b : Block T) (now : TimePoint) (bc' : Blockchain T) : Prop
    extends Added bc b bc' where
  valid : b.valid now = .ok ()
  work : Env.proofOfWork → ¬ .finite b.maxDifficulty < bc'.difficultyAdjuster.difficulty
  adjuster : if Env.proofOfWork
    then bc.difficultyAdjuster.adjust b.timestamp = some bc'.difficultyAdjuster
    else bc'.difficultyAdjuster = bc.difficultyAdjuster

/-- Everything `construct_next_block` can do. The call throws if the candidate
    is invalid or the vector is full; in the second case a `PROOF_OF_WORK` build
    has moved its adjuster by then. -/
theorem constructNextBlock_cases {bc bc' : Blockchain T} {data : T} {clock : Clock} {fuel : Nat}
    {r : Except Error Unit} (h : bc.constructNextBlock data clock fuel = some (r, bc')) :
    (∃ e, r = .error e ∧ bc' = bc ∧ (bc.nextBlock data (clock 0)).valid (clock 1) ≠ .ok ()) ∨
    (∃ e, r = .error e ∧ (bc.nextBlock data (clock 0)).valid (clock 1) = .ok () ∧
      ¬ bc.blocks.length < Env.maxSize ∧
      if Env.proofOfWork then bc.adjust (clock 0) = some bc' else bc' = bc) ∨
    (r = .ok () ∧ ∃ b, Constructed bc data clock b bc') := by
  simp only [constructNextBlock] at h
  cases hvalid : (bc.nextBlock data (clock 0)).valid (clock 1) with
  | error e =>
    rw [hvalid] at h
    cases h
    exact .inl ⟨_, rfl, rfl, by simp⟩
  | ok _ =>
    rw [hvalid] at h
    obtain ⟨hdata, -, hhash⟩ := Block.valid_eq_ok.mp hvalid
    have hlinks := bc.nextBlock_links data (clock 0)
    by_cases hpow : Env.proofOfWork
    · simp only [hpow, if_true, nextBlock_timestamp] at h
      obtain ⟨bc₁, hadjust, h⟩ := Option.bind_eq_some_iff.mp h
      obtain ⟨b, hmine, h⟩ := Option.bind_eq_some_iff.mp h
      obtain ⟨target, htarget, hmined⟩ := Block.adjustDifficulty_mined hmine
      obtain ⟨da, hda, rfl⟩ := adjust_eq_some.mp hadjust
      obtain ⟨e, rfl, rfl, hfull⟩ | ⟨rfl, rfl, hroom⟩ := emplaceBack_cases (Option.some.inj h)
      · exact .inr (.inl ⟨e, rfl, rfl, hfull, by rwa [if_pos hpow]⟩)
      · refine .inr (.inr ⟨rfl, b, ⟨⟨rfl, ?_, ?_, hmined.hash, hroom⟩, hvalid, ?_, ?_⟩⟩)
        · unfold Links at hlinks ⊢
          rw [hmined.index, hmined.hashPrev]
          exact hlinks
        · rw [hmined.data, hmined.index]
          exact hdata
        · rw [if_pos hpow]
          exact ⟨target, htarget, hmined⟩
        · rw [if_pos hpow]
          exact hda
    · simp only [hpow] at h
      obtain ⟨e, rfl, rfl, hfull⟩ | ⟨rfl, rfl, hroom⟩ := emplaceBack_cases (Option.some.inj h)
      · exact .inr (.inl ⟨e, rfl, rfl, hfull, by rw [if_neg hpow]⟩)
      · refine .inr (.inr ⟨rfl, _, ⟨⟨rfl, hlinks, hdata, hhash, hroom⟩, hvalid, ?_, ?_⟩⟩)
        · rw [if_neg hpow]
        · rw [if_neg hpow]

/-- Without a search a call comes to an end. -/
theorem exists_constructNextBlock (hpow : ¬ Env.proofOfWork) (bc : Blockchain T) (data : T)
    (clock : Clock) (fuel : Nat) :
    ∃ r bc', bc.constructNextBlock data clock fuel = some (r, bc') := by
  unfold constructNextBlock
  dsimp only
  split
  · exact ⟨_, _, rfl⟩
  · rw [if_neg hpow]
    exact ⟨_, _, rfl⟩

/-- Everything `append_next_block` can do. Without `PROOF_OF_WORK` a call that
    throws leaves the chain as it was; with it, the adjuster may have moved. -/
theorem appendNextBlock_cases {bc bc' : Blockchain T} {b : Block T} {now : TimePoint}
    {r : Except Error Unit} (h : bc.appendNextBlock b now = (r, bc')) :
    (∃ e, r = .error e ∧ bc'.blocks = bc.blocks ∧ (¬ Env.proofOfWork → bc' = bc)) ∨
    (r = .ok () ∧ Appended bc b now bc') := by
  simp only [appendNextBlock] at h
  cases hcheck : bc.checkNextBlock b now with
  | error e =>
    rw [hcheck] at h
    cases h
    exact .inl ⟨e, rfl, rfl, fun _ => rfl⟩
  | ok _ =>
    rw [hcheck] at h
    obtain ⟨hlinks, hvalid⟩ := checkNextBlock_eq_ok.mp hcheck
    obtain ⟨hdata, -, hhash⟩ := Block.valid_eq_ok.mp hvalid
    by_cases hpow : Env.proofOfWork
    · simp only [hpow, if_true] at h
      cases hadjust : bc.adjust b.timestamp with
      | none =>
        rw [hadjust] at h
        cases h
        exact .inl ⟨_, rfl, rfl, fun _ => rfl⟩
      | some bc₁ =>
        rw [hadjust] at h
        obtain ⟨da, hda, rfl⟩ := adjust_eq_some.mp hadjust
        dsimp only at h
        split_ifs at h with hwork
        · cases h
          exact .inl ⟨_, rfl, rfl, fun hnot => absurd hpow hnot⟩
        · obtain ⟨e, rfl, rfl, -⟩ | ⟨rfl, rfl, hroom⟩ := emplaceBack_cases h
          · exact .inl ⟨e, rfl, rfl, fun hnot => absurd hpow hnot⟩
          · refine .inr ⟨rfl, ⟨⟨rfl, hlinks, hdata, hhash, hroom⟩, hvalid, fun _ => hwork, ?_⟩⟩
            rw [if_pos hpow]
            exact hda
    · simp only [hpow] at h
      obtain ⟨e, rfl, rfl, -⟩ | ⟨rfl, rfl, hroom⟩ := emplaceBack_cases h
      · exact .inl ⟨e, rfl, rfl, fun _ => rfl⟩
      · refine .inr ⟨rfl, ⟨⟨rfl, hlinks, hdata, hhash, hroom⟩, hvalid, ?_, ?_⟩⟩
        · exact fun h => absurd h hpow
        · rw [if_neg hpow]

theorem checkNextBlock_ne_crash (bc : Blockchain T) (b : Block T) (now : TimePoint) :
    bc.checkNextBlock b now ≠ .error .crash := by
  unfold checkNextBlock
  split <;> split <;> simp

/-- Where there is no adjuster, no trap is met. -/
theorem appendNextBlock_ne_crash (hpow : ¬ Env.proofOfWork) (bc : Blockchain T) (b : Block T)
    (now : TimePoint) : (bc.appendNextBlock b now).1 ≠ .error .crash := by
  unfold appendNextBlock
  split
  · next e hcheck =>
    rintro ⟨⟩
    exact checkNextBlock_ne_crash _ _ _ hcheck
  · rw [if_neg hpow, emplaceBack]
    split_ifs <;> simp

end Blockchain

end BuenzliCoin
