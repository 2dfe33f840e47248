-- SUMMARY: Blocks over an arbitrary data type: construction, checks, mining, and the JSON form.
import BuenzliCoin.Base.Json
import BuenzliCoin.Chain.Difficulty

namespace BuenzliCoin

/-- What `Block<T>` asks of its data type. -/
class BlockData (T : Type) where
  /-- `valid(index).first`, or the error text that comes with `false`. -/
  valid : [Env] → T → UInt64 → Except String Unit
  toJson : T → Json
  fromJson : Json → Except Error T

structure Block (T : Type) where
  data : T
  timestamp : TimePoint
  nonce : UInt64
  index : UInt64
  hashPrev : Option Digest
  hash : Digest
  deriving DecidableEq

namespace Block

variable {T : Type} [BlockData T] [Env]

def determineHash (b : Block T) : Digest :=
  Env.hash <|
    (BlockData.toJson b.data).dump ++ toString b.timestamp.toTimeSinceEpoch ++ toString b.nonce ++
      toString b.index ++
      match b.hashPrev with
      | some hashPrev => hashPrev.toString
      | none => ""

/-- A block whose hash is that of its other fields. -/
def hashed (b : Block T) : Block T := { b with hash := b.determineHash }

/-- `Block(T data)` -/
def first (data : T) (now : TimePoint) : Block T :=
  hashed { data, timestamp := now, nonce := 0, index := 0, hashPrev := none, hash := ⟨[]⟩ }

/-- `Block(T data, Block const &last)` -/
def next (data : T) (last : Block T) (now : TimePoint) : Block T :=
  hashed { data, timestamp := now, nonce := 0, index := last.index + 1, hashPrev := some last.hash,
           hash := ⟨[]⟩ }

def valid (b : Block T) (now : TimePoint) : Except String Unit :=
  match BlockData.valid b.data b.index with
  | .error e => .error s!"invalid data: {e}"
  | .ok () =>
    if b.timestamp - config.blockgenTimeMaxDelta ≥ now then .error "invalid timestamp"
    else if b.hash ≠ b.determineHash then .error "invalid hash"
    else .ok ()

omit [BlockData T] [Env] in
/-- `is_genesis` -/
def isGenesis (b : Block T) : Bool := b.index = 0 ∧ b.hashPrev = none

omit [BlockData T] in
def isSuccessorOf (b prev : Block T) : Bool :=
  b.timestamp > prev.timestamp - config.blockgenTimeMaxDelta ∧ b.index = prev.index + 1 ∧
    b.hashPrev = some prev.hash

omit [BlockData T] [Env] in
def maxDifficulty (b : Block T) : ℚ := 2 ^ b.hash.zeroPrefixLength

/-! ## Mining -/

/-- The search loop of `adjust_difficulty`, followed for at most `fuel` rounds:
    `none` if it has not exited by then. -/
def adjustDifficultyLoop (target : Nat) : Nat → Clock → Block T → Option (Block T)
  | 0, _, _ => none
  | fuel + 1, clock, b =>
    let b := { b with timestamp := clock 0 }
    let maybeHash := b.determineHash
    if maybeHash.zeroPrefixLength ≥ target then some { b with hash := maybeHash }
    else adjustDifficultyLoop target fuel (clock.drop 1) { b with nonce := b.nonce + 1 }

def adjustDifficulty (b : Block T) (difficulty : ExactDouble) (clock : Clock) (fuel : Nat) :
    Option (Block T) := do
  adjustDifficultyLoop (← difficultyTarget difficulty) fuel clock b

/-! ## JSON -/

omit [Env] in
def toJson (b : Block T) : Json :=
  .object <|
    [("data", BlockData.toJson b.data), ("hash", .string b.hash.toString)] ++
    (match b.hashPrev with
      | some hashPrev => [("hash_prev", .string hashPrev.toString)]
      | none => []) ++
    [("index", .numberUnsigned b.index), ("nonce", .numberUnsigned b.nonce),
      ("timestamp", .numberUnsigned b.timestamp.toTimeSinceEpoch)]

omit [Env] in
def fromJson (j : Json) : Except Error (Block T) := do
  let data ← BlockData.fromJson (← j.atKey "data")
  let timestamp ← (← j.atKey "timestamp").getUInt64
  let nonce ← (← j.atKey "nonce").getUInt64
  let index ← (← j.atKey "index").getUInt64
  let hash ← Digest.fromString (← (← j.atKey "hash").getString)
  let hashPrev ←
    if j.contains "hash_prev" then
      some <$> Digest.fromString (← (← j.atKey "hash_prev").getString)
    else pure none
  return { data, timestamp := TimePoint.fromTimeSinceEpoch timestamp, nonce, index, hashPrev, hash }

/-! ## Laws -/

@[simp] theorem hashed_data (b : Block T) : b.hashed.data = b.data := rfl
@[simp] theorem hashed_timestamp (b : Block T) : b.hashed.timestamp = b.timestamp := rfl
@[simp] theorem hashed_nonce (b : Block T) : b.hashed.nonce = b.nonce := rfl
@[simp] theorem hashed_index (b : Block T) : b.hashed.index = b.index := rfl
@[simp] theorem hashed_hashPrev (b : Block T) : b.hashed.hashPrev = b.hashPrev := rfl

/-- The hash of a block does not cover its stored hash. -/
@[simp] theorem determineHash_setHash (b : Block T) (d : Digest) :
    determineHash { b with hash := d } = b.determineHash := rfl

/-- What `valid` checks. -/
theorem valid_eq_ok {b : Block T} {now : TimePoint} :
    b.valid now = .ok () ↔
      BlockData.valid b.data b.index = .ok () ∧
      b.timestamp - config.blockgenTimeMaxDelta < now ∧ b.hash = b.determineHash := by
  unfold valid
  split
  · next e h => simp [h]
  · next h =>
    rw [← TimePoint.not_le]
    split_ifs <;> simp_all

/-- A block that is valid at some time is valid at every later time. -/
theorem valid_mono {b : Block T} {now later : TimePoint} (h : b.valid now = .ok ())
    (hle : now ≤ later) : b.valid later = .ok () := by
  obtain ⟨hdata, htime, hhash⟩ := valid_eq_ok.mp h
  exact valid_eq_ok.mpr ⟨hdata, TimePoint.lt_of_lt_of_le htime hle, hhash⟩

omit [BlockData T] [Env] in
theorem isGenesis_iff {b : Block T} : b.isGenesis ↔ b.index = 0 ∧ b.hashPrev = none := by
  simp [isGenesis]

omit [BlockData T] in
theorem isSuccessorOf_iff {b prev : Block T} :
    b.isSuccessorOf prev ↔
      prev.timestamp - config.blockgenTimeMaxDelta < b.timestamp ∧ b.index = prev.index + 1 ∧
      b.hashPrev = some prev.hash := by
  simp [isSuccessorOf]

/-! ## The search -/

omit [BlockData T] [Env] in
/-- The block that round `i` of the search tests. -/
def attempt (b : Block T) (clock : Clock) (i : Nat) : Block T :=
  { b with timestamp := clock i, nonce := b.nonce + UInt64.ofNat i }

/-- Round `i` is the first whose hash has enough leading zero bits. -/
structure ExitsAt (target : Nat) (clock : Clock) (b : Block T) (i : Nat) : Prop where
  earlier : ∀ j < i, (b.attempt clock j).determineHash.zeroPrefixLength < target
  exit : target ≤ (b.attempt clock i).determineHash.zeroPrefixLength

omit [BlockData T] [Env] in
theorem attempt_zero (b : Block T) (clock : Clock) :
    b.attempt clock 0 = { b with timestamp := clock 0 } := by
  simp [attempt]

omit [BlockData T] [Env] in
theorem attempt_succ (b : Block T) (clock : Clock) (i : Nat) :
    b.attempt clock (i + 1) =
      attempt { b with timestamp := clock 0, nonce := b.nonce + 1 } (clock.drop 1) i := by
  simp only [attempt, Clock.drop_apply, UInt64.ofNat_add, Nat.add_comm 1 i, mk.injEq, true_and,
    and_true]
  rw [UInt64.add_assoc, UInt64.add_comm 1]
  rfl

theorem ExitsAt.unique {target : Nat} {clock : Clock} {b : Block T} {i j : Nat}
    (hi : ExitsAt target clock b i) (hj : ExitsAt target clock b j) : i = j := by
  rcases lt_trichotomy i j with hlt | heq | hlt
  · exact absurd (hj.earlier i hlt) (not_lt.mpr hi.exit)
  · exact heq
  · exact absurd (hi.earlier j hlt) (not_lt.mpr hj.exit)

theorem adjustDifficultyLoop_succ (target fuel : Nat) (clock : Clock) (b : Block T) :
    adjustDifficultyLoop target (fuel + 1) clock b =
      if target ≤ (b.attempt clock 0).determineHash.zeroPrefixLength then
        some (b.attempt clock 0).hashed
      else
        adjustDifficultyLoop target fuel (clock.drop 1)
          { b with timestamp := clock 0, nonce := b.nonce + 1 } := by
  rw [attempt_zero]
  rfl

/-- The loop returns the block of the round it exits in, with its hash. -/
theorem adjustDifficultyLoop_eq_some {target fuel : Nat} {clock : Clock} {b b' : Block T} :
    adjustDifficultyLoop target fuel clock b = some b' ↔
      ∃ i < fuel, ExitsAt target clock b i ∧ b' = (b.attempt clock i).hashed := by
  induction fuel generalizing clock b with
  | zero => simp [adjustDifficultyLoop]
  | succ fuel ih =>
    rw [adjustDifficultyLoop_succ]
    by_cases hzeros : target ≤ (b.attempt clock 0).determineHash.zeroPrefixLength
    · have hexit : ExitsAt target clock b 0 := ⟨fun j hj => absurd hj (Nat.not_lt_zero j), hzeros⟩
      rw [if_pos hzeros]
      constructor
      · intro h
        cases h
        exact ⟨0, Nat.succ_pos _, hexit, rfl⟩
      · rintro ⟨i, -, hi, rfl⟩
        rw [hi.unique hexit]
    · rw [if_neg hzeros, ih]
      constructor
      · rintro ⟨i, hfuel, ⟨hearlier, hexit⟩, rfl⟩
        refine ⟨i + 1, Nat.succ_lt_succ hfuel, ⟨?_, ?_⟩, ?_⟩
        · intro j hj
          cases j with
          | zero => exact not_le.mp hzeros
          | succ j =>
            rw [attempt_succ]
            exact hearlier j (Nat.lt_of_succ_lt_succ hj)
        · rw [attempt_succ]
          exact hexit
        · rw [attempt_succ]
      · rintro ⟨i, hfuel, ⟨hearlier, hexit⟩, rfl⟩
        cases i with
        | zero => exact absurd hexit hzeros
        | succ i =>
          rw [attempt_succ] at hexit ⊢
          refine ⟨i, Nat.lt_of_succ_lt_succ hfuel, ⟨?_, hexit⟩, rfl⟩
          intro j hj
          have h := hearlier (j + 1) (Nat.succ_lt_succ hj)
          rwa [attempt_succ] at h

/-- `b'` is what the search, once it has exited, has made of `b`. -/
def Mined (target : Nat) (clock : Clock) (b b' : Block T) : Prop :=
  ∃ i, ExitsAt target clock b i ∧ b' = (b.attempt clock i).hashed

theorem adjustDifficulty_mined {difficulty : ExactDouble} {fuel : Nat} {clock : Clock}
    {b b' : Block T} (h : b.adjustDifficulty difficulty clock fuel = some b') :
    ∃ target, difficultyTarget difficulty = some target ∧ Mined target clock b b' := by
  obtain ⟨target, htarget, hloop⟩ := Option.bind_eq_some_iff.mp h
  obtain ⟨i, -, hexit, hb'⟩ := adjustDifficultyLoop_eq_some.mp hloop
  exact ⟨target, htarget, i, hexit, hb'⟩

section Mined

variable {target : Nat} {clock : Clock} {b b' : Block T}

/-! The search changes timestamp, nonce and hash only. -/

theorem Mined.data (h : Mined target clock b b') : b'.data = b.data := by
  obtain ⟨i, -, rfl⟩ := h
  rfl

theorem Mined.index (h : Mined target clock b b') : b'.index = b.index := by
  obtain ⟨i, -, rfl⟩ := h
  rfl

theorem Mined.hashPrev (h : Mined target clock b b') : b'.hashPrev = b.hashPrev := by
  obtain ⟨i, -, rfl⟩ := h
  rfl

theorem Mined.timestamp (h : Mined target clock b b') : ∃ i, b'.timestamp = clock i := by
  obtain ⟨i, -, rfl⟩ := h
  exact ⟨i, rfl⟩

theorem Mined.hash (h : Mined target clock b b') : b'.hash = b'.determineHash := by
  obtain ⟨i, -, rfl⟩ := h
  rfl

theorem Mined.zeros (h : Mined target clock b b') : target ≤ b'.hash.zeroPrefixLength := by
  obtain ⟨i, hexit, rfl⟩ := h
  exact hexit.exit

end Mined

end Block

end BuenzliCoin
