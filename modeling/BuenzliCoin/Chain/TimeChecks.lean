-- SUMMARY: The timestamp checks on decoded blocks, against the same checks over the integers.
import BuenzliCoin.Chain.Tamper

/-!
# Timestamp checks

The JSON form of a timestamp is an unsigned number of 64 bits, and the count that
it is decoded to a signed one. Both checks take the tolerance from a decoded
timestamp before they compare.
-/

namespace BuenzliCoin

theorem TimePoint.toInt_fromTimeSinceEpoch (tse : UInt64) :
    (fromTimeSinceEpoch tse).toInt =
      if tse.toNat < 2 ^ 63 then (tse.toNat : ℤ) else tse.toNat - 2 ^ 64 := by
  have htoInt : (fromTimeSinceEpoch tse).toInt = tse.toBitVec.toInt := rfl
  have htoNat : tse.toBitVec.toNat = tse.toNat := rfl
  rw [htoInt, BitVec.toInt_eq_toNat_cond, htoNat]
  split_ifs <;> omega

namespace Block

variable {T : Type} [BlockData T] [Env]

omit [BlockData T] in
/-- The timestamp check of `valid`. -/
def timestampRejected (b : Block T) (now : TimePoint) : Bool :=
  b.timestamp - config.blockgenTimeMaxDelta ≥ now

omit [BlockData T] in
/-- The timestamp check of `is_successor_of`. -/
def timestampFollows (b prev : Block T) : Bool :=
  b.timestamp > prev.timestamp - config.blockgenTimeMaxDelta

/-- `valid` makes its check after that of the data. -/
theorem valid_eq_error_timestamp_iff {b : Block T} {now : TimePoint}
    (hdata : BlockData.valid b.data b.index = .ok ()) :
    b.valid now = .error "invalid timestamp" ↔ b.timestampRejected now := by
  simp only [valid, hdata, timestampRejected, decide_eq_true_eq]
  split_ifs with htime hhash
  · simp [htime]
  · simp [htime]
  · simp [htime]

omit [BlockData T] in
theorem isSuccessorOf_eq_and (b prev : Block T) :
    b.isSuccessorOf prev =
      (b.timestampFollows prev &&
        decide (b.index = prev.index + 1 ∧ b.hashPrev = some prev.hash)) := by
  simp [isSuccessorOf, timestampFollows, Bool.decide_and]

omit [BlockData T] in
theorem timestampRejected_iff {b : Block T} {now : TimePoint}
    (hfits : TimePoint.SubFits b.timestamp config.blockgenTimeMaxDelta) :
    b.timestampRejected now ↔
      now.toInt ≤ b.timestamp.toInt - config.blockgenTimeMaxDelta.toInt := by
  rw [timestampRejected, decide_eq_true_eq, ge_iff_le, Int64.le_iff_toInt_le, hfits.toInt_sub]

omit [BlockData T] in
theorem timestampFollows_iff {b prev : Block T}
    (hfits : TimePoint.SubFits prev.timestamp config.blockgenTimeMaxDelta) :
    b.timestampFollows prev ↔
      prev.timestamp.toInt - config.blockgenTimeMaxDelta.toInt < b.timestamp.toInt := by
  rw [timestampFollows, decide_eq_true_eq, gt_iff_lt, Int64.lt_iff_toInt_lt, hfits.toInt_sub]

omit [Env] in
/-- A block that is decoded has the timestamp of its JSON form. -/
theorem timestamp_of_fromJson {j : Json} {b : Block T} {tse : UInt64} (h : fromJson j = .ok b)
    (htse : j.atKey "timestamp" = .ok (.numberUnsigned tse)) :
    b.timestamp = TimePoint.fromTimeSinceEpoch tse := by
  have hread : (Json.numberUnsigned tse).getUInt64 = .ok tse := rfl
  simp only [fromJson, Except.bind_eq_ok_iff, htse, Except.ok.injEq, exists_eq_left', hread] at h
  obtain ⟨_, -, _, -, _, -, _, -, _, -, _, -, _, -, _, -, _, -, h⟩ := h
  split_ifs at h
  · simp only [Except.bind_eq_ok_iff, Except.pure_eq_ok_iff] at h
    obtain ⟨_, -, _, -, _, -, rfl⟩ := h
    rfl
  · simp only [Except.bind_eq_ok_iff, Except.pure_eq_ok_iff] at h
    obtain ⟨_, -, rfl⟩ := h
    rfl

/-- The two checks on a block and the one before it, whose timestamps are written
    as `u` and `v`, are as over the integers, and no difference overflows. -/
structure ExactTimestamps (b prev : Block T) (u v : UInt64) (now : TimePoint) : Prop where
  rejected : b.timestampRejected now ↔
    now.toInt + config.blockgenTimeMaxDelta.toInt ≤ u.toNat
  follows : b.timestampFollows prev ↔
    (v.toNat - config.blockgenTimeMaxDelta.toInt : ℤ) < u.toNat
  fits : TimePoint.SubFits b.timestamp config.blockgenTimeMaxDelta
  prevFits : TimePoint.SubFits prev.timestamp config.blockgenTimeMaxDelta

/-- The checks are exact exactly for timestamps that a signed count can hold. -/
theorem exactTimestamps_iff {j j' : Json} {b prev : Block T} {u v : UInt64}
    (hδ : 0 ≤ config.blockgenTimeMaxDelta) (h : fromJson j = .ok b)
    (hu : j.atKey "timestamp" = .ok (.numberUnsigned u)) (h' : fromJson j' = .ok prev)
    (hv : j'.atKey "timestamp" = .ok (.numberUnsigned v)) (clock : Clock) :
    ExactTimestamps b prev u v (clock 0) ↔ u.toNat < 2 ^ 63 ∧ v.toNat < 2 ^ 63 := by
  have hnow : 0 ≤ (clock 0).toInt := by
    simpa using Int64.le_iff_toInt_le.mp (clock.sinceEpoch 0)
  have hδ' : 0 ≤ (config.blockgenTimeMaxDelta).toInt := by
    simpa using Int64.le_iff_toInt_le.mp hδ
  have hnowBound := (clock 0).toInt_lt
  have hδBound := (config.blockgenTimeMaxDelta).toInt_lt
  have huBound := u.toNat_lt
  have hvBound := v.toNat_lt
  have htime := TimePoint.toInt_fromTimeSinceEpoch u
  have htime' := TimePoint.toInt_fromTimeSinceEpoch v
  rw [← timestamp_of_fromJson h hu] at htime
  rw [← timestamp_of_fromJson h' hv] at htime'
  constructor
  · rintro ⟨hrejected, hfollows, hfits, hfits'⟩
    rw [timestampRejected_iff hfits] at hrejected
    rw [timestampFollows_iff hfits'] at hfollows
    obtain ⟨hbelow, -⟩ := hfits
    obtain ⟨hbelow', -⟩ := hfits'
    -- a timestamp that does not fit is negative and passes for an early one
    have hu63 : u.toNat < 2 ^ 63 := by
      by_contra hlarge
      rw [if_neg hlarge] at htime
      omega
    refine ⟨hu63, ?_⟩
    by_contra hlarge
    rw [if_neg hlarge] at htime'
    rw [if_pos hu63] at htime
    omega
  · rintro ⟨hu63, hv63⟩
    rw [if_pos hu63] at htime
    rw [if_pos hv63] at htime'
    have hfits : TimePoint.SubFits b.timestamp config.blockgenTimeMaxDelta := by
      constructor <;> omega
    have hfits' : TimePoint.SubFits prev.timestamp config.blockgenTimeMaxDelta := by
      constructor <;> omega
    refine ⟨?_, ?_, hfits, hfits'⟩
    · rw [timestampRejected_iff hfits]
      omega
    · rw [timestampFollows_iff hfits']
      omega

end Block

/-- A first block whose timestamp is the last millisecond that can be written. -/
def lastMillisecond : Block Text :=
  letI := plainBuild
  Block.hashed {
    data := ⟨"text"⟩, timestamp := -1, nonce := 0, index := 0, hashPrev := none, hash := ⟨[]⟩ }

theorem Block.exactTimestamps_iff_numberedText :
    letI := plainBuild
    let prev := numberedText 12 3
    let b := Block.next ⟨"next"⟩ prev 20
    (0 : TimePoint) ≤ config.blockgenTimeMaxDelta ∧ fromJson b.toJson = .ok b ∧
    b.toJson.atKey "timestamp" = .ok (.numberUnsigned 20) ∧ fromJson prev.toJson = .ok prev ∧
    prev.toJson.atKey "timestamp" = .ok (.numberUnsigned 12) ∧
    (ExactTimestamps b prev 20 12 (Clock.epoch 0) ↔
      (20 : UInt64).toNat < 2 ^ 63 ∧ (12 : UInt64).toNat < 2 ^ 63) := by
  let env := plainBuild
  intro prev b
  have hread : fromJson b.toJson = .ok b := fromJson_toJson _
  have hkey : b.toJson.atKey "timestamp" = .ok (.numberUnsigned 20) := rfl
  have hread' : fromJson prev.toJson = .ok prev := fromJson_toJson _
  have hkey' : prev.toJson.atKey "timestamp" = .ok (.numberUnsigned 12) := rfl
  have hδ : (0 : TimePoint) ≤ config.blockgenTimeMaxDelta := by decide
  exact ⟨hδ, hread, hkey, hread', hkey', exactTimestamps_iff hδ hread hkey hread' hkey' Clock.epoch⟩

/-- The timestamp 2 ^ 64 - 1 is decoded to one before the epoch, and a block with it
    is valid at any time. -/
theorem Block.not_exactTimestamps_lastMillisecond :
    letI := plainBuild
    fromJson lastMillisecond.toJson = .ok lastMillisecond ∧
    lastMillisecond.toJson.atKey "timestamp" = .ok (.numberUnsigned 18446744073709551615) ∧
    lastMillisecond.valid (Clock.epoch 0) = .ok () ∧
    (Clock.epoch 0).toInt + config.blockgenTimeMaxDelta.toInt ≤
      (18446744073709551615 : UInt64).toNat ∧
    ¬ ExactTimestamps lastMillisecond lastMillisecond 18446744073709551615 18446744073709551615
      (Clock.epoch 0) := by
  let env := plainBuild
  have hread : fromJson lastMillisecond.toJson = .ok lastMillisecond := fromJson_toJson _
  have hlate : (Clock.epoch 0).toInt + config.blockgenTimeMaxDelta.toInt ≤
      (18446744073709551615 : UInt64).toNat := by decide +kernel
  refine ⟨hread, rfl, by decide +kernel, hlate, ?_⟩
  intro h
  have hrejected := h.rejected.mpr hlate
  exact absurd hrejected (by decide)

end BuenzliCoin
