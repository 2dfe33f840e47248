-- SUMMARY: Configuration, clock readings, and the environment a build of the program runs in.
import Mathlib.Data.Rat.Floor
import Mathlib.Order.Monotone.Basic
import BuenzliCoin.Base.Digest

namespace BuenzliCoin

/-- `std::chrono` time points and intervals: signed 64-bit counts of
    milliseconds. Where a C++ expression overflows its behaviour is undefined;
    it is read as wrapping around. -/
abbrev TimePoint := Int64

/-- `Config`, with the defaults of `Config::from_defaults`. Doubles are read as
    exact rationals. -/
structure Config where
  blockgenTimeExpected : TimePoint := 10000
  blockgenTimeMaxDelta : TimePoint := 60000
  blockgenDifficultyInit : ℚ := 2
  blockgenDifficultyAdjustAfter : UInt64 := 10
  blockgenDifficultyAdjustFactorLimit : ℚ := 16
  transactionNumPerBlock : UInt64 := 10
  transactionRewardAmount : UInt64 := 50
  deriving DecidableEq, Repr

/-- What one run of the program takes as given: how it was built, its
    configuration, and the code it is linked against. -/
class Env where
  /-- The build defines `PROOF_OF_WORK`. -/
  proofOfWork : Bool
  /-- `config()` -/
  config : Config
  /-- `HASHER::instance().hash(msg)` -/
  hash : String → Digest
  /-- `KEY_PAIR::public_key { key }.verify(hash, signature)`, or the `what()` of
      the exception that it throws. -/
  verify : String → Digest → Digest → Except String Bool
  /-- `std::vector<Block>::max_size()`, a `std::size_t`. -/
  maxSize : Nat
  maxSize_lt : maxSize < 2 ^ 64
  /-- The text `nlohmann::json` prints for a double. -/
  dumpDouble : ℚ → String

export Env (config)

/-- A build with the default configuration and the given hasher, in which every
    signature verifies. -/
abbrev Env.withHash (proofOfWork : Bool) (hash : String → Digest) : Env where
  proofOfWork
  config := {}
  hash
  verify _ _ _ := .ok true
  maxSize := 2 ^ 32
  maxSize_lt := by decide
  dumpDouble _ := ""

/-- A build without `PROOF_OF_WORK` and with a hasher that never collides. -/
abbrev plainBuild : Env := Env.withHash false fun msg => ⟨msg.toUTF8.data.toList⟩

/-! ## Clock -/

namespace TimePoint

/-- `clock::to_time_since_epoch` -/
def toTimeSinceEpoch (tp : TimePoint) : UInt64 := tp.toUInt64

/-- `clock::from_time_since_epoch` -/
def fromTimeSinceEpoch (tse : UInt64) : TimePoint := tse.toInt64

@[simp] theorem fromTimeSinceEpoch_toTimeSinceEpoch (tp : TimePoint) :
    fromTimeSinceEpoch (toTimeSinceEpoch tp) = tp := Int64.toInt64_toUInt64 tp

protected theorem le_trans {a b c : TimePoint} (hab : a ≤ b) (hbc : b ≤ c) : a ≤ c := by
  rw [Int64.le_iff_toInt_le] at *
  omega

protected theorem not_le {a b : TimePoint} : ¬ a ≤ b ↔ b < a := by
  rw [Int64.le_iff_toInt_le, Int64.lt_iff_toInt_lt]
  omega

protected theorem lt_of_lt_of_le {a b c : TimePoint} (hab : a < b) (hbc : b ≤ c) : a < c := by
  rw [Int64.lt_iff_toInt_lt, Int64.le_iff_toInt_le] at *
  omega

/-- The difference is a count that fits into 64 bits. -/
def SubFits (t t' : TimePoint) : Prop :=
  -2 ^ 63 ≤ t.toInt - t'.toInt ∧ t.toInt - t'.toInt < 2 ^ 63

theorem SubFits.toInt_sub {t t' : TimePoint} (h : SubFits t t') :
    (t - t').toInt = t.toInt - t'.toInt := by
  obtain ⟨hbelow, habove⟩ := h
  rw [Int64.toInt_sub, Int.bmod_eq_of_le (by omega) (by omega)]

/-- Taking an interval from a time after the epoch does not overflow. -/
theorem subFits_of_nonneg {t δ : TimePoint} (ht : 0 ≤ t) (hδ : 0 ≤ δ) : SubFits t δ := by
  have ht' : 0 ≤ t.toInt := by simpa using Int64.le_iff_toInt_le.mp ht
  have hδ' : 0 ≤ δ.toInt := by simpa using Int64.le_iff_toInt_le.mp hδ
  have htBound := t.toInt_lt
  have hδBound := δ.toInt_lt
  constructor <;> omega

theorem sub_lt_of_toInt_lt {t δ now : TimePoint} (ht : 0 ≤ t) (hδ : 0 < δ)
    (h : t.toInt < now.toInt + δ.toInt) : t - δ < now := by
  rw [Int64.lt_iff_toInt_lt, (subFits_of_nonneg ht (Int64.le_of_lt hδ)).toInt_sub]
  omega

theorem sub_lt {t δ : TimePoint} (ht : 0 ≤ t) (hδ : 0 < δ) : t - δ < t := by
  have hδ' : 0 < δ.toInt := by simpa using Int64.lt_iff_toInt_lt.mp hδ
  apply sub_lt_of_toInt_lt ht hδ
  omega

end TimePoint

/-- The successive readings of `clock::now()` during one call.
    `std::chrono::system_clock` counts from the epoch, so none is negative. -/
structure Clock where
  reading : Nat → TimePoint
  sinceEpoch : ∀ n, 0 ≤ reading n

namespace Clock

instance : CoeFun Clock fun _ => Nat → TimePoint := ⟨Clock.reading⟩

/-- The readings that are left after the first `n`. -/
def drop (clock : Clock) (n : Nat) : Clock where
  reading i := clock (n + i)
  sinceEpoch _ := clock.sinceEpoch _

@[simp] theorem drop_apply (clock : Clock) (n i : Nat) : clock.drop n i = clock (n + i) := rfl

/-- A clock that stands still. -/
def const (t : TimePoint) (ht : 0 ≤ t) : Clock where
  reading _ := t
  sinceEpoch _ := ht

@[simp] theorem const_apply (t : TimePoint) (ht : 0 ≤ t) (i : Nat) : const t ht i = t := rfl

/-- A clock that stands still at the epoch. -/
abbrev epoch : Clock := const 0 (by decide)

/-- The clock never goes backwards. -/
def NonDecreasing (clock : Clock) : Prop := ∀ i j, i ≤ j → clock i ≤ clock j

theorem nonDecreasing_const (t : TimePoint) (ht : 0 ≤ t) : (const t ht).NonDecreasing := by
  intro i j _
  exact Int64.le_refl t

/-- All readings of a clock that stands still lie between two times around it. -/
theorem const_between {t₀ t t₁ : TimePoint} (ht : 0 ≤ t) (hle : t₀ ≤ t) (hle' : t ≤ t₁) (i : Nat) :
    t₀ ≤ const t ht i ∧ const t ht i ≤ t₁ := ⟨hle, hle'⟩

end Clock

end BuenzliCoin
