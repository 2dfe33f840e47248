-- SUMMARY: Floating-point numbers whose arithmetic is exact: rationals, the two infinities, and what is no number.
import Mathlib.Algebra.Order.Field.Basic
import Mathlib.Data.Rat.Floor
import Mathlib.Tactic.NormNum

/-!
# Exact doubles

The arithmetic of doubles apart from precision and range: between finite numbers
it is exact, and there is one zero. A division by zero gives an infinity; what has
no value is no number, and no comparison with that holds.
-/

inductive ExactDouble where
  | nan
  | infinite (negative : Bool)
  | finite (q : ℚ)
  deriving DecidableEq, Repr

namespace ExactDouble

instance : Coe ℚ ExactDouble := ⟨finite⟩

/-- The quotient of two finite numbers. -/
def quotient (p q : ℚ) : ExactDouble :=
  if q ≠ 0 then finite (p / q)
  else if p = 0 then nan
  else infinite (p < 0)

protected def mul : ExactDouble → ExactDouble → ExactDouble
  | nan, _ | _, nan => nan
  | finite p, finite q => finite (p * q)
  | finite p, infinite n => if p = 0 then nan else infinite (n != decide (p < 0))
  | infinite n, finite q => if q = 0 then nan else infinite (n != decide (q < 0))
  | infinite m, infinite n => infinite (m != n)

protected def add : ExactDouble → ExactDouble → ExactDouble
  | nan, _ | _, nan => nan
  | finite p, finite q => finite (p + q)
  | finite _, infinite n | infinite n, finite _ => infinite n
  | infinite m, infinite n => if m = n then infinite m else nan

protected def lt : ExactDouble → ExactDouble → Bool
  | nan, _ | _, nan => false
  | finite p, finite q => p < q
  | finite _, infinite n => !n
  | infinite n, finite _ => n
  | infinite m, infinite n => m && !n

protected def le : ExactDouble → ExactDouble → Bool
  | nan, _ | _, nan => false
  | finite p, finite q => p ≤ q
  | finite _, infinite n => !n
  | infinite n, finite _ => n
  | infinite m, infinite n => m || !n

instance : Mul ExactDouble := ⟨ExactDouble.mul⟩
instance : Add ExactDouble := ⟨ExactDouble.add⟩
instance : LT ExactDouble := ⟨fun a b => a.lt b⟩
instance : LE ExactDouble := ⟨fun a b => a.le b⟩

instance (a b : ExactDouble) : Decidable (a < b) := inferInstanceAs (Decidable (a.lt b = true))
instance (a b : ExactDouble) : Decidable (a ≤ b) := inferInstanceAs (Decidable (a.le b = true))

/-- The cast to an unsigned integer of 64 bits cuts off the fraction. It is undefined
    if that does not leave such an integer. -/
def toUInt64? : ExactDouble → Option Nat
  | finite q => if -1 < q ∧ q < 2 ^ 64 then some ⌊q⌋₊ else none
  | _ => none

/-! ## Finite numbers -/

@[simp] theorem finite_mul_finite (p q : ℚ) : finite p * finite q = finite (p * q) := rfl
@[simp] theorem finite_add_finite (p q : ℚ) : finite p + finite q = finite (p + q) := rfl

@[simp] theorem finite_lt_finite {p q : ℚ} : finite p < finite q ↔ p < q :=
  decide_eq_true_iff

@[simp] theorem finite_le_finite {p q : ℚ} : finite p ≤ finite q ↔ p ≤ q :=
  decide_eq_true_iff

@[simp] theorem finite_lt_infinite {p : ℚ} {n : Bool} : finite p < infinite n ↔ n = false := by
  change (!n) = true ↔ n = false
  simp

@[simp] theorem infinite_lt_finite {n : Bool} {q : ℚ} : infinite n < finite q ↔ n = true := Iff.rfl

theorem infinite_mul_finite (n : Bool) (q : ℚ) :
    infinite n * finite q = if q = 0 then nan else infinite (n != decide (q < 0)) := rfl

theorem finite_mul_infinite (p : ℚ) (n : Bool) :
    finite p * infinite n = if p = 0 then nan else infinite (n != decide (p < 0)) := rfl

theorem quotient_of_ne_zero (p : ℚ) {q : ℚ} (hq : q ≠ 0) : quotient p q = finite (p / q) :=
  if_pos hq

@[simp] theorem quotient_zero (p : ℚ) :
    quotient p 0 = if p = 0 then nan else infinite (p < 0) := if_neg (by simp)

theorem toUInt64?_finite_eq_some {q : ℚ} {n : Nat} :
    toUInt64? (finite q) = some n ↔ (-1 < q ∧ q < 2 ^ 64) ∧ ⌊q⌋₊ = n := by
  simp only [toUInt64?, Option.ite_none_right_eq_some, Option.some.injEq]

/-- Only finite numbers can be cast. -/
theorem exists_of_toUInt64?_eq_some {a : ExactDouble} {n : Nat} (h : a.toUInt64? = some n) :
    ∃ q, a = finite q := by
  cases a with
  | finite q => exact ⟨q, rfl⟩
  | nan => cases h
  | infinite n => cases h

/-- No number is below itself after the cast, whatever the cast makes of it. -/
theorem not_toUInt64?_lt_self (a : ExactDouble) :
    ¬ ∃ m n, a.toUInt64? = some m ∧ a.toUInt64? = some n ∧ n < m := by
  rintro ⟨m, n, hm, hn, hlt⟩
  rw [hm, Option.some.injEq] at hn
  exact hlt.ne' hn

/-- A sum is finite only if both numbers are. -/
theorem exists_of_add_eq_finite {a b : ExactDouble} {q : ℚ} (h : a + b = finite q) :
    ∃ c d, a = finite c ∧ b = finite d ∧ c + d = q := by
  cases a with
  | nan => cases b <;> cases h
  | infinite m =>
    cases b with
    | nan => cases h
    | infinite n =>
      cases m <;> cases n <;> cases h
    | finite d => cases h
  | finite c =>
    cases b with
    | nan => cases h
    | infinite n => cases h
    | finite d => exact ⟨c, d, rfl, rfl, finite.inj h⟩

/-- A product is finite only if both numbers are. -/
theorem exists_of_mul_eq_finite {a b : ExactDouble} {q : ℚ} (h : a * b = finite q) :
    ∃ c d, a = finite c ∧ b = finite d ∧ c * d = q := by
  cases a with
  | nan => cases b <;> cases h
  | infinite m =>
    cases b with
    | nan => cases h
    | infinite n => cases h
    | finite d =>
      rw [infinite_mul_finite] at h
      split_ifs at h
  | finite c =>
    cases b with
    | nan => cases h
    | infinite n =>
      rw [finite_mul_infinite] at h
      split_ifs at h
    | finite d => exact ⟨c, d, rfl, rfl, finite.inj h⟩

/-! ## No number -/

@[simp] theorem nan_mul (a : ExactDouble) : nan * a = nan := by cases a <;> rfl
@[simp] theorem mul_nan (a : ExactDouble) : a * nan = nan := by cases a <;> rfl
@[simp] theorem nan_add (a : ExactDouble) : nan + a = nan := by cases a <;> rfl
@[simp] theorem add_nan (a : ExactDouble) : a + nan = nan := by cases a <;> rfl

@[simp] theorem not_nan_lt (a : ExactDouble) : ¬ nan < a := by
  cases a <;> exact Bool.false_ne_true

@[simp] theorem not_lt_nan (a : ExactDouble) : ¬ a < nan := by
  cases a <;> exact Bool.false_ne_true

@[simp] theorem not_nan_le (a : ExactDouble) : ¬ nan ≤ a := by
  cases a <;> exact Bool.false_ne_true

@[simp] theorem not_le_nan (a : ExactDouble) : ¬ a ≤ nan := by
  cases a <;> exact Bool.false_ne_true

theorem quotient_eq_nan_iff {p q : ℚ} : quotient p q = nan ↔ p = 0 ∧ q = 0 := by
  unfold quotient
  split_ifs with hq hp
  · simp [hq]
  · simp [hp, not_not.mp hq]
  · simp [hp]

/-- A product of numbers is none if it is one of zero and infinity. -/
theorem mul_eq_nan_iff {a b : ExactDouble} (ha : a ≠ nan) (hb : b ≠ nan) :
    a * b = nan ↔
      (a = finite 0 ∧ ∃ n, b = infinite n) ∨ ((∃ n, a = infinite n) ∧ b = finite 0) := by
  cases a with
  | nan => exact absurd rfl ha
  | infinite m =>
    cases b with
    | nan => exact absurd rfl hb
    | infinite n =>
      refine iff_of_false (fun h => ?_) (by simp)
      cases h
    | finite q =>
      rw [infinite_mul_finite]
      split_ifs with hq <;> simp [hq]
  | finite p =>
    cases b with
    | nan => exact absurd rfl hb
    | infinite n =>
      rw [finite_mul_infinite]
      split_ifs with hp <;> simp [hp]
    | finite q => simp

/-- Between numbers one comparison or the other holds. -/
theorem not_lt_iff {a b : ExactDouble} (ha : a ≠ nan) (hb : b ≠ nan) : ¬ a < b ↔ b ≤ a := by
  change ¬ (a.lt b = true) ↔ b.le a = true
  cases a with
  | nan => exact absurd rfl ha
  | infinite m =>
    cases b with
    | nan => exact absurd rfl hb
    | infinite n => cases m <;> cases n <;> decide
    | finite q => simp [ExactDouble.lt, ExactDouble.le]
  | finite p =>
    cases b with
    | nan => exact absurd rfl hb
    | infinite n => simp [ExactDouble.lt, ExactDouble.le]
    | finite q => simp [ExactDouble.lt, ExactDouble.le]

end ExactDouble
