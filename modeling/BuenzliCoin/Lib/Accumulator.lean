-- SUMMARY: Sums that are accumulated in 64 bits, and how often they wrap around.
import Mathlib.Algebra.BigOperators.Group.List.Basic
import Mathlib.Algebra.GroupWithZero.Nat

/-!
# Accumulators

`for (auto a : as) sum += a;` on a `std::size_t`. The exact sum is known from the
result together with the number of additions that have wrapped around.
-/

namespace Accumulator

/-- The loop, from a sum that it has reached. -/
def accumulate (sum : UInt64) (as : List UInt64) : UInt64 := as.foldl (· + ·) sum

/-- The number of its additions that wrap around: those whose result is less than
    what is added. -/
def wraps (sum : UInt64) : List UInt64 → Nat
  | [] => 0
  | a :: as => (if sum + a < a then 1 else 0) + wraps (sum + a) as

/-- The sum over unbounded numbers. -/
def exact (as : List UInt64) : Nat := (as.map UInt64.toNat).sum

@[simp] theorem exact_nil : exact [] = 0 := rfl

@[simp] theorem exact_cons (a : UInt64) (as : List UInt64) : exact (a :: as) = a.toNat + exact as :=
  rfl

theorem exact_append (as bs : List UInt64) : exact (as ++ bs) = exact as + exact bs := by
  simp [exact]

/-- One addition. -/
theorem toNat_add_wrap (sum a : UInt64) :
    (sum + a).toNat + 2 ^ 64 * (if sum + a < a then 1 else 0) = sum.toNat + a.toNat := by
  have hsum := sum.toNat_lt
  have ha := a.toNat_lt
  simp only [UInt64.lt_iff_toNat_lt, UInt64.toNat_add]
  split_ifs with hlt <;> omega

theorem toNat_accumulate (sum : UInt64) (as : List UInt64) :
    (accumulate sum as).toNat + 2 ^ 64 * wraps sum as = sum.toNat + exact as := by
  induction as generalizing sum with
  | nil => rfl
  | cons a as ih =>
    have hfirst := toNat_add_wrap sum a
    have hrest := ih (sum + a)
    rw [exact_cons, wraps, Nat.mul_add]
    simp only [accumulate, List.foldl_cons] at hrest ⊢
    omega

/-- Sums that agree in 64 bits are equal exactly if they have wrapped around
    equally often. -/
theorem exact_eq_iff {as bs : List UInt64} (h : accumulate 0 as = accumulate 0 bs) :
    exact as = exact bs ↔ wraps 0 as = wraps 0 bs := by
  have has := toNat_accumulate 0 as
  have hbs := toNat_accumulate 0 bs
  rw [h] at has
  have hzero : (0 : UInt64).toNat = 0 := rfl
  omega

end Accumulator
