-- SUMMARY: Leading zeros of a number written with a fixed width of bits, and how they are counted block by block.
import Mathlib.Data.Nat.Digits.Defs
import Mathlib.Tactic.Ring

/-!
# Leading zeros

A number written with `w` bits starts with `z` zeros if it fits into the other
`w - z` bits, but not into fewer. The count is taken from the front: a block of
zeros adds its width, and the first other block ends it.
-/

/-- The number `v`, written with `w` bits, has exactly `z` leading zeros. -/
structure LeadingZeros (w z v : Nat) : Prop where
  le : z ≤ w
  lt : v < 2 ^ (w - z)
  ge : z < w → 2 ^ (w - z - 1) ≤ v

namespace LeadingZeros

variable {w z v : Nat}

instance : Decidable (LeadingZeros w z v) :=
  decidable_of_iff (z ≤ w ∧ v < 2 ^ (w - z) ∧ (z < w → 2 ^ (w - z - 1) ≤ v))
    ⟨fun ⟨hle, hlt, hge⟩ => ⟨hle, hlt, hge⟩, fun h => ⟨h.le, h.lt, h.ge⟩⟩

/-- No bits at all. -/
theorem empty : LeadingZeros 0 0 0 where
  le := Nat.le_refl 0
  lt := Nat.one_pos
  ge h := absurd h (Nat.lt_irrefl 0)

/-- Only zero has nothing but zeros. -/
theorem eq_width_iff (h : LeadingZeros w z v) : z = w ↔ v = 0 := by
  constructor
  · rintro rfl
    have hlt := h.lt
    rw [Nat.sub_self] at hlt
    exact Nat.lt_one_iff.mp hlt
  · rintro rfl
    by_contra hne
    have hge := h.ge (Nat.lt_of_le_of_ne h.le hne)
    exact absurd hge (Nat.not_le.mpr (Nat.two_pow_pos _))

/-- A block of zeros in front. -/
theorem zero_cons (k : Nat) (h : LeadingZeros w z v) : LeadingZeros (k + w) (k + z) v := by
  have hsub : k + w - (k + z) = w - z := Nat.add_sub_add_left k w z
  refine ⟨Nat.add_le_add_left h.le k, ?_, fun hlt => ?_⟩
  · rw [hsub]
    exact h.lt
  · rw [hsub]
    exact h.ge (Nat.lt_of_add_lt_add_left hlt)

/-- In front of any other block the rest does not matter. -/
theorem cons {k hi lo : Nat} (h : LeadingZeros k z hi) (hne : z ≠ k) (hlo : lo < 2 ^ w) :
    LeadingZeros (k + w) z (hi * 2 ^ w + lo) := by
  have hlt : z < k := Nat.lt_of_le_of_ne h.le hne
  have hsplit : k + w - z = (k - z) + w := by omega
  have hsplit' : k + w - z - 1 = (k - z - 1) + w := by omega
  refine ⟨by omega, ?_, fun _ => ?_⟩
  · calc hi * 2 ^ w + lo < hi * 2 ^ w + 2 ^ w := Nat.add_lt_add_left hlo _
      _ = (hi + 1) * 2 ^ w := (Nat.succ_mul _ _).symm
      _ ≤ 2 ^ (k - z) * 2 ^ w := Nat.mul_le_mul_right _ h.lt
      _ = 2 ^ (k + w - z) := by rw [hsplit, Nat.pow_add]
  · calc 2 ^ (k + w - z - 1) = 2 ^ (k - z - 1) * 2 ^ w := by rw [hsplit', Nat.pow_add]
      _ ≤ hi * 2 ^ w := Nat.mul_le_mul_right _ (h.ge hlt)
      _ ≤ hi * 2 ^ w + lo := Nat.le_add_right _ _

end LeadingZeros
