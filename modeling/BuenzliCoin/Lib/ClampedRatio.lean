-- SUMMARY: Ratios clamped to an interval around one, and exactly when one of them is at most, or equal to, another.
import Mathlib.Algebra.Order.Field.Basic
import Mathlib.Tactic.Linarith

/-!
# Clamped ratios

A controller scales a quantity by the ratio of what it expected to what it saw,
cut off at a limit and at the inverse of the limit. Seeing nothing counts as an
infinite ratio.
-/

namespace ClampedRatio

variable {K : Type} [Field K] [LinearOrder K] [IsStrictOrderedRing K]

def clampedRatio (limit expected actual : K) : K :=
  if actual = 0 then limit else max limit⁻¹ (min limit (expected / actual))

/-- The ratio is at the limit or above it. -/
def Fast (limit expected actual : K) : Prop :=
  actual = 0 ∨ (0 < actual ∧ limit * actual ≤ expected)

/-- The ratio is at the inverse of the limit or below it. -/
def Slow (limit expected actual : K) : Prop :=
  actual < 0 ∨ (0 < actual ∧ expected * limit ≤ actual)

variable {limit expected expected' actual actual' : K}

section

variable (hlimit : 1 ≤ limit)

include hlimit

theorem inv_le_self : limit⁻¹ ≤ limit := (inv_le_one_of_one_le₀ hlimit).trans hlimit

theorem clampedRatio_le : clampedRatio limit expected actual ≤ limit := by
  unfold clampedRatio
  split_ifs
  · exact le_refl limit
  · exact max_le (inv_le_self hlimit) (min_le_left _ _)

theorem le_clampedRatio : limit⁻¹ ≤ clampedRatio limit expected actual := by
  unfold clampedRatio
  split_ifs
  · exact inv_le_self hlimit
  · exact le_max_left _ _

theorem clampedRatio_pos : 0 < clampedRatio limit expected actual :=
  lt_of_lt_of_le (inv_pos.mpr (one_pos.trans_le hlimit)) (le_clampedRatio hlimit)

theorem Fast.clampedRatio_eq (h : Fast limit expected actual) :
    clampedRatio limit expected actual = limit := by
  unfold clampedRatio
  obtain hzero | ⟨hpos, hexpected⟩ := h
  · rw [if_pos hzero]
  · rw [if_neg hpos.ne', min_eq_left ((le_div_iff₀ hpos).mpr hexpected),
      max_eq_right (inv_le_self hlimit)]

theorem Slow.clampedRatio_eq (hexpected : 0 ≤ expected) (h : Slow limit expected actual) :
    clampedRatio limit expected actual = limit⁻¹ := by
  have hpos : 0 < limit := one_pos.trans_le hlimit
  unfold clampedRatio
  obtain hneg | ⟨hactual, hle⟩ := h
  · rw [if_neg hneg.ne]
    apply max_eq_left
    exact (min_le_right _ _).trans
      ((div_nonpos_of_nonneg_of_nonpos hexpected hneg.le).trans (inv_pos.mpr hpos).le)
  · rw [if_neg hactual.ne']
    apply max_eq_left
    refine (min_le_right _ _).trans ?_
    rw [div_le_iff₀ hactual, ← div_eq_inv_mul, le_div_iff₀ hpos]
    exact hle

end

/-- A ratio that neither end cuts off. -/
theorem clampedRatio_of_not (hlimit : 0 < limit) (hfast : ¬ Fast limit expected actual)
    (hslow : ¬ Slow limit expected actual) :
    0 < actual ∧ clampedRatio limit expected actual = expected / actual ∧
      limit⁻¹ < expected / actual ∧ expected / actual < limit := by
  simp only [Fast, Slow, not_or, not_and, not_le] at hfast hslow
  obtain ⟨hzero, hfast⟩ := hfast
  obtain ⟨hneg, hslow⟩ := hslow
  have hactual : 0 < actual := lt_of_le_of_ne (not_lt.mp hneg) (Ne.symm hzero)
  have hhigh : expected / actual < limit := (div_lt_iff₀ hactual).mpr (hfast hactual)
  have hlow : limit⁻¹ < expected / actual := by
    rw [lt_div_iff₀ hactual, ← div_eq_inv_mul, div_lt_iff₀ hlimit]
    exact hslow hactual
  refine ⟨hactual, ?_, hlow, hhigh⟩
  rw [clampedRatio, if_neg hzero, min_eq_right hhigh.le, max_eq_right hlow.le]

theorem lt_clampedRatio (hlimit : 1 ≤ limit) (hone : limit ≠ 1)
    (hslow : ¬ Slow limit expected actual) : limit⁻¹ < clampedRatio limit expected actual := by
  by_cases hfast : Fast limit expected actual
  · rw [hfast.clampedRatio_eq hlimit]
    have hlt : 1 < limit := lt_of_le_of_ne hlimit (Ne.symm hone)
    exact (inv_lt_one_of_one_lt₀ hlt).trans hlt
  · obtain ⟨-, heq, hlow, -⟩ := clampedRatio_of_not (one_pos.trans_le hlimit) hfast hslow
    rw [heq]
    exact hlow

theorem clampedRatio_lt (hlimit : 1 ≤ limit) (hone : limit ≠ 1) (hexpected : 0 ≤ expected)
    (hfast : ¬ Fast limit expected actual) : clampedRatio limit expected actual < limit := by
  by_cases hslow : Slow limit expected actual
  · rw [hslow.clampedRatio_eq hlimit hexpected]
    have hlt : 1 < limit := lt_of_le_of_ne hlimit (Ne.symm hone)
    exact (inv_lt_one_of_one_lt₀ hlt).trans hlt
  · obtain ⟨-, heq, -, hhigh⟩ := clampedRatio_of_not (one_pos.trans_le hlimit) hfast hslow
    rw [heq]
    exact hhigh

/-- The limit one leaves no choice. -/
theorem clampedRatio_one : clampedRatio 1 expected actual = 1 := by
  apply le_antisymm (clampedRatio_le (le_refl 1))
  calc (1 : K) = 1⁻¹ := inv_one.symm
    _ ≤ clampedRatio 1 expected actual := le_clampedRatio (le_refl 1)

/-- The comparison of two ratios, without divisions. -/
theorem clampedRatio_le_clampedRatio_iff (hlimit : 1 ≤ limit) (hexpected : 0 ≤ expected)
    (hexpected' : 0 ≤ expected') :
    clampedRatio limit expected actual ≤ clampedRatio limit expected' actual' ↔
      limit = 1 ∨ Slow limit expected actual ∨ Fast limit expected' actual' ∨
        (0 < actual ∧ 0 < actual' ∧ expected * actual' ≤ expected' * actual) := by
  have hpos : 0 < limit := one_pos.trans_le hlimit
  constructor
  · intro h
    by_cases hone : limit = 1
    · exact .inl hone
    by_cases hslow : Slow limit expected actual
    · exact .inr (.inl hslow)
    by_cases hfast' : Fast limit expected' actual'
    · exact .inr (.inr (.inl hfast'))
    -- both ratios are strictly between the two ends
    have hlow := (lt_clampedRatio hlimit hone hslow).trans_le h
    have hhigh := h.trans_lt (clampedRatio_lt hlimit hone hexpected' hfast')
    have hfast : ¬ Fast limit expected actual :=
      fun hfast => hhigh.ne (hfast.clampedRatio_eq hlimit)
    have hslow' : ¬ Slow limit expected' actual' :=
      fun hslow' => hlow.ne' (hslow'.clampedRatio_eq hlimit hexpected')
    obtain ⟨hactual, heq, -⟩ := clampedRatio_of_not hpos hfast hslow
    obtain ⟨hactual', heq', -⟩ := clampedRatio_of_not hpos hfast' hslow'
    rw [heq, heq', div_le_div_iff₀ hactual hactual'] at h
    exact .inr (.inr (.inr ⟨hactual, hactual', h⟩))
  · rintro (rfl | hslow | hfast' | ⟨hactual, hactual', h⟩)
    · rw [clampedRatio_one, clampedRatio_one]
    · rw [hslow.clampedRatio_eq hlimit hexpected]
      exact le_clampedRatio hlimit
    · rw [hfast'.clampedRatio_eq hlimit]
      exact clampedRatio_le hlimit
    · rw [clampedRatio, clampedRatio, if_neg hactual.ne', if_neg hactual'.ne']
      refine max_le_max (le_refl _) (min_le_min (le_refl _) ?_)
      exact (div_le_div_iff₀ hactual hactual').mpr h

/-- Two ratios are equal if both are cut off at the same end, or if the quotients
    are the same. -/
theorem clampedRatio_eq_clampedRatio_iff (hlimit : 1 ≤ limit) (hexpected : 0 ≤ expected)
    (hexpected' : 0 ≤ expected') :
    clampedRatio limit expected actual = clampedRatio limit expected' actual' ↔
      limit = 1 ∨ (Slow limit expected actual ∧ Slow limit expected' actual') ∨
        (Fast limit expected actual ∧ Fast limit expected' actual') ∨
        (0 < actual ∧ 0 < actual' ∧ expected * actual' = expected' * actual) := by
  have hpos : 0 < limit := one_pos.trans_le hlimit
  constructor
  · intro h
    by_cases hone : limit = 1
    · exact .inl hone
    by_cases hslow : Slow limit expected actual
    · have hslow' : Slow limit expected' actual' := by
        by_contra hslow'
        have hlow := lt_clampedRatio hlimit hone hslow'
        rw [← h, hslow.clampedRatio_eq hlimit hexpected] at hlow
        exact lt_irrefl _ hlow
      exact .inr (.inl ⟨hslow, hslow'⟩)
    by_cases hfast : Fast limit expected actual
    · have hfast' : Fast limit expected' actual' := by
        by_contra hfast'
        have hhigh := clampedRatio_lt hlimit hone hexpected' hfast'
        rw [← h, hfast.clampedRatio_eq hlimit] at hhigh
        exact lt_irrefl _ hhigh
      exact .inr (.inr (.inl ⟨hfast, hfast'⟩))
    have hlow := lt_clampedRatio hlimit hone hslow
    have hhigh := clampedRatio_lt hlimit hone hexpected hfast
    have hfast' : ¬ Fast limit expected' actual' :=
      fun hfast' => hhigh.ne (h.trans (hfast'.clampedRatio_eq hlimit))
    have hslow' : ¬ Slow limit expected' actual' :=
      fun hslow' => hlow.ne' (h.trans (hslow'.clampedRatio_eq hlimit hexpected'))
    obtain ⟨hactual, heq, -⟩ := clampedRatio_of_not hpos hfast hslow
    obtain ⟨hactual', heq', -⟩ := clampedRatio_of_not hpos hfast' hslow'
    rw [heq, heq', div_eq_div_iff hactual.ne' hactual'.ne'] at h
    exact .inr (.inr (.inr ⟨hactual, hactual', h⟩))
  · rintro (rfl | ⟨hslow, hslow'⟩ | ⟨hfast, hfast'⟩ | ⟨hactual, hactual', h⟩)
    · rw [clampedRatio_one, clampedRatio_one]
    · rw [hslow.clampedRatio_eq hlimit hexpected, hslow'.clampedRatio_eq hlimit hexpected']
    · rw [hfast.clampedRatio_eq hlimit, hfast'.clampedRatio_eq hlimit]
    · rw [clampedRatio, clampedRatio, if_neg hactual.ne', if_neg hactual'.ne',
        (div_eq_div_iff hactual.ne' hactual'.ne').mpr h]

/-! ## Scaling -/

/-- A quantity of one or more stays so if it can bear the inverse of the limit, or
    if what was seen is not too much. -/
theorem one_le_mul_clampedRatio_iff (hlimit : 1 ≤ limit) (hexpected : 0 ≤ expected) {d : K}
    (hd : 1 ≤ d) :
    1 ≤ d * clampedRatio limit expected actual ↔
      limit ≤ d ∨ (0 ≤ actual ∧ actual ≤ d * expected) := by
  have hpos : 0 < limit := one_pos.trans_le hlimit
  have hdpos : 0 < d := one_pos.trans_le hd
  have hinverse : 1 ≤ d * limit⁻¹ ↔ limit ≤ d := by
    rw [← div_eq_mul_inv, one_le_div hpos]
  have hwhole : 1 ≤ d * limit := one_le_mul_of_one_le_of_one_le hd hlimit
  rcases lt_trichotomy actual 0 with hneg | rfl | hactual
  · have hslow : Slow limit expected actual := .inl hneg
    rw [hslow.clampedRatio_eq hlimit hexpected, hinverse]
    exact ⟨.inl, fun h => h.resolve_right fun h => absurd h.1 (not_le.mpr hneg)⟩
  · have hfast : Fast limit expected 0 := .inl rfl
    rw [hfast.clampedRatio_eq hlimit]
    exact ⟨fun _ => .inr ⟨le_refl 0, mul_nonneg hdpos.le hexpected⟩, fun _ => hwhole⟩
  · have hquotient : 1 ≤ d * (expected / actual) ↔ actual ≤ d * expected := by
      rw [← mul_div_assoc, one_le_div hactual]
    rw [clampedRatio, if_neg hactual.ne', mul_max_of_nonneg _ _ hdpos.le,
      mul_min_of_nonneg _ _ hdpos.le, le_max_iff, le_min_iff, hinverse, hquotient]
    exact or_congr_right ⟨fun h => ⟨hactual.le, h.2⟩, fun h => ⟨hwhole, h.2⟩⟩

/-- A quantity stays below a bound, of whatever kind, if it can bear the limit or
    if what was seen is not too little. -/
theorem mul_clampedRatio_iff {P : K → Prop} (hmono : ∀ a b, 0 ≤ a → a ≤ b → P b → P a)
    (hlimit : 1 ≤ limit) (hexpected : 0 ≤ expected) {d : K} (hd : 0 ≤ d) (hP : P d) :
    P (d * clampedRatio limit expected actual) ↔
      P (d * limit) ∨ actual < 0 ∨ (0 < actual ∧ P (d * (expected / actual))) := by
  have hpos : 0 < limit := one_pos.trans_le hlimit
  have hinverse : P (d * limit⁻¹) :=
    hmono _ d (mul_nonneg hd (inv_pos.mpr hpos).le)
      (mul_le_of_le_one_right hd (inv_le_one_of_one_le₀ hlimit)) hP
  rcases lt_trichotomy actual 0 with hneg | rfl | hactual
  · have hslow : Slow limit expected actual := .inl hneg
    rw [hslow.clampedRatio_eq hlimit hexpected]
    exact ⟨fun _ => .inr (.inl hneg), fun _ => hinverse⟩
  · have hfast : Fast limit expected 0 := .inl rfl
    rw [hfast.clampedRatio_eq hlimit]
    simp only [lt_irrefl, false_and, or_false]
  · simp only [clampedRatio, if_neg hactual.ne', not_lt_of_gt hactual, hactual, true_and, false_or]
    have hquotient : 0 ≤ expected / actual := div_nonneg hexpected hactual.le
    constructor
    · intro h
      have hmin : P (d * min limit (expected / actual)) :=
        hmono _ _ (mul_nonneg hd (le_min hpos.le hquotient))
          (mul_le_mul_of_nonneg_left (le_max_right _ _) hd) h
      rcases min_choice limit (expected / actual) with heq | heq
      · exact .inl (heq ▸ hmin)
      · exact .inr (heq ▸ hmin)
    · intro h
      have hmin : P (d * min limit (expected / actual)) := by
        rcases h with h | h
        · exact hmono _ _ (mul_nonneg hd (le_min hpos.le hquotient))
            (mul_le_mul_of_nonneg_left (min_le_left _ _) hd) h
        · exact hmono _ _ (mul_nonneg hd (le_min hpos.le hquotient))
            (mul_le_mul_of_nonneg_left (min_le_right _ _) hd) h
      rcases max_choice limit⁻¹ (min limit (expected / actual)) with heq | heq
      · rw [heq]
        exact hinverse
      · rw [heq]
        exact hmin

end ClampedRatio
