-- SUMMARY: Runs of a partial step function, and rules for what holds in all of their states.
import Mathlib.Order.Defs.PartialOrder

/-!
# Runs

A machine takes inputs one after the other; a step need not return, and then it
is the last of its run. A run is given by its first state and its inputs.
-/

namespace Runs

variable {S I : Type} (step : S → I → Option S)

/-- `P` holds of the first state and of that after every step. -/
def EveryState (P : S → Prop) (s : S) : List I → Prop
  | [] => P s
  | i :: is => P s ∧ ∀ s', step s i = some s' → EveryState P s' is

/-- `Q` holds of the state and the input of every step that returns. -/
def EveryStep (Q : S → I → Prop) (s : S) : List I → Prop
  | [] => True
  | i :: is => ∀ s', step s i = some s' → Q s i ∧ EveryStep Q s' is

/-- The state that a run ends in, if all of its steps return. -/
def run (s : S) : List I → Option S
  | [] => some s
  | i :: is => (step s i).bind fun s' => run s' is

variable {step} {P P' : S → Prop} {Q Q' : S → I → Prop}

theorem run_cons {s s' : S} {i : I} {is : List I} (hstep : step s i = some s') :
    run step s (i :: is) = run step s' is := by
  rw [run, hstep, Option.bind_some]

/-- One more step at the end of a run. -/
theorem run_concat {s s' s'' : S} {i : I} {is : List I} (hrun : run step s is = some s')
    (hstep : step s' i = some s'') : run step s (is ++ [i]) = some s'' := by
  induction is generalizing s with
  | nil =>
    cases hrun
    simp only [List.nil_append, run, hstep, Option.bind_some]
  | cons j is ih =>
    obtain ⟨s₁, hfirst, hrest⟩ := Option.bind_eq_some_iff.mp hrun
    simp only [List.cons_append, run, hfirst, Option.bind_some]
    exact ih hrest

theorem EveryState.head {s : S} {is : List I} (h : EveryState step P s is) : P s := by
  cases is with
  | nil => exact h
  | cons i is => exact h.1

theorem EveryState.mono {s : S} {is : List I} (h : EveryState step P s is)
    (himp : ∀ s, P s → P' s) : EveryState step P' s is := by
  induction is generalizing s with
  | nil => exact himp s h
  | cons i is ih => exact ⟨himp s h.1, fun s' hs' => ih (h.2 s' hs')⟩

theorem EveryStep.mono {s : S} {is : List I} (h : EveryStep step Q s is)
    (himp : ∀ s i, Q s i → Q' s i) : EveryStep step Q' s is := by
  induction is generalizing s with
  | nil => exact trivial
  | cons i is ih =>
    intro s' hs'
    obtain ⟨hq, hrest⟩ := h s' hs'
    exact ⟨himp s i hq, ih hrest⟩

/-- A run whose first step is known. -/
theorem EveryStep.cons {s s' : S} {i : I} {is : List I} (hstep : step s i = some s') (hq : Q s i)
    (h : EveryStep step Q s' is) : EveryStep step Q s (i :: is) := by
  intro s'' hs''
  rw [hstep] at hs''
  cases hs''
  exact ⟨hq, h⟩

theorem everyStep_cons_iff {s s' : S} {i : I} {is : List I} (hstep : step s i = some s') :
    EveryStep step Q s (i :: is) ↔ Q s i ∧ EveryStep step Q s' is :=
  ⟨fun h => h s' hstep, fun h => .cons hstep h.1 h.2⟩

/-- The invariant rule: what the steps with `Q` keep holds throughout a run all
    of whose steps have `Q`. -/
theorem EveryStep.everyState (hstep : ∀ s i s', P s → Q s i → step s i = some s' → P s') {s : S}
    {is : List I} (hs : P s) (h : EveryStep step Q s is) : EveryState step P s is := by
  induction is generalizing s with
  | nil => exact hs
  | cons i is ih =>
    refine ⟨hs, fun s' hs' => ?_⟩
    obtain ⟨hq, hrest⟩ := h s' hs'
    exact ih (hstep s i s' hs hq hs') hrest

/-- What all steps keep holds throughout every run. -/
theorem EveryState.of_invariant (hkeep : ∀ s i s', P s → step s i = some s' → P s') {s : S}
    {is : List I} (hs : P s) : EveryState step P s is := by
  induction is generalizing s with
  | nil => exact hs
  | cons i is ih => exact ⟨hs, fun s' hs' => ih (hkeep s i s' hs hs')⟩

/-- If, where all steps keep `J`, exactly the steps with `Q` keep `P`, then `P`
    holds throughout exactly the runs all of whose steps have `Q`. -/
theorem everyState_iff_everyStep_of_invariant {J : S → Prop}
    (hinvariant : ∀ s i s', J s → step s i = some s' → J s')
    (hstep : ∀ s i s', J s → P s → step s i = some s' → (P s' ↔ Q s i)) {s : S} {is : List I}
    (hj : J s) (hs : P s) : EveryState step P s is ↔ EveryStep step Q s is := by
  induction is generalizing s with
  | nil => exact ⟨fun _ => trivial, fun _ => hs⟩
  | cons i is ih =>
    constructor
    · intro h s' hs'
      have hrest := h.2 s' hs'
      exact ⟨(hstep s i s' hj hs hs').mp hrest.head,
        (ih (hinvariant s i s' hj hs') hrest.head).mp hrest⟩
    · intro h
      refine ⟨hs, fun s' hs' => ?_⟩
      obtain ⟨hq, hrest⟩ := h s' hs'
      exact (ih (hinvariant s i s' hj hs') ((hstep s i s' hj hs hs').mpr hq)).mpr hrest

theorem everyState_iff_everyStep
    (hstep : ∀ s i s', P s → step s i = some s' → (P s' ↔ Q s i)) {s : S} {is : List I} (hs : P s) :
    EveryState step P s is ↔ EveryStep step Q s is :=
  everyState_iff_everyStep_of_invariant (J := fun _ => True) (fun _ _ _ _ _ => trivial)
    (fun s i s' _ hs hs' => hstep s i s' hs hs') trivial hs

/-- The rule with a stronger invariant: `J` gives `P`, the steps with `Q` keep `J`, and
    from `J` a step that keeps `P` must have `Q`. -/
theorem everyState_iff_everyStep_of_strengthening {J : S → Prop} (himp : ∀ s, J s → P s)
    (hkeep : ∀ s i s', J s → step s i = some s' → Q s i → J s')
    (hneeds : ∀ s i s', J s → step s i = some s' → P s' → Q s i) {s : S} {is : List I}
    (hj : J s) : EveryState step P s is ↔ EveryStep step Q s is := by
  constructor
  · intro h
    induction is generalizing s with
    | nil => exact trivial
    | cons i is ih =>
      intro s' hs'
      have hrest := h.2 s' hs'
      have hq := hneeds s i s' hj hs' hrest.head
      exact ⟨hq, ih (hkeep s i s' hj hs' hq) hrest⟩
  · intro h
    exact (h.everyState (fun s i s' hj hq hs' => hkeep s i s' hj hs' hq) hj).mono himp

/-- Where all steps return, a condition on the inputs only is one on all of them. -/
theorem everyStep_iff_forall_mem {Q : I → Prop} (htotal : ∀ s i, ∃ s', step s i = some s') {s : S}
    {is : List I} : EveryStep step (fun _ => Q) s is ↔ ∀ i ∈ is, Q i := by
  induction is generalizing s with
  | nil => exact ⟨fun _ => List.forall_mem_nil _, fun _ => trivial⟩
  | cons i is ih =>
    rw [List.forall_mem_cons]
    constructor
    · intro h
      obtain ⟨s', hs'⟩ := htotal s i
      obtain ⟨hq, hrest⟩ := h s' hs'
      exact ⟨hq, ih.mp hrest⟩
    · rintro ⟨hq, hrest⟩ s' _
      exact ⟨hq, ih.mpr hrest⟩

/-- The rest of a run, from the state that its first part ends in. -/
theorem EveryState.after {s s' : S} {is js : List I} (h : EveryState step P s (is ++ js))
    (hrun : run step s is = some s') : EveryState step P s' js := by
  induction is generalizing s with
  | nil =>
    cases hrun
    exact h
  | cons i is ih =>
    obtain ⟨s₁, hstep, hrun⟩ := Option.bind_eq_some_iff.mp hrun
    exact ih (h.2 s₁ hstep) hrun

/-- What holds throughout a run holds in the end. -/
theorem EveryState.last {s s' : S} {is : List I} (h : EveryState step P s is)
    (hrun : run step s is = some s') : P s' := by
  rw [← List.append_nil is] at h
  exact h.after hrun

theorem run_append {s : S} {is js : List I} :
    run step s (is ++ js) = (run step s is).bind fun s' => run step s' js := by
  induction is generalizing s with
  | nil => rfl
  | cons i is ih =>
    simp only [List.cons_append, run]
    cases step s i with
    | none => rfl
    | some s₁ => exact ih

/-- What holds in every state holds at first and wherever a first part of the run ends. -/
theorem everyState_iff_forall_take {s : S} {is : List I} :
    EveryState step P s is ↔
      P s ∧ ∀ k < is.length, ∀ s', run step s (is.take (k + 1)) = some s' → P s' := by
  constructor
  · intro h
    refine ⟨h.head, fun k _ s' hrun => ?_⟩
    rw [← List.take_append_drop (k + 1) is] at h
    exact (h.after hrun).head
  · rintro ⟨hs, h⟩
    induction is generalizing s with
    | nil => exact hs
    | cons i is ih =>
      refine ⟨hs, fun s₁ hs₁ => ?_⟩
      have hrun : ∀ k, run step s ((i :: is).take (k + 1)) = run step s₁ (is.take k) := by
        intro k
        rw [List.take_succ_cons, run, hs₁, Option.bind_some]
      refine ih (h 0 (Nat.succ_pos _) s₁ (hrun 0)) fun k hk s' hs' => ?_
      exact h (k + 1) (Nat.succ_lt_succ hk) s' ((hrun (k + 1)).trans hs')

/-- What the steps do to the states with `P`, if `P` is kept and it can be done in
    turn. -/
theorem rel_of_run {R : S → S → Prop} (hrefl : ∀ s, R s s)
    (htrans : ∀ {s s' s''}, R s s' → R s' s'' → R s s'')
    (hkeep : ∀ s i s', P s → step s i = some s' → P s')
    (hstep : ∀ s i s', P s → step s i = some s' → R s s') {s s' : S} {is : List I} (hs : P s)
    (hrun : run step s is = some s') : P s' ∧ R s s' := by
  induction is generalizing s with
  | nil =>
    cases hrun
    exact ⟨hs, hrefl _⟩
  | cons i is ih =>
    obtain ⟨s₁, hfirst, hrun⟩ := Option.bind_eq_some_iff.mp hrun
    obtain ⟨hlast, hrest⟩ := ih (hkeep s i s₁ hs hfirst) hrun
    exact ⟨hlast, htrans (hstep s i s₁ hs hfirst) hrest⟩

/-! ## Logs that grow or are outbid -/

section

variable {B K : Type} [Preorder K] (log : S → List B) (key : S → K)

/-- The log has grown, or it has given way to one with a higher key. -/
def Advances (s s' : S) : Prop := key s < key s' ∨ key s ≤ key s' ∧ log s <+: log s'

variable {log key}

theorem Advances.refl (s : S) : Advances log key s s :=
  .inr ⟨le_refl _, List.prefix_refl _⟩

theorem Advances.key_le {s s' : S} (h : Advances log key s s') : key s ≤ key s' := by
  obtain h | ⟨h, -⟩ := h
  · exact le_of_lt h
  · exact h

theorem Advances.trans {s s' s'' : S} (h : Advances log key s s') (h' : Advances log key s' s'') :
    Advances log key s s'' := by
  obtain hlt | ⟨hle, hlog⟩ := h
  · exact .inl (lt_of_lt_of_le hlt h'.key_le)
  · obtain hlt' | ⟨hle', hlog'⟩ := h'
    · exact .inl (lt_of_le_of_lt hle hlt')
    · exact .inr ⟨le_trans hle hle', hlog.trans hlog'⟩

/-- What is seen of the entries of the log advances with it. -/
theorem Advances.map_log {C : Type} (f : B → C) {s s' : S} (h : Advances log key s s') :
    Advances (fun s => (log s).map f) key s s' :=
  h.imp_right fun ⟨hle, hlog⟩ => ⟨hle, hlog.map f⟩

/-- A log that is back, with the key that it had, was never gone. -/
theorem Advances.log_eq {s s' s'' : S} (h : Advances log key s s') (h' : Advances log key s' s'')
    (hkey : key s'' = key s) (hlog : log s'' = log s) : log s' = log s := by
  have hle := h.key_le
  have hle' := h'.key_le
  rw [hkey] at hle'
  obtain hlt | ⟨-, hgrown⟩ := h
  · exact absurd (lt_of_lt_of_le hlt hle') (lt_irrefl _)
  · obtain hlt | ⟨-, hlater⟩ := h'
    · rw [hkey] at hlt
      exact absurd (lt_of_le_of_lt hle hlt) (lt_irrefl _)
    · rw [hlog] at hlater
      exact hlater.eq_of_length_le hgrown.length_le

end

end Runs
