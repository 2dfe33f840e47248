-- SUMMARY: Taking computations in Except apart.

namespace Except

variable {ε α β : Type}

/-- A sequence returns if both of its parts do. -/
theorem bind_eq_ok_iff {x : Except ε α} {f : α → Except ε β} {b : β} :
    (x >>= f) = .ok b ↔ ∃ a, x = .ok a ∧ f a = .ok b := by
  cases x with
  | error e => simp [bind, Except.bind]
  | ok a => simp [bind, Except.bind]

theorem pure_eq_ok_iff {a b : α} : (pure a : Except ε α) = .ok b ↔ a = b := by
  simp [pure, Except.pure]

/-- Decoding the encodings of a list of values one by one gives what decoding
    each of them gives. -/
theorem mapM_map_eq_ok {γ : Type} {decode : β → Except ε γ} {encode : α → β} {f : α → γ}
    {as : List α} (h : ∀ a ∈ as, decode (encode a) = .ok (f a)) :
    (as.map encode).mapM decode = .ok (as.map f) := by
  induction as with
  | nil => rfl
  | cons a as ih =>
    have hhead := h a (List.mem_cons_self ..)
    have htail := ih fun a' ha' => h a' (List.mem_cons_of_mem _ ha')
    rw [List.map_cons, List.mapM_cons, hhead, htail]
    rfl

/-- What a traversal returns, it has got from some element. -/
theorem exists_of_mapM_eq_ok {f : α → Except ε β} {as : List α} {bs : List β} {b : β}
    (h : as.mapM f = .ok bs) (hb : b ∈ bs) : ∃ a ∈ as, f a = .ok b := by
  induction as generalizing bs with
  | nil =>
    cases h
    cases hb
  | cons a as ih =>
    rw [List.mapM_cons] at h
    obtain ⟨b', hhead, h⟩ := bind_eq_ok_iff.mp h
    obtain ⟨bs', htail, h⟩ := bind_eq_ok_iff.mp h
    cases pure_eq_ok_iff.mp h
    rcases List.mem_cons.mp hb with rfl | hb
    · exact ⟨a, List.mem_cons_self .., hhead⟩
    · obtain ⟨a', ha', hread⟩ := ih htail hb
      exact ⟨a', List.mem_cons_of_mem a ha', hread⟩

/-- A traversal that returns has got something from every element. -/
theorem forall_of_mapM_eq_ok {f : α → Except ε β} {as : List α} {bs : List β}
    (h : as.mapM f = .ok bs) : ∀ a ∈ as, ∃ b, f a = .ok b := by
  induction as generalizing bs with
  | nil => exact List.forall_mem_nil _
  | cons a as ih =>
    rw [List.mapM_cons] at h
    obtain ⟨b, hhead, h⟩ := bind_eq_ok_iff.mp h
    obtain ⟨bs', htail, -⟩ := bind_eq_ok_iff.mp h
    exact List.forall_mem_cons.mpr ⟨⟨b, hhead⟩, ih htail⟩

/-! ## Kinds of errors -/

/-- The computation fails with errors of one kind only, if it fails. -/
def OnlyFails (good : ε → Prop) (x : Except ε α) : Prop := ∀ e, x = .error e → good e

section

variable {good : ε → Prop}

@[simp] theorem onlyFails_ok (a : α) : (ok a : Except ε α).OnlyFails good := by
  intro e h
  cases h

@[simp] theorem onlyFails_error {e : ε} : (error e : Except ε α).OnlyFails good ↔ good e := by
  constructor
  · exact fun h => h e rfl
  · rintro h e' ⟨⟩
    exact h

@[simp] theorem onlyFails_pure (a : α) : (pure a : Except ε α).OnlyFails good := onlyFails_ok a

theorem OnlyFails.mono {better : ε → Prop} {x : Except ε α} (h : x.OnlyFails good)
    (himp : ∀ e, good e → better e) : x.OnlyFails better := fun e he => himp e (h e he)

/-- A sequence fails where one of its parts does. -/
theorem onlyFails_bind_iff {x : Except ε α} {f : α → Except ε β} :
    (x >>= f).OnlyFails good ↔ x.OnlyFails good ∧ ∀ a, x = .ok a → (f a).OnlyFails good := by
  cases x with
  | error e => simp [bind, Except.bind]
  | ok a => simp [bind, Except.bind]

@[simp] theorem onlyFails_map {f : α → β} {x : Except ε α} :
    (f <$> x).OnlyFails good ↔ x.OnlyFails good := by
  cases x <;> simp [Functor.map, Except.map]

theorem onlyFails_mapM {f : α → Except ε β} (h : ∀ a, (f a).OnlyFails good) (as : List α) :
    (as.mapM f).OnlyFails good := by
  induction as with
  | nil => exact onlyFails_pure _
  | cons a as ih =>
    rw [List.mapM_cons, onlyFails_bind_iff]
    refine ⟨h a, fun b _ => ?_⟩
    rw [onlyFails_bind_iff]
    exact ⟨ih, fun bs _ => onlyFails_pure _⟩

end

end Except
