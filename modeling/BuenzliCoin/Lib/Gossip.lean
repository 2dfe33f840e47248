-- SUMMARY: Replicas that take over values of higher rank from each other: what spreads, and when they agree.
import Mathlib

/-!
# Gossip

Every party holds a value. It may move on to a value of higher rank on its own,
and may offer its value to the others. An offer stays around, and reaches anyone,
at any time and any number of times; who is offered a value of higher rank than
his own takes it over.

`informed` follows what has been offered to whom, from a party on: by itself, or by
way of others that were informed before they made their offers.
-/

namespace Gossip

variable {ι α κ : Type*}

structure System (ι α : Type*) where
  replicas : ι → α
  offers : List α

inductive Event (ι : Type*) where
  | idle
  | own (i : ι)
  | offer (i : ι)
  /-- The offer with number `k` reaches `i`. -/
  | deliver (k : ℕ) (i : ι)

variable [DecidableEq ι]

def System.set (s : System ι α) (i : ι) (x : α) : System ι α :=
  { s with replicas := Function.update s.replicas i x }

theorem System.set_replicas (s : System ι α) (i j : ι) (x : α) :
    (s.set i x).replicas j = if j = i then x else s.replicas j :=
  Function.update_apply ..

@[simp] theorem System.set_self (s : System ι α) (i : ι) : s.set i (s.replicas i) = s := by
  rw [System.set, Function.update_eq_self]

variable [LinearOrder κ]

inductive Step (rank : α → κ) (s : System ι α) : Event ι → System ι α → Prop where
  | idle : Step rank s .idle s
  | keep (i : ι) : Step rank s (.own i) s
  | rise {i : ι} {x : α} (higher : rank (s.replicas i) < rank x) : Step rank s (.own i) (s.set i x)
  | offer (i : ι) : Step rank s (.offer i) { s with offers := s.offers ++ [s.replicas i] }
  | take {k : ℕ} {i : ι} {x : α} (offered : s.offers[k]? = some x)
      (higher : rank (s.replicas i) < rank x) : Step rank s (.deliver k i) (s.set i x)
  | pass {k : ℕ} {i : ι} {x : α} (offered : s.offers[k]? = some x)
      (low : rank x ≤ rank (s.replicas i)) : Step rank s (.deliver k i) s

inductive Run (rank : α → κ) : System ι α → List (Event ι) → System ι α → Prop where
  | nil (s : System ι α) : Run rank s [] s
  | cons {s s' s'' : System ι α} {e : Event ι} {es : List (Event ι)} (first : Step rank s e s')
      (rest : Run rank s' es s'') : Run rank s (e :: es) s''

-- ---------------------------------------------------------------------------
-- Who is informed
-- ---------------------------------------------------------------------------

/-- Which parties are informed, and which offers were made by such. -/
structure Knowledge (ι : Type*) where
  parties : ι → Bool
  offers : List Bool

namespace Knowledge

/-- Only `m` is informed, and the offers so far do not count. -/
def start (m : ι) (offers : ℕ) : Knowledge ι where
  parties i := i = m
  offers := List.replicate offers false

def after (known : Knowledge ι) : Event ι → Knowledge ι
  | .idle | .own _ => known
  | .offer i => { known with offers := known.offers ++ [known.parties i] }
  | .deliver k i =>
    if known.offers[k]? = some true then
      { known with parties := Function.update known.parties i true }
    else known

end Knowledge

/-- Whether `i` is informed of what `m` held when so many offers had been made. -/
def informed (m : ι) (offers : ℕ) (events : List (Event ι)) (i : ι) : Bool :=
  (events.foldl Knowledge.after (.start m offers)).parties i

/-- Who is informed, and what they have offered, does not fall short of the rank. -/
structure Sound (rank : α → κ) (least : κ) (known : Knowledge ι) (s : System ι α) : Prop where
  length : known.offers.length = s.offers.length
  parties : ∀ i, known.parties i → least ≤ rank (s.replicas i)
  offers : ∀ (k : ℕ) (x : α), known.offers[k]? = some true → s.offers[k]? = some x →
    least ≤ rank x

variable {rank : α → κ} {least : κ} {known : Knowledge ι} {s s' : System ι α}

theorem sound_start (m : ι) (s : System ι α) :
    Sound rank (rank (s.replicas m)) (.start m s.offers.length) s where
  length := List.length_replicate
  parties i hi := by
    obtain rfl : i = m := of_decide_eq_true hi
    exact le_rfl
  offers k x hk _ := by
    obtain ⟨-, hfalse⟩ := List.mem_replicate.mp (List.mem_of_getElem? hk)
    cases hfalse

/-- A value of no lower rank may take the place of another. -/
theorem Sound.set (h : Sound rank least known s) {i : ι} {x : α}
    (hx : rank (s.replicas i) ≤ rank x) : Sound rank least known (s.set i x) where
  length := h.length
  parties j hj := by
    rw [System.set_replicas]
    split_ifs with hji
    · exact (h.parties i (hji ▸ hj)).trans hx
    · exact h.parties j hj
  offers := h.offers

/-- A party has got to know of an offer. -/
theorem Sound.deliver (h : Sound rank least known s) {k : ℕ} {i : ι} {x : α}
    (hoffered : s.offers[k]? = some x) (hx : rank x ≤ rank (s.replicas i)) :
    Sound rank least (known.after (.deliver k i)) s := by
  unfold Knowledge.after
  dsimp only
  split_ifs with hknown
  · refine ⟨h.length, fun j hj => ?_, h.offers⟩
    simp only [Function.update_apply] at hj
    split_ifs at hj with hji
    · rw [hji]
      exact (h.offers k x hknown hoffered).trans hx
    · exact h.parties j hj
  · exact h

theorem Sound.step {e : Event ι} (h : Sound rank least known s) (hstep : Step rank s e s') :
    Sound rank least (known.after e) s' := by
  cases hstep with
  | idle => exact h
  | keep i => exact h
  | rise higher => exact h.set higher.le
  | offer i =>
    refine ⟨?_, h.parties, fun k x hk hx => ?_⟩
    · simp only [Knowledge.after, List.length_append, List.length_singleton, h.length]
    · simp only [Knowledge.after] at hk
      rw [List.getElem?_append] at hk hx
      rw [h.length] at hk
      split_ifs at hk hx with hlt
      · exact h.offers k x hk hx
      · obtain ⟨hzero, hi⟩ := List.getElem?_eq_some_iff.mp hk
        obtain ⟨-, rfl⟩ := List.getElem?_eq_some_iff.mp hx
        simp only [List.getElem_singleton] at hi ⊢
        exact h.parties i hi
  | @take k i x offered higher =>
    refine (h.set higher.le).deliver offered ?_
    rw [System.set_replicas, if_pos rfl]
  | pass offered low => exact h.deliver offered low

theorem Sound.run {events : List (Event ι)} (h : Sound rank least known s)
    (hrun : Run rank s events s') :
    Sound rank least (events.foldl Knowledge.after known) s' := by
  induction hrun generalizing known with
  | nil s => exact h
  | cons first _ ih => exact ih (h.step first)

/-- Nobody who is informed of a value holds one of lower rank. -/
theorem Run.rank_le {events : List (Event ι)} (hrun : Run rank s events s') {m i : ι}
    (hi : informed m s.offers.length events i) : rank (s.replicas m) ≤ rank (s'.replicas i) :=
  ((sound_start m s).run hrun).parties i hi

-- ---------------------------------------------------------------------------
-- Agreement
-- ---------------------------------------------------------------------------

omit [DecidableEq ι] in
/-- Every offer is held by someone, who else holds a value of higher rank by now. -/
def Covered (rank : α → κ) (s : System ι α) : Prop :=
  ∀ x ∈ s.offers, ∃ i, x = s.replicas i ∨ rank x < rank (s.replicas i)

theorem Covered.set (h : Covered rank s) {i : ι} {x : α} (hx : rank (s.replicas i) < rank x) :
    Covered rank (s.set i x) := by
  intro y hy
  obtain ⟨j, hj⟩ := h y hy
  refine ⟨j, ?_⟩
  rw [System.set_replicas]
  split_ifs with hji
  · subst hji
    right
    obtain rfl | hlt := hj
    · exact hx
    · exact hlt.trans hx
  · exact hj

theorem Covered.step {e : Event ι} (h : Covered rank s) (hstep : Step rank s e s') :
    Covered rank s' := by
  cases hstep with
  | idle => exact h
  | keep i => exact h
  | rise higher => exact h.set higher
  | offer i =>
    intro x hx
    rcases List.mem_append.mp hx with hx | hx
    · exact h x hx
    · exact ⟨i, .inl (List.mem_singleton.mp hx)⟩
  | take offered higher => exact h.set higher
  | pass offered low => exact h

theorem Run.covered {events : List (Event ι)} (hrun : Run rank s events s')
    (h : Covered rank s) : Covered rank s' := by
  induction hrun with
  | nil s => exact h
  | cons first _ ih => exact ih (h.step first)

omit [DecidableEq ι] in
/-- Every value is one of those that `t` holds, or of lower rank than one of them. -/
def Below (rank : α → κ) (t s : System ι α) : Prop :=
  (∀ i, ∃ j, s.replicas i = t.replicas j ∨ rank (s.replicas i) < rank (t.replicas j)) ∧
  ∀ x ∈ s.offers, ∃ j, x = t.replicas j ∨ rank x < rank (t.replicas j)

omit [DecidableEq ι] in
theorem Covered.below (h : Covered rank s) : Below rank s s :=
  ⟨fun i => ⟨i, .inl rfl⟩, h⟩

/-- As long as no party moves on by itself, there are no new values. -/
theorem Below.step {t : System ι α} {e : Event ι} (h : Below rank t s)
    (hquiet : ∀ i, e ≠ .own i) (hstep : Step rank s e s') : Below rank t s' := by
  cases hstep with
  | idle => exact h
  | keep i => exact absurd rfl (hquiet i)
  | rise higher => exact absurd rfl (hquiet _)
  | offer i =>
    refine ⟨h.1, fun x hx => ?_⟩
    rcases List.mem_append.mp hx with hx | hx
    · exact h.2 x hx
    · rw [List.mem_singleton.mp hx]
      exact h.1 i
  | take offered higher =>
    refine ⟨fun j => ?_, h.2⟩
    rw [System.set_replicas]
    split_ifs
    · exact h.2 _ (List.mem_of_getElem? offered)
    · exact h.1 j
  | pass offered low => exact h

/-- A value of highest rank is kept. -/
theorem Below.kept {t : System ι α} {e : Event ι} (h : Below rank t s)
    (hquiet : ∀ i, e ≠ .own i) (hstep : Step rank s e s') {i : ι}
    (hi : ∀ j, rank (t.replicas j) ≤ rank (s.replicas i)) : s'.replicas i = s.replicas i := by
  cases hstep with
  | idle => rfl
  | keep j => exact absurd rfl (hquiet j)
  | rise higher => exact absurd rfl (hquiet _)
  | offer j => rfl
  | @take k j x offered higher =>
    rw [System.set_replicas]
    split_ifs with hij
    · subst hij
      obtain ⟨l, rfl | hl⟩ := h.2 x (List.mem_of_getElem? offered)
      · exact absurd higher (not_lt.mpr (hi l))
      · exact absurd (higher.trans hl) (not_lt.mpr (hi l))
    · rfl
  | pass offered low => rfl

theorem Below.run {t : System ι α} {events : List (Event ι)} (h : Below rank t s)
    (hquiet : ∀ i, .own i ∉ events) (hrun : Run rank s events s') :
    Below rank t s' ∧ ∀ i, (∀ j, rank (t.replicas j) ≤ rank (s.replicas i)) →
      s'.replicas i = s.replicas i := by
  induction hrun with
  | nil s => exact ⟨h, fun i _ => rfl⟩
  | @cons s s₁ s₂ e es first rest ih =>
    have hfirst : ∀ i, e ≠ .own i := by
      rintro i rfl
      exact hquiet i List.mem_cons_self
    obtain ⟨hbelow, hkept⟩ := ih (h.step hfirst first)
      fun i hi => hquiet i (List.mem_cons_of_mem e hi)
    refine ⟨hbelow, fun i hi => ?_⟩
    have hsame := h.kept hfirst first hi
    rw [hkept i (hsame ▸ hi), hsame]

end Gossip
