-- SUMMARY: Texts that can be told apart from whatever follows them.
import Mathlib.Data.List.Basic
import Mathlib.Data.List.TakeWhile

/-!
# Unique readability

An encoding writes values one after the other without saying where each ends.
A value is readable if no other value, followed by anything that may follow it,
gives the same text.
-/

namespace Readable

variable {α β γ : Type}

/-- Among the values of `A`, the value `a` and what follows it can be read off
    its text, if what follows each value is as `F` allows. -/
def ReadsBack (A : α → Prop) (F : α → List γ → Prop) (e : α → List γ) (a : α) : Prop :=
  ∀ a' s s', A a' → F a s → F a' s' → e a ++ s = e a' ++ s' → a = a' ∧ s = s'

variable {A : α → Prop} {F : α → List γ → Prop} {e : α → List γ} {a : α}

/-- An encoding that a reader undoes. -/
theorem readsBack_of_reader {read : List γ → Option (α × List γ)}
    (hread : ∀ a s, read (e a ++ s) = some (a, s)) (a : α) :
    ReadsBack (fun _ => True) (fun _ _ => True) e a := by
  intro a' s s' _ _ _ heq
  have h := hread a s
  rw [heq, hread a' s'] at h
  cases h
  exact ⟨rfl, rfl⟩

/-! ## Words -/

/-- Words over some letters end where the first other letter stands. -/
theorem append_inj_of_letters {p : γ → Bool} {w w' s s' : List γ} (hw : ∀ c ∈ w, p c)
    (hw' : ∀ c ∈ w', p c) (hs : ∀ c, s.head? = some c → ¬ p c)
    (hs' : ∀ c, s'.head? = some c → ¬ p c) (h : w ++ s = w' ++ s') : w = w' ∧ s = s' := by
  have hspan : ∀ {w s : List γ}, (∀ c ∈ w, p c) → (∀ c, s.head? = some c → ¬ p c) →
      (w ++ s).takeWhile p = w := by
    intro w s hw hs
    rw [List.takeWhile_append_of_pos hw]
    cases s with
    | nil => simp
    | cons c s => rw [List.takeWhile_cons_of_neg (hs c rfl), List.append_nil]
  have heq : w = w' := by
    rw [← hspan hw hs, h, hspan hw' hs']
  subst heq
  exact ⟨rfl, List.append_cancel_left h⟩

/-- Words whose widths are known pairwise end at the same places. -/
theorem flatMap_inj_of_widths {W : α → α → Prop}
    (hwidth : ∀ a a', W a a' → (e a).length = (e a').length) {as as' : List α}
    (h : List.Forall₂ W as as') {s s' : List γ} (heq : as.flatMap e ++ s = as'.flatMap e ++ s') :
    List.Forall₂ (fun a a' => W a a' ∧ e a = e a') as as' ∧ s = s' := by
  induction h with
  | nil => exact ⟨.nil, heq⟩
  | cons hhead _ ih =>
    simp only [List.flatMap_cons, List.append_assoc] at heq
    obtain ⟨hword, hrest⟩ := List.append_inj heq (hwidth _ _ hhead)
    obtain ⟨hwords, hend⟩ := ih hrest
    exact ⟨.cons ⟨hhead, hword⟩ hwords, hend⟩

/-! ## Pairs -/

/-- Two values one after the other. -/
theorem ReadsBack.pair {B : β → Prop} {G : β → List γ → Prop} {f : β → List γ} {b : β}
    (h : ReadsBack A F e a) (hf : ReadsBack B G f b) (hF : ∀ a b s, F a (f b ++ s)) :
    ReadsBack (fun p : α × β => A p.1 ∧ B p.2) (fun p => G p.2) (fun p => e p.1 ++ f p.2)
      (a, b) := by
  rintro ⟨a', b'⟩ s s' ⟨ha', hb'⟩ hs hs' heq
  simp only [List.append_assoc] at heq
  obtain ⟨rfl, hrest⟩ := h a' _ _ ha' (hF a b s) (hF a' b' s') heq
  obtain ⟨rfl, hend⟩ := hf b' s s' hb' hs hs' hrest
  exact ⟨rfl, hend⟩

/-! ## Lists -/

/-- A closing bracket follows. -/
def Closed (close : γ) (s : List γ) : Prop := ∃ r, s = close :: r

section

variable {sep close : γ}

private theorem follows_flatMap {a : α} (hF : ∀ b s, F a (e b ++ s)) (hF' : ∀ s, F a (close :: s))
    (as : List α) {s : List γ} (hs : Closed close s) : F a (as.flatMap e ++ s) := by
  obtain ⟨r, rfl⟩ := hs
  cases as with
  | nil => exact hF' r
  | cons b as =>
    rw [List.flatMap_cons, List.append_assoc]
    exact hF b _

/-- A list of items ends at its closing bracket if that starts no item. -/
theorem flatMap_readsBack (hF : ∀ a b s, F a (e b ++ s)) (hF' : ∀ a s, F a (close :: s))
    (hopen : ∀ a s r, A a → e a ++ s ≠ close :: r) {as : List α} (hA : ∀ a ∈ as, A a)
    (has : ∀ a ∈ as, ReadsBack A F e a) :
    ReadsBack (fun as => ∀ a ∈ as, A a) (fun _ => Closed close) (fun as => as.flatMap e) as := by
  induction as with
  | nil =>
    rintro as' s s' has' ⟨r, rfl⟩ hs' heq
    cases as' with
    | nil => exact ⟨rfl, heq⟩
    | cons a' as' =>
      simp only [List.flatMap_nil, List.nil_append, List.flatMap_cons, List.append_assoc] at heq
      exact absurd heq.symm (hopen a' _ r (has' a' (List.mem_cons_self ..)))
  | cons a as ih =>
    rintro as' s s' has' hs hs' heq
    cases as' with
    | nil =>
      obtain ⟨r, rfl⟩ := hs'
      simp only [List.flatMap_nil, List.nil_append, List.flatMap_cons, List.append_assoc] at heq
      exact absurd heq (hopen a _ r (hA a (List.mem_cons_self ..)))
    | cons a' as' =>
      simp only [List.flatMap_cons, List.append_assoc] at heq
      obtain ⟨rfl, hrest⟩ := has a (List.mem_cons_self ..) a' _ _ (has' a' (List.mem_cons_self ..))
        (follows_flatMap (hF a) (hF' a) as hs) (follows_flatMap (hF a') (hF' a') as' hs') heq
      obtain ⟨rfl, hend⟩ := ih (fun b hb => hA b (List.mem_cons_of_mem a hb))
        (fun b hb => has b (List.mem_cons_of_mem a hb)) as' s s'
        (fun b hb => has' b (List.mem_cons_of_mem a hb)) hs hs' hrest
      exact ⟨rfl, hend⟩

theorem ReadsBack.cons (h : ReadsBack A F e a) (c : γ) : ReadsBack A F (fun a => c :: e a) a := by
  intro a' s s' ha' hs hs' heq
  exact h a' s s' ha' hs hs' (List.cons_inj_right c |>.mp heq)

/-- A list with a separator between its items. -/
def separated (sep : γ) (e : α → List γ) : List α → List γ
  | [] => []
  | a :: as => e a ++ as.flatMap fun b => sep :: e b

theorem separated_readsBack (hsep : sep ≠ close) (hF : ∀ a s, F a (sep :: s))
    (hF' : ∀ a s, F a (close :: s)) (hopen : ∀ a s r, A a → e a ++ s ≠ close :: r) {as : List α}
    (hA : ∀ a ∈ as, A a) (has : ∀ a ∈ as, ReadsBack A F e a) :
    ReadsBack (fun as => ∀ a ∈ as, A a) (fun _ => Closed close) (separated sep e) as := by
  rintro as' s s' has' hs hs' heq
  cases as with
  | nil =>
    obtain ⟨r, rfl⟩ := hs
    cases as' with
    | nil => exact ⟨rfl, heq⟩
    | cons a' as' =>
      simp only [separated, List.nil_append, List.append_assoc] at heq
      exact absurd heq.symm (hopen a' _ _ (has' a' (List.mem_cons_self ..)))
  | cons a as =>
    cases as' with
    | nil =>
      obtain ⟨r, rfl⟩ := hs'
      simp only [separated, List.nil_append, List.append_assoc] at heq
      exact absurd heq (hopen a _ _ (hA a (List.mem_cons_self ..)))
    | cons a' as' =>
      have htail : ReadsBack (fun as => ∀ a ∈ as, A a) (fun _ => Closed close)
          (fun as => as.flatMap fun b => sep :: e b) as := by
        apply flatMap_readsBack (F := F) (fun a b s => hF a _) hF'
        · intro b s r _ heq
          exact hsep (List.cons.inj heq).1
        · exact fun b hb => hA b (List.mem_cons_of_mem a hb)
        · exact fun b hb => (has b (List.mem_cons_of_mem a hb)).cons sep
      simp only [separated, List.append_assoc] at heq
      obtain ⟨rfl, hrest⟩ := has a (List.mem_cons_self ..) a' _ _ (has' a' (List.mem_cons_self ..))
        (follows_flatMap (e := fun b => sep :: e b) (fun b s => hF a _) (hF' a) as hs)
        (follows_flatMap (e := fun b => sep :: e b) (fun b s => hF a' _) (hF' a') as' hs') heq
      obtain ⟨rfl, hend⟩ :=
        htail as' _ _ (fun b hb => has' b (List.mem_cons_of_mem a hb)) hs hs' hrest
      exact ⟨rfl, hend⟩

end

end Readable
