-- SUMMARY: Loops that erase elements from the linked list they iterate over.
import Mathlib.Data.List.Chain
import Mathlib.Data.List.Basic

/-!
# Erasing while iterating

`for (it = begin; it != end; ++it)` over a doubly linked list, where the body
may do `it = erase(it)` any number of times. After an erase the iterator stands
on the next element, and the increment steps over it unexamined. `checkedLoop`
is undefined where the loop increments the end iterator or its body is
undefined. `eraseLoop` is defined everywhere, and agrees with it where that is
defined.
-/

namespace EraseLoop

variable {α : Type*}

/-- The loop on what is left of the list, which ends where the list does.
    `pending = none` says that the body is about to examine the next element;
    `pending = some k` that it has started to erase, with `k` more elements to go
    before the increment. -/
def loop (count : α → Nat) : Option Nat → List α → List α
  | _, [] => []
  | none, x :: xs =>
    match count x with
    | 0 => x :: loop count none xs
    | k + 1 => loop count (some k) xs
  | some (k + 1), _ :: xs => loop count (some k) xs
  | some 0, x :: xs => x :: loop count none xs

/-- The loop whose body, when it examines `x`, erases `count x` elements from
    `x` on. -/
def eraseLoop (count : α → Nat) (xs : List α) : List α := loop count none xs

/-- The loop whose body is `if (p(*it)) it = erase(it);`. -/
def eraseIf (p : α → Bool) (xs : List α) : List α := eraseLoop (fun x => (p x).toNat) xs

@[simp] theorem eraseLoop_nil (count : α → Nat) : eraseLoop count [] = [] := rfl

@[simp] theorem eraseIf_nil (p : α → Bool) : eraseIf p [] = [] := rfl

theorem loop_sublist (count : α → Nat) (pending : Option Nat) (xs : List α) :
    (loop count pending xs).Sublist xs := by
  induction xs generalizing pending with
  | nil => simp [loop]
  | cons x xs ih =>
    match pending with
    | none =>
      simp only [loop]
      split
      · exact (ih none).cons_cons x
      · exact (ih _).cons x
    | some 0 => exact (ih none).cons_cons x
    | some (k + 1) => exact (ih (some k)).cons x

theorem eraseLoop_sublist (count : α → Nat) (xs : List α) : (eraseLoop count xs).Sublist xs :=
  loop_sublist count none xs

theorem eraseIf_sublist (p : α → Bool) (xs : List α) : (eraseIf p xs).Sublist xs :=
  loop_sublist _ none xs

theorem eraseIf_cons_of_not {p : α → Bool} {x : α} (h : p x = false) (xs : List α) :
    eraseIf p (x :: xs) = x :: eraseIf p xs := by
  simp [eraseIf, eraseLoop, loop, h]

theorem eraseIf_singleton_of_pos {p : α → Bool} {x : α} (h : p x = true) : eraseIf p [x] = [] := by
  simp [eraseIf, eraseLoop, loop, h]

theorem eraseIf_cons_cons_of_pos {p : α → Bool} {x : α} (h : p x = true) (y : α) (xs : List α) :
    eraseIf p (x :: y :: xs) = y :: eraseIf p xs := by
  simp [eraseIf, eraseLoop, loop, h]

/-- Only elements that satisfy the test are erased. -/
theorem mem_eraseIf_of_not {p : α → Bool} {x : α} {xs : List α} (hx : x ∈ xs) (h : p x = false) :
    x ∈ eraseIf p xs := by
  induction xs using List.twoStepInduction with
  | nil => cases hx
  | singleton y =>
    obtain rfl := List.mem_singleton.mp hx
    simp [eraseIf_cons_of_not h]
  | cons_cons y z xs ih ih' =>
    cases hy : p y with
    | false =>
      rw [eraseIf_cons_of_not hy]
      rcases List.mem_cons.mp hx with rfl | hx
      · exact List.mem_cons_self ..
      · exact List.mem_cons_of_mem _ (ih' _ hx)
    | true =>
      rw [eraseIf_cons_cons_of_pos hy]
      rcases List.mem_cons.mp hx with rfl | hx
      · simp [hy] at h
      rcases List.mem_cons.mp hx with rfl | hx
      · exact List.mem_cons_self ..
      · exact List.mem_cons_of_mem _ (ih hx)

/-- Where no two adjacent elements satisfy the test, stepping over the element
    after an erased one does no harm: the loop is a filter. -/
theorem eraseIf_eq_filter {p : α → Bool} {xs : List α}
    (h : xs.IsChain fun x y => ¬ (p x ∧ p y)) : eraseIf p xs = xs.filter fun x => !p x := by
  induction xs using List.twoStepInduction with
  | nil => rfl
  | singleton x => cases hx : p x <;> simp [eraseIf_cons_of_not, eraseIf_singleton_of_pos, hx]
  | cons_cons x y xs ih ih' =>
    have hxy := (List.isChain_cons_cons.mp h).1
    have htail := (List.isChain_cons_cons.mp h).2
    cases hx : p x with
    | false =>
      rw [eraseIf_cons_of_not hx, ih' _ htail]
      simp [hx]
    | true =>
      have hy : p y = false := by simpa [hx] using hxy
      rw [eraseIf_cons_cons_of_pos hx, ih htail.tail]
      simp [hx, hy]

/-- In particular where at most one element satisfies the test. -/
theorem eraseIf_eq_filter_of_pairwise {p : α → Bool} {xs : List α}
    (h : xs.Pairwise fun x y => ¬ (p x ∧ p y)) : eraseIf p xs = xs.filter fun x => !p x :=
  eraseIf_eq_filter h.isChain

/-! ## Checked loops -/

/-- The loop on an input on which it must not go wrong. The body tells whether it
    erases the element that it examines, or is itself undefined; an increment of
    the end iterator, which is where the iterator stands when the last element
    has been erased, makes the loop undefined. -/
def checkedLoop (body : α → Option Bool) : List α → Option (List α)
  | [] => some []
  | x :: xs =>
    match body x with
    | none => none
    | some false => (checkedLoop body xs).map (x :: ·)
    | some true =>
      match xs with
      | [] => none
      | y :: ys => (checkedLoop body ys).map (y :: ·)

variable {body : α → Option Bool} {x y : α} {xs ys : List α}

@[simp] theorem checkedLoop_nil (body : α → Option Bool) : checkedLoop body [] = some [] := by
  simp only [checkedLoop]

theorem checkedLoop_cons_of_kept (h : body x = some false) :
    checkedLoop body (x :: xs) = (checkedLoop body xs).map (x :: ·) := by
  cases xs <;> simp [checkedLoop, h]

theorem checkedLoop_cons_of_undefined (h : body x = none) : checkedLoop body (x :: xs) = none := by
  cases xs <;> simp only [checkedLoop, h]

theorem checkedLoop_singleton_of_erased (h : body x = some true) : checkedLoop body [x] = none := by
  simp only [checkedLoop, h]

theorem checkedLoop_cons_cons_of_erased (h : body x = some true) :
    checkedLoop body (x :: y :: xs) = (checkedLoop body xs).map (y :: ·) := by
  simp only [checkedLoop, h]

/-- As the element after an erased one stays, a checked loop empties no list. -/
theorem checkedLoop_eq_nil_iff : checkedLoop body xs = some [] ↔ xs = [] := by
  constructor
  · intro h
    cases xs with
    | nil => rfl
    | cons x xs =>
      cases hx : body x with
      | none => simp [checkedLoop_cons_of_undefined hx] at h
      | some erased =>
        cases erased with
        | false => simp [checkedLoop_cons_of_kept hx] at h
        | true =>
          cases xs with
          | nil => simp [checkedLoop_singleton_of_erased hx] at h
          | cons y xs => simp [checkedLoop_cons_cons_of_erased hx] at h
  · rintro rfl
    exact checkedLoop_nil body

/-- Where it is defined, the checked loop does what the loop does. -/
theorem eraseLoop_of_checkedLoop {count : α → Nat}
    (hcount : ∀ x erased, body x = some erased → count x = erased.toNat)
    (h : checkedLoop body xs = some ys) : eraseLoop count xs = ys := by
  induction xs using List.twoStepInduction generalizing ys with
  | nil =>
    cases h
    rfl
  | singleton x =>
    cases hx : body x with
    | none => simp [checkedLoop_cons_of_undefined hx] at h
    | some erased =>
      cases erased with
      | true => simp [checkedLoop_singleton_of_erased hx] at h
      | false =>
        rw [checkedLoop_cons_of_kept hx] at h
        cases h
        simp [eraseLoop, loop, hcount x false hx]
  | cons_cons x y xs ih ih' =>
    cases hx : body x with
    | none => simp [checkedLoop_cons_of_undefined hx] at h
    | some erased =>
      cases erased with
      | true =>
        rw [checkedLoop_cons_cons_of_erased hx] at h
        obtain ⟨zs, hzs, rfl⟩ := Option.map_eq_some_iff.mp h
        simp only [eraseLoop, loop, hcount x true hx]
        exact congrArg _ (ih hzs)
      | false =>
        rw [checkedLoop_cons_of_kept hx] at h
        obtain ⟨zs, hzs, rfl⟩ := Option.map_eq_some_iff.mp h
        simp only [eraseLoop, loop, hcount x false hx]
        exact congrArg _ (ih' y hzs)

/-- Exactly when the checked loop is defined and filters the list: no two adjacent
    elements are to be erased, nor is the last one, and the body is defined where
    it erases. -/
theorem checkedLoop_eq_filter_iff {p : α → Bool} (hkept : ∀ x, body x = some false ↔ p x = false) :
    checkedLoop body xs = some (xs.filter fun x => !p x) ↔
      xs.IsChain (fun x y => ¬ (p x ∧ p y)) ∧ (∀ x ∈ xs.getLast?, p x = false) ∧
      ∀ x ∈ xs, p x → body x = some true := by
  have hkeep : ∀ {x}, p x = false → body x = some false := fun {x} => (hkept x).mpr
  have hgone : ∀ {x}, p x = true → body x = some true ∨ body x = none := by
    intro x hx
    cases hbody : body x with
    | none => exact .inr rfl
    | some erased =>
      cases erased with
      | true => exact .inl rfl
      | false => simp [(hkept x).mp hbody] at hx
  induction xs using List.twoStepInduction with
  | nil => simp
  | singleton x =>
    cases hx : p x with
    | false => simp [checkedLoop_cons_of_kept (hkeep hx), hx]
    | true =>
      rcases hgone hx with hbody | hbody
      · simp [checkedLoop_singleton_of_erased hbody, hx]
      · simp [checkedLoop_cons_of_undefined hbody, hx]
  | cons_cons x y xs ih ih' =>
    rw [List.isChain_cons_cons, List.getLast?_cons_cons, List.forall_mem_cons]
    cases hx : p x with
    | false =>
      rw [checkedLoop_cons_of_kept (hkeep hx), List.filter_cons_of_pos (by simp [hx]),
        Option.map_eq_some_iff]
      simp only [List.cons.injEq, true_and, exists_eq_right, ih' y]
      simp
    | true =>
      rcases hgone hx with hbody | hbody
      · rw [checkedLoop_cons_cons_of_erased hbody, List.filter_cons_of_neg (by simp [hx])]
        cases hy : p y with
        | true =>
          -- The element that the loop steps over should have gone as well.
          simp only [and_self, not_true_eq_false, false_and, iff_false]
          intro h
          obtain ⟨zs, -, hzs⟩ := Option.map_eq_some_iff.mp h
          have hmem : y ∈ (y :: xs).filter fun x => !p x := hzs ▸ List.mem_cons_self ..
          simp [hy] at hmem
        | false =>
          rw [List.filter_cons_of_pos (by simp [hy]), Option.map_eq_some_iff]
          simp only [List.cons.injEq, true_and, exists_eq_right, ih]
          cases xs with
          | nil => simp [hbody, hy]
          | cons z xs => simp [hbody, hy, List.isChain_cons_cons, List.getLast?_cons_cons]
      · simp [checkedLoop_cons_of_undefined hbody, hbody]

end EraseLoop
