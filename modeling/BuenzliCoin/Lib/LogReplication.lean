-- SUMMARY: Replication of a log with one writer, over a medium that may reorder, repeat and lose messages.
import Mathlib.Data.List.Infix
import Mathlib.Data.Set.Insert
import Mathlib.Logic.Function.Basic
import Mathlib.Logic.Relation

/-!
# Single-writer log replication

Every party holds a replica of a log. One party appends entries of its own; all
others only take over what they receive. A party may publish any of its entries
with its position, or its whole replica; a published message stays in the
medium, which may deliver it to anyone, at any time and any number of times. A
party appends an entry whose position is the length of its replica, and takes
over a replica that is longer than its own.
-/

namespace LogReplication

variable {ι α : Type*}

structure System (ι α : Type*) where
  replicas : ι → List α
  /-- Published entries, with their positions. -/
  entries : Set (ℕ × α)
  /-- Published replicas. -/
  snapshots : Set (List α)

/-- Nothing is written or published yet. -/
def System.empty : System ι α where
  replicas _ := []
  entries := ∅
  snapshots := ∅

variable [DecidableEq ι]

/-- Give party `i` another replica. -/
def System.set (s : System ι α) (i : ι) (log : List α) : System ι α :=
  { s with replicas := Function.update s.replicas i log }

@[simp] theorem System.set_replicas_self (s : System ι α) (i : ι) (log : List α) :
    (s.set i log).replicas i = log := Function.update_self ..

theorem System.set_replicas_of_ne (s : System ι α) {i j : ι} (h : j ≠ i) (log : List α) :
    (s.set i log).replicas j = s.replicas j := Function.update_of_ne h ..

@[simp] theorem System.set_self (s : System ι α) (i : ι) : s.set i (s.replicas i) = s := by
  rw [System.set, Function.update_eq_self]

/-- The steps of a system in which `w` is the writer. -/
inductive Step (w : ι) (s : System ι α) : System ι α → Prop where
  | write (x : α) : Step w s (s.set w (s.replicas w ++ [x]))
  | publishEntry {i : ι} {k : ℕ} {x : α} (entry : (s.replicas i)[k]? = some x) :
      Step w s { s with entries := insert (k, x) s.entries }
  | publishSnapshot (i : ι) : Step w s { s with snapshots := insert (s.replicas i) s.snapshots }
  | append {i : ι} {x : α} (published : ((s.replicas i).length, x) ∈ s.entries) :
      Step w s (s.set i (s.replicas i ++ [x]))
  | adopt {i : ι} {log : List α} (published : log ∈ s.snapshots)
      (longer : (s.replicas i).length < log.length) : Step w s (s.set i log)

/-- Everything that is held or published agrees with the writer. -/
structure Consistent (w : ι) (s : System ι α) : Prop where
  replicas : ∀ i, s.replicas i <+: s.replicas w
  entries : ∀ k x, (k, x) ∈ s.entries → (s.replicas w)[k]? = some x
  snapshots : ∀ log ∈ s.snapshots, log <+: s.replicas w

omit [DecidableEq ι] in
theorem consistent_empty (w : ι) : Consistent w (System.empty : System ι α) where
  replicas _ := List.prefix_refl []
  entries _ _ h := absurd h (Set.notMem_empty _)
  snapshots _ h := absurd h (Set.notMem_empty _)

/-- A replica other than the writer's may change to any prefix of the writer's. -/
theorem Consistent.set {w i : ι} {s : System ι α} (h : Consistent w s) (hi : i ≠ w) {log : List α}
    (hlog : log <+: s.replicas w) : Consistent w (s.set i log) := by
  have hw := s.set_replicas_of_ne hi.symm log
  refine ⟨?_, ?_, ?_⟩
  · intro j
    rw [hw]
    by_cases hj : j = i
    · subst hj
      rw [System.set_replicas_self]
      exact hlog
    · rw [s.set_replicas_of_ne hj]
      exact h.replicas j
  · intro k x hx
    rw [hw]
    exact h.entries k x hx
  · intro log' hlog'
    rw [hw]
    exact h.snapshots log' hlog'

/-- The writer may extend its replica. -/
theorem Consistent.write {w : ι} {s : System ι α} (h : Consistent w s) (x : α) :
    Consistent w (s.set w (s.replicas w ++ [x])) := by
  have hgrow : s.replicas w <+: s.replicas w ++ [x] := List.prefix_append ..
  refine ⟨?_, ?_, ?_⟩
  · intro j
    rw [System.set_replicas_self]
    by_cases hj : j = w
    · subst hj
      rw [System.set_replicas_self]
    · rw [s.set_replicas_of_ne hj]
      exact (h.replicas j).trans hgrow
  · intro k y hy
    rw [System.set_replicas_self]
    have hold := h.entries k y hy
    rw [List.getElem?_append_left (List.getElem?_eq_some_iff.mp hold).1]
    exact hold
  · intro log hlog
    rw [System.set_replicas_self]
    exact (h.snapshots log hlog).trans hgrow

theorem Consistent.step {w : ι} {s s' : System ι α} (h : Consistent w s) (hstep : Step w s s') :
    Consistent w s' := by
  cases hstep with
  | write x => exact h.write x
  | @publishEntry i k x hentry =>
    refine ⟨h.replicas, ?_, h.snapshots⟩
    intro k' x' hx'
    rcases Set.mem_insert_iff.mp hx' with heq | hx'
    · cases heq
      obtain ⟨hk, rfl⟩ := List.getElem?_eq_some_iff.mp hentry
      exact List.prefix_iff_getElem?.mp (h.replicas i) k hk
    · exact h.entries k' x' hx'
  | publishSnapshot i =>
    refine ⟨h.replicas, h.entries, ?_⟩
    intro log hlog
    rcases Set.mem_insert_iff.mp hlog with rfl | hlog
    · exact h.replicas i
    · exact h.snapshots log hlog
  | @append i x hpublished =>
    have hentry := h.entries _ _ hpublished
    obtain ⟨hlength, hx⟩ := List.getElem?_eq_some_iff.mp hentry
    -- The writer has an entry at this position, so this is not the writer.
    have hi : i ≠ w := by
      rintro rfl
      exact absurd hlength (lt_irrefl _)
    apply h.set hi
    have htake := List.prefix_iff_eq_take.mp (h.replicas i)
    rw [htake, ← hx, ← List.take_succ_eq_append_getElem hlength]
    exact List.take_prefix ..
  | @adopt i log hpublished hlonger =>
    have hlog := h.snapshots log hpublished
    have hi : i ≠ w := by
      rintro rfl
      exact absurd hlog.length_le (not_le.mpr hlonger)
    exact h.set hi hlog

/-- Safety: every replica is a prefix of the writer's, in every reachable state. -/
theorem replicas_prefix {w : ι} {s : System ι α}
    (hs : Relation.ReflTransGen (Step w) System.empty s) (i : ι) :
    s.replicas i <+: s.replicas w := by
  suffices h : Consistent w s from h.replicas i
  induction hs with
  | refl => exact consistent_empty w
  | tail _ hlast ih => exact ih.step hlast

end LogReplication
