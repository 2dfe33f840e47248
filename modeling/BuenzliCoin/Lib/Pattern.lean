-- SUMMARY: Regular expressions with captures under leftmost-first matching, and rules for their first match.
import Mathlib.Data.List.DropRight

/-!
# Patterns

The match of a backtracking search: at the leftmost place where there is one,
and there the one that its choices prefer. A repetition prefers to take more.
-/

/-- A regular expression. Only single characters are repeated. -/
inductive Pattern (α : Type) where
  | char (p : α → Bool)
  | many (p : α → Bool)
  | seq (a b : Pattern α)
  | capture (a : Pattern α)

namespace Pattern

variable {α : Type}

/-- A way to match: what the groups capture, in the order in which they open, what
    is taken in all, and what is left. -/
structure Way (α : Type) where
  groups : List (List α)
  taken : List α
  rest : List α

/-- A way for what comes after another one. -/
def Way.append (w w' : Way α) : Way α := ⟨w.groups ++ w'.groups, w.taken ++ w'.taken, w'.rest⟩

def Way.capture (w : Way α) : Way α := { w with groups := w.taken :: w.groups }

/-- The ways to repeat a character, from the longest to the empty one. -/
def manyWays (p : α → Bool) : List α → List (Way α)
  | [] => [⟨[], [], []⟩]
  | c :: s =>
    if p c then (manyWays p s).map (fun w => { w with taken := c :: w.taken }) ++ [⟨[], [], c :: s⟩]
    else [⟨[], [], c :: s⟩]

/-- The ways to match at the start, the preferred ones first. -/
def ways : Pattern α → List α → List (Way α)
  | char _, [] => []
  | char p, c :: s => if p c then [⟨[], [c], s⟩] else []
  | many p, s => manyWays p s
  | seq a b, s => (ways a s).flatMap fun w => (ways b w.rest).map w.append
  | capture a, s => (ways a s).map Way.capture

/-- The leftmost place, and there the first way. -/
def find? (a : Pattern α) : List α → Option (Way α)
  | [] => (ways a []).head?
  | c :: s =>
    match (ways a (c :: s)).head? with
    | some w => some w
    | none => find? a s

/-- The pattern matches at the start, and this way is the first. -/
def First (a : Pattern α) (s : List α) (w : Way α) : Prop := (ways a s).head? = some w

/-- The pattern does not match at the start. -/
def Fails (a : Pattern α) (s : List α) : Prop := ways a s = []

variable {a b : Pattern α} {p : α → Bool} {c : α} {s : List α} {w w' : Way α}

theorem find?_of_first (h : First a s w) : find? a s = some w := by
  cases s with
  | nil => exact h
  | cons c s => rw [find?, h]

theorem find?_of_fails (h : Fails a (c :: s)) : find? a (c :: s) = find? a s := by
  rw [find?, h]
  rfl

/-! ## Characters -/

theorem First.char_seq (hc : p c) (h : First b s w) :
    First (seq (char p) b) (c :: s) ⟨w.groups, c :: w.taken, w.rest⟩ := by
  simp only [First, ways, if_pos hc, List.flatMap_singleton, List.head?_map] at h ⊢
  rw [h]
  rfl

theorem Fails.char_seq (h : ∀ c, s.head? = some c → p c = false) : Fails (seq (char p) b) s := by
  cases s with
  | nil => rfl
  | cons c s => simp [Fails, ways, h c rfl]

/-! ## Repetitions -/

/-- The longest way comes first. -/
theorem First.many (p : α → Bool) (s : List α) :
    First (many p) s ⟨[], s.takeWhile p, s.dropWhile p⟩ := by
  unfold First ways
  induction s with
  | nil => rfl
  | cons c s ih =>
    rw [manyWays, List.takeWhile_cons, List.dropWhile_cons]
    split
    · rw [List.head?_append, List.head?_map, ih]
      rfl
    · rfl

theorem First.capture (h : First a s w) : First (capture a) s w.capture := by
  simp only [First, ways, List.head?_map] at h ⊢
  rw [h]
  rfl

/-- A repetition takes a part of the input to which `p` applies. -/
theorem mem_manyWays (h : w ∈ manyWays p s) : s = w.taken ++ w.rest ∧ ∀ c ∈ w.taken, p c := by
  have hnone : ∀ {s} {w : Way α}, w ∈ [(⟨[], [], s⟩ : Way α)] →
      s = w.taken ++ w.rest ∧ ∀ c ∈ w.taken, p c := by
    intro s w hw
    cases List.mem_singleton.mp hw
    exact ⟨rfl, fun c hc => by cases hc⟩
  induction s generalizing w with
  | nil => exact hnone h
  | cons c s ih =>
    rw [manyWays] at h
    split at h
    · next hc =>
      obtain h | h := List.mem_append.mp h
      · obtain ⟨v, hv, rfl⟩ := List.mem_map.mp h
        obtain ⟨rfl, hall⟩ := ih hv
        exact ⟨rfl, List.forall_mem_cons.mpr ⟨hc, hall⟩⟩
      · exact hnone h
    · exact hnone h

/-- The ways before that which takes `x` take more. -/
theorem manyWays_append {x y : List α} (hx : ∀ c ∈ x, p c) :
    ∃ longer shorter, manyWays p (x ++ y) = longer ++ ⟨[], x, y⟩ :: shorter ∧
      ∀ v ∈ longer, ∃ z, z ≠ [] ∧ y = z ++ v.rest ∧ ∀ c ∈ z, p c := by
  induction x with
  | nil =>
    cases y with
    | nil => exact ⟨[], [], rfl, fun v hv => by cases hv⟩
    | cons c y =>
      rw [List.nil_append, manyWays]
      split
      · next hc =>
        refine ⟨_, [], rfl, ?_⟩
        intro v hv
        obtain ⟨w, hw, rfl⟩ := List.mem_map.mp hv
        obtain ⟨rfl, hall⟩ := mem_manyWays hw
        exact ⟨c :: w.taken, List.cons_ne_nil _ _, rfl, List.forall_mem_cons.mpr ⟨hc, hall⟩⟩
      · exact ⟨[], [], rfl, fun v hv => by cases hv⟩
  | cons c x ih =>
    obtain ⟨hc, hx⟩ := List.forall_mem_cons.mp hx
    obtain ⟨longer, shorter, heq, hlonger⟩ := ih hx
    rw [List.cons_append, manyWays, if_pos hc, heq, List.map_append, List.map_cons,
      List.append_assoc]
    refine ⟨_, _, rfl, ?_⟩
    intro v hv
    obtain ⟨w, hw, rfl⟩ := List.mem_map.mp hv
    exact hlonger w hw

/-- Backtracking: a repetition takes `x` if what comes after it matches there, and
    would not match if it took more. -/
theorem First.capture_many_seq {x y : List α} (hx : ∀ c ∈ x, p c) (h : First b y w)
    (hlonger : ∀ z y', z ≠ [] → (∀ c ∈ z, p c) → y = z ++ y' → Fails b y') :
    First (seq (.capture (.many p)) b) (x ++ y) ⟨x :: w.groups, x ++ w.taken, w.rest⟩ := by
  obtain ⟨longer, shorter, heq, hfails⟩ := manyWays_append (y := y) hx
  have hnone : (longer.map Way.capture).flatMap (fun w => (ways b w.rest).map w.append) = [] := by
    rw [List.flatMap_map, List.flatMap_eq_nil_iff]
    intro v hv
    obtain ⟨z, hz, hy, hall⟩ := hfails v hv
    have hnil : ways b v.rest = [] := hlonger z v.rest hz hall hy
    exact List.map_eq_nil_iff.mpr hnil
  simp only [First, ways, heq, List.map_append, List.map_cons, List.flatMap_append, hnone,
    List.nil_append, List.flatMap_cons, List.head?_append, List.head?_map] at h ⊢
  change (((ways b y).head?.map _).or _) = _
  rw [h]
  rfl

theorem Fails.capture_many_seq
    (h : ∀ x y, (∀ c ∈ x, p c) → s = x ++ y → Fails b y) :
    Fails (seq (.capture (.many p)) b) s := by
  simp only [Fails, ways, List.flatMap_map, List.flatMap_eq_nil_iff]
  intro v hv
  obtain ⟨hs, hall⟩ := mem_manyWays hv
  exact List.map_eq_nil_iff.mpr (h v.taken v.rest hall hs)

end Pattern
