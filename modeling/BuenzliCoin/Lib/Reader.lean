-- SUMMARY: Readers of words and of bracketed lists, which undo how these are written.
import Mathlib.Data.List.TakeWhile
import BuenzliCoin.Lib.Readable

namespace Readable

variable {α γ : Type}

/-- Takes a value off the front of a text. -/
abbrev Reader (α γ : Type) := List γ → Option (α × List γ)

/-- The reader undoes `e` at `a`, whatever follows. -/
def Undoes (read : Reader α γ) (e : α → List γ) (F : α → List γ → Prop) (a : α) : Prop :=
  ∀ s, F a s → read (e a ++ s) = some (a, s)

/-! ## Words -/

section

variable {p : γ → Bool} {w s : List γ}

/-- A word ends where a letter stands that is none of its letters. -/
theorem takeWhile_append_of_stop (hw : ∀ c ∈ w, p c) (hs : ∀ c, s.head? = some c → ¬ p c) :
    (w ++ s).takeWhile p = w := by
  rw [List.takeWhile_append_of_pos hw]
  cases s with
  | nil => simp
  | cons c s => rw [List.takeWhile_cons_of_neg (hs c rfl), List.append_nil]

theorem dropWhile_append_of_stop (hw : ∀ c ∈ w, p c) (hs : ∀ c, s.head? = some c → ¬ p c) :
    (w ++ s).dropWhile p = s := by
  have hsplit := List.takeWhile_append_dropWhile (p := p) (l := w ++ s)
  rw [takeWhile_append_of_stop hw hs] at hsplit
  exact List.append_cancel_left hsplit

end

/-! ## Lists -/

variable [DecidableEq γ] {sep close : γ}

/-- Reads items up to the closing bracket, at least one and at most `n` of them. -/
def readSeparated (sep close : γ) (read : Reader α γ) : Nat → Reader (List α) γ
  | 0, _ => none
  | n + 1, s => do
    let (a, s) ← read s
    let c ← s.head?
    if c = sep then
      let (as, s) ← readSeparated sep close read n s.tail
      return (a :: as, s)
    else if c = close then return ([a], s.tail)
    else none

/-- Reads a list without its opening bracket. -/
def readBracketed (sep close : γ) (read : Reader α γ) (n : Nat) (s : List γ) :
    Option (List α × List γ) :=
  if s.head? = some close then some ([], s.tail) else readSeparated sep close read n s

variable {read : Reader α γ} {e : α → List γ} {F : α → List γ → Prop} {as : List α}

omit [DecidableEq γ] in
theorem length_le_length_separated (sep : γ) (e : α → List γ) {a : α} (ha : a ∈ as) :
    (e a).length ≤ (separated sep e as).length := by
  cases as with
  | nil => cases ha
  | cons b as =>
    rw [separated, List.length_append]
    rcases List.mem_cons.mp ha with rfl | ha
    · exact Nat.le_add_right _ _
    · have hpiece : (sep :: e a).Sublist (as.flatMap fun b => sep :: e b) :=
        List.sublist_flatten_of_mem (List.mem_map_of_mem ha)
      have hlength := hpiece.length_le
      rw [List.length_cons] at hlength
      omega

omit [DecidableEq γ] in
/-- There are not more items than the text has letters. -/
theorem length_le_length_separated_of_ne_nil (sep : γ) (hne : ∀ a ∈ as, e a ≠ []) :
    as.length ≤ (separated sep e as).length := by
  cases as with
  | nil => exact Nat.zero_le _
  | cons a as =>
    have hhead : 0 < (e a).length := List.length_pos_iff.mpr (hne a (List.mem_cons_self ..))
    have htail : as.length ≤ (as.flatMap fun b => sep :: e b).length := by
      clear hne
      induction as with
      | nil => exact Nat.zero_le _
      | cons b as ih =>
        simp only [List.flatMap_cons, List.length_append, List.length_cons]
        omega
    simp only [separated, List.length_append, List.length_cons]
    omega

theorem readSeparated_cons {n : Nat} {a : α} {as : List α} {s : List γ} (hsep : sep ≠ close)
    (hF : ∀ b ∈ a :: as, ∀ s, F b (sep :: s)) (hF' : ∀ b ∈ a :: as, ∀ s, F b (close :: s))
    (hread : ∀ b ∈ a :: as, Undoes read e F b) (hn : (a :: as).length ≤ n) :
    readSeparated sep close read n (separated sep e (a :: as) ++ close :: s) =
      some (a :: as, s) := by
  induction as generalizing a n with
  | nil =>
    obtain ⟨n, rfl⟩ := Nat.exists_eq_add_of_le' hn
    have hhead := hread a (List.mem_cons_self ..) _ (hF' a (List.mem_cons_self ..) s)
    simp [readSeparated, separated, hhead, hsep.symm]
  | cons b as ih =>
    obtain ⟨n, rfl⟩ := Nat.exists_eq_add_of_le' (show 1 ≤ n from Nat.le_trans (by simp) hn)
    have hhead := hread a (List.mem_cons_self ..)
      (sep :: (separated sep e (b :: as) ++ close :: s)) (hF a (List.mem_cons_self ..) _)
    have htail := ih (a := b) (n := n) (fun c hc => hF c (List.mem_cons_of_mem a hc))
      (fun c hc => hF' c (List.mem_cons_of_mem a hc))
      (fun c hc => hread c (List.mem_cons_of_mem a hc)) (by simpa using hn)
    have htext : separated sep e (a :: b :: as) ++ close :: s =
        e a ++ sep :: (separated sep e (b :: as) ++ close :: s) := by
      simp [separated]
    rw [htext]
    simp [readSeparated, hhead, htail]

theorem readBracketed_separated {n : Nat} {s : List γ} (hsep : sep ≠ close)
    (hF : ∀ a ∈ as, ∀ s, F a (sep :: s)) (hF' : ∀ a ∈ as, ∀ s, F a (close :: s))
    (hopen : ∀ a ∈ as, ∀ s r, e a ++ s ≠ close :: r) (hread : ∀ a ∈ as, Undoes read e F a)
    (hn : as.length ≤ n) :
    readBracketed sep close read n (separated sep e as ++ close :: s) = some (as, s) := by
  cases as with
  | nil => simp [readBracketed, separated]
  | cons a as =>
    have hhead : (separated sep e (a :: as) ++ close :: s).head? ≠ some close := by
      intro h
      obtain ⟨r, hr⟩ : ∃ r, separated sep e (a :: as) ++ close :: s = close :: r :=
        ⟨_, List.eq_cons_of_mem_head? h⟩
      simp only [separated, List.append_assoc] at hr
      exact hopen a (List.mem_cons_self ..) _ r hr
    rw [readBracketed, if_neg hhead]
    exact readSeparated_cons hsep hF hF' hread hn

end Readable
