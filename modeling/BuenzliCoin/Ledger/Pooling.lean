-- SUMMARY: Runs of the pool of unconfirmed transactions, and what holds of the pool after each of them.
import BuenzliCoin.Ledger.UnconfirmedPool
import BuenzliCoin.Lib.Runs

namespace BuenzliCoin

open Runs

namespace TransactionUnconfirmedPool

/-- A call of a member function that changes the pool. -/
inductive Call where
  | add (t : Transaction)
  | next
  | remove (t : Transaction)
  | prune (us : TransactionUnspentOutputs)
  | clear

variable [Env]

/-- The pool after a call. `add` leaves it when it throws, and `next` takes a
    pool that is not empty. -/
def step (pool : TransactionUnconfirmedPool) : Call → Option TransactionUnconfirmedPool
  | .add t =>
    match pool.add t with
    | .error _ => some pool
    | .ok pool' => some pool'
  | .next => pool.next.map Prod.snd
  | .remove t => some (pool.remove t)
  | .prune us => some (pool.prune us)
  | .clear => some []

/-- What assembling a block relies on. -/
structure Sound (pool : TransactionUnconfirmedPool) : Prop where
  length_le : pool.length ≤ config.transactionNumPerBlock.toNat
  disjoint : pool.Pairwise fun t t' => t.refs.Disjoint t'.refs
  valid : ∀ t ∈ pool, t.valid = .ok ()

theorem sound_nil : Sound [] where
  length_le := Nat.zero_le _
  disjoint := .nil
  valid _ ht := by cases ht

/-- To take transactions out of the pool does no harm. -/
theorem Sound.of_sublist {pool pool' : TransactionUnconfirmedPool} (h : pool.Sound)
    (hsub : pool'.Sublist pool) : pool'.Sound where
  length_le := hsub.length_le.trans h.length_le
  disjoint := h.disjoint.sublist hsub
  valid t ht := h.valid t (hsub.mem ht)

omit [Env] in
theorem duplicateInputs_eq_false {pool : TransactionUnconfirmedPool} {t : Transaction} :
    pool.duplicateInputs t = false ↔ ∀ t' ∈ pool, t'.refs.Disjoint t.refs := by
  unfold duplicateInputs
  rw [List.any_eq_false]
  refine forall₂_congr fun t' _ => ?_
  rw [Bool.not_eq_true, List.any_eq_false]
  constructor
  · intro h ref href' href
    obtain ⟨txi', htxi', rfl⟩ := List.mem_map.mp href'
    obtain ⟨txi, htxi, heq⟩ := List.mem_map.mp href
    exact h txi htxi (List.any_eq_true.mpr ⟨txi', htxi', by simpa using heq⟩)
  · intro h txi htxi hany
    obtain ⟨txi', htxi', heq⟩ := List.any_eq_true.mp hany
    have href : txi.ref = txi'.ref := by simpa using heq
    exact h (List.mem_map_of_mem htxi') (href ▸ List.mem_map_of_mem htxi)

theorem Sound.add {pool pool' : TransactionUnconfirmedPool} {t : Transaction} (h : pool.Sound)
    (hadd : pool.add t = .ok pool') : pool'.Sound := by
  obtain ⟨hroom, hvalid, hdup, rfl⟩ := add_eq_ok.mp hadd
  have hle := h.length_le
  refine ⟨?_, ?_, ?_⟩
  · -- The size check is an equality, and enough as the pool was within the bound.
    rw [List.length_append, List.length_singleton]
    omega
  · refine List.pairwise_append.mpr ⟨h.disjoint, List.pairwise_singleton .., ?_⟩
    intro t' ht' t'' ht''
    obtain rfl := List.mem_singleton.mp ht''
    exact duplicateInputs_eq_false.mp hdup t' ht'
  · intro t' ht'
    rcases List.mem_append.mp ht' with ht' | ht'
    · exact h.valid t' ht'
    · obtain rfl := List.mem_singleton.mp ht'
      exact hvalid

theorem Sound.step {pool pool' : TransactionUnconfirmedPool} {call : Call} (h : pool.Sound)
    (hstep : pool.step call = some pool') : pool'.Sound := by
  cases call with
  | add t =>
    simp only [TransactionUnconfirmedPool.step] at hstep
    split at hstep
    · cases hstep
      exact h
    · next hadd =>
      cases hstep
      exact h.add hadd
  | next =>
    cases pool with
    | nil => cases hstep
    | cons t ts =>
      cases hstep
      exact h.of_sublist (List.sublist_cons_self t ts)
  | remove t =>
    cases hstep
    exact h.of_sublist (remove_sublist pool t)
  | prune us =>
    cases hstep
    exact h.of_sublist (prune_sublist pool us)
  | clear =>
    cases hstep
    exact sound_nil

/-- Whatever is done to a pool that starts empty, it stays within its bound, its
    transactions spend different outputs, and each is valid for its snapshot. -/
theorem everyState_sound (calls : List Call) : EveryState step Sound [] calls :=
  .of_invariant (fun _ _ _ h hstep => h.step hstep) sound_nil

end TransactionUnconfirmedPool

end BuenzliCoin
