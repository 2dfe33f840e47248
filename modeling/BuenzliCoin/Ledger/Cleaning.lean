-- SUMMARY: When the loops that take transactions out of the pool are defined, and filter it.
import BuenzliCoin.Ledger.UnconfirmedPool

/-!
# Cleaning the pool

`remove` and `prune` erase from the list that they iterate over. They are
undefined where they increment the end iterator or go on reading a transaction
that they have erased.
-/

namespace BuenzliCoin

open EraseLoop

namespace TransactionUnconfirmedPool

/-- An input of the transaction references no entry of the list. -/
def Stale (us : TransactionUnspentOutputs) (t : Transaction) : Prop :=
  ∃ txi ∈ t.inputs, txi.ref ∉ us.map UTxO.ref

instance (us : TransactionUnspentOutputs) (t : Transaction) : Decidable (Stale us t) :=
  inferInstanceAs (Decidable (∃ txi ∈ t.inputs, txi.ref ∉ us.map UTxO.ref))

theorem not_stale_iff {us : TransactionUnspentOutputs} {t : Transaction} :
    ¬ Stale us t ↔ ∀ txi ∈ t.inputs, txi.ref ∈ us.map UTxO.ref := by
  simp only [Stale, not_exists, not_and, not_not]

theorem any_ref_iff {us : TransactionUnspentOutputs} {txi : TxI} :
    (us.any fun utxo => utxo.ref = txi.ref) = true ↔ txi.ref ∈ us.map UTxO.ref := by
  simp [List.mem_map]

-- ---------------------------------------------------------------------------
-- The inner loop
-- ---------------------------------------------------------------------------

theorem pruneInputs_eq_false {us : TransactionUnspentOutputs} {txis : List TxI} :
    pruneInputs us txis = some false ↔ ∀ txi ∈ txis, txi.ref ∈ us.map UTxO.ref := by
  induction txis with
  | nil => simp [pruneInputs]
  | cons txi txis ih =>
    rw [pruneInputs, List.forall_mem_cons]
    by_cases href : txi.ref ∈ us.map UTxO.ref
    · rw [if_pos (any_ref_iff.mpr href), ih, and_iff_right href]
    · rw [if_neg (mt any_ref_iff.mp href)]
      split_ifs <;> simp [href]

/-- The loop may erase the transaction only for its last input. -/
theorem pruneInputs_eq_true {us : TransactionUnspentOutputs} {txis : List TxI} :
    pruneInputs us txis = some true ↔
      (∃ txi ∈ txis, txi.ref ∉ us.map UTxO.ref) ∧
      ∀ txi ∈ txis.dropLast, txi.ref ∈ us.map UTxO.ref := by
  induction txis with
  | nil => simp [pruneInputs]
  | cons txi txis ih =>
    rw [pruneInputs, List.exists_mem_cons_iff]
    by_cases href : txi.ref ∈ us.map UTxO.ref
    · rw [if_pos (any_ref_iff.mpr href), ih]
      cases txis with
      | nil => simp [href]
      | cons txi' txis => rw [List.dropLast_cons_cons, List.forall_mem_cons]; simp [href]
    · rw [if_neg (mt any_ref_iff.mp href)]
      cases txis with
      | nil => simp [href]
      | cons txi' txis => rw [List.dropLast_cons_cons, List.forall_mem_cons]; simp [href]

-- ---------------------------------------------------------------------------
-- The outer loops
-- ---------------------------------------------------------------------------

theorem remove?_eq_filter_iff {pool : TransactionUnconfirmedPool} {t : Transaction} :
    pool.remove? t = some (pool.filter fun t' => t'.hash ≠ t.hash) ↔
      pool.IsChain (fun t₁ t₂ => ¬ (t₁.hash = t.hash ∧ t₂.hash = t.hash)) ∧
      ∀ t' ∈ pool.getLast?, t'.hash ≠ t.hash := by
  have h := @checkedLoop_eq_filter_iff _ (fun t' : Transaction => some (t'.hash = t.hash)) pool
    (fun t' => t'.hash = t.hash) (by simp)
  simp only [decide_eq_true_eq, decide_eq_false_iff_not, ← decide_not] at h
  rw [remove?, h]
  simp

theorem prune?_eq_filter_iff {pool : TransactionUnconfirmedPool} {us : TransactionUnspentOutputs} :
    pool.prune? us = some (pool.filter fun t => ∀ txi ∈ t.inputs, txi.ref ∈ us.map UTxO.ref) ↔
      pool.IsChain (fun t₁ t₂ => ¬ (Stale us t₁ ∧ Stale us t₂)) ∧
      (∀ t ∈ pool.getLast?, ¬ Stale us t) ∧
      ∀ t ∈ pool, Stale us t → ∀ txi ∈ t.inputs.dropLast, txi.ref ∈ us.map UTxO.ref := by
  have hkept : ∀ t : Transaction, pruneInputs us t.inputs = some false ↔
      decide (Stale us t) = false := by
    intro t
    rw [pruneInputs_eq_false, decide_eq_false_iff_not, not_stale_iff]
  have h := @checkedLoop_eq_filter_iff _ _ pool _ hkept
  simp only [decide_eq_true_eq, decide_eq_false_iff_not, ← decide_not] at h
  have hfilter : (pool.filter fun t => ∀ txi ∈ t.inputs, txi.ref ∈ us.map UTxO.ref) =
      pool.filter fun t => ¬ Stale us t :=
    List.filter_congr fun t _ => decide_eq_decide.mpr not_stale_iff.symm
  rw [hfilter, prune?, h]
  refine and_congr_right fun _ => and_congr_right fun _ => forall₂_congr fun t _ => ?_
  refine imp_congr_right fun hstale => ?_
  rw [pruneInputs_eq_true]
  exact and_iff_right hstale

/-- The loops are defined and filter the pool exactly if no two adjacent
    transactions are to go, nor the last one, and if none has an input after its
    first stale one. -/
theorem clean_eq_filter_iff (pool : TransactionUnconfirmedPool) (us : TransactionUnspentOutputs)
    (t : Transaction) :
    (pool.remove? t = some (pool.filter fun t' => t'.hash ≠ t.hash) ↔
      pool.IsChain (fun t₁ t₂ => ¬ (t₁.hash = t.hash ∧ t₂.hash = t.hash)) ∧
      ∀ t' ∈ pool.getLast?, t'.hash ≠ t.hash) ∧
    (pool.prune? us = some (pool.filter fun t' => ∀ txi ∈ t'.inputs, txi.ref ∈ us.map UTxO.ref) ↔
      pool.IsChain (fun t₁ t₂ => ¬ (Stale us t₁ ∧ Stale us t₂)) ∧
      (∀ t' ∈ pool.getLast?, ¬ Stale us t') ∧
      ∀ t' ∈ pool, Stale us t' → ∀ txi ∈ t'.inputs.dropLast, txi.ref ∈ us.map UTxO.ref) :=
  ⟨remove?_eq_filter_iff, prune?_eq_filter_iff⟩

/-- A transaction with the given hash and inputs. -/
def sample (hash : UInt8) (inputs : List TxI) : Transaction where
  type := .standard
  index := 1
  hash := ⟨[hash]⟩
  inputs
  outputs := []

/-- An input, to which no entry of the empty list corresponds. -/
def staleInput : TxI := ⟨⟨[0]⟩, 0, ⟨[]⟩⟩

/-- The last transaction, two adjacent ones, and one with two stale inputs. -/
theorem not_clean :
    remove? [sample 1 []] (sample 1 []) = none ∧
    (remove? [sample 1 [], sample 1 [], sample 2 []] (sample 1 []) =
        some [sample 1 [], sample 2 []] ∧
      [sample 1 [], sample 1 [], sample 2 []].filter (fun t => t.hash ≠ (sample 1 []).hash) =
        [sample 2 []]) ∧
    prune? [sample 1 [staleInput]] [] = none ∧
    (prune? [sample 1 [staleInput], sample 2 [staleInput], sample 3 []] [] =
        some [sample 2 [staleInput], sample 3 []] ∧
      [sample 1 [staleInput], sample 2 [staleInput], sample 3 []].filter
        (fun t => ∀ txi ∈ t.inputs, txi.ref ∈ ([] : TransactionUnspentOutputs).map UTxO.ref) =
        [sample 3 []]) ∧
    prune? [sample 1 [staleInput, staleInput], sample 2 []] [] = none := by
  decide

end TransactionUnconfirmedPool

end BuenzliCoin
