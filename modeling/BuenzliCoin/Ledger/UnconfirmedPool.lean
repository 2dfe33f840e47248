-- SUMMARY: The pool of unconfirmed transactions.
import BuenzliCoin.Ledger.UnspentOutputs

namespace BuenzliCoin

open EraseLoop

abbrev TransactionUnconfirmedPool := List Transaction

namespace TransactionUnconfirmedPool

/-- `next()`, which takes the front of a pool that is not empty. -/
def next : TransactionUnconfirmedPool → Option (Transaction × TransactionUnconfirmedPool)
  | [] => none
  | t :: ts => some (t, ts)

/-- An input of `t` is an input of a transaction in the pool. -/
def duplicateInputs (pool : TransactionUnconfirmedPool) (t : Transaction) : Bool :=
  pool.any fun t' => t.inputs.any fun txi => t'.inputs.any fun txi' => txi.ref = txi'.ref

def add [Env] (pool : TransactionUnconfirmedPool) (t : Transaction) :
    Except Error TransactionUnconfirmedPool :=
  if pool.length = config.transactionNumPerBlock.toNat then
    .error (.exception "transaction pool is already full")
  else
    match t.valid with
    | .error e => .error (.exception s!"attempted to add invalid transaction to pool: {e}")
    | .ok () =>
      if pool.duplicateInputs t then
        .error (.exception "Attempted to add invalid transaction to pool: duplicate inputs")
      else .ok (pool ++ [t])

/-- Undefined where the loop increments the end iterator. -/
def remove? (pool : TransactionUnconfirmedPool) (t : Transaction) :
    Option TransactionUnconfirmedPool :=
  checkedLoop (fun t' => some (t'.hash = t.hash)) pool

/-- The inner loop of `prune`, over the inputs of one transaction: whether it has
    erased the transaction. It must not come to another input after that. -/
def pruneInputs (us : TransactionUnspentOutputs) : List TxI → Option Bool
  | [] => some false
  | txi :: txis =>
    if us.any fun utxo => utxo.ref = txi.ref then pruneInputs us txis
    else if txis = [] then some true
    else none

/-- Undefined where the outer loop increments the end iterator or the inner one goes
    on reading a transaction that it has erased. -/
def prune? (pool : TransactionUnconfirmedPool) (us : TransactionUnspentOutputs) :
    Option TransactionUnconfirmedPool :=
  checkedLoop (fun t => pruneInputs us t.inputs) pool

/-- The pool that `remove?` leaves where it is defined, by a loop that is defined
    everywhere. -/
def remove (pool : TransactionUnconfirmedPool) (t : Transaction) : TransactionUnconfirmedPool :=
  eraseIf (fun t' => t'.hash = t.hash) pool

/-- The inputs of a transaction that reference no entry of the list. -/
def staleInputs (us : TransactionUnspentOutputs) (t : Transaction) : List TxI :=
  t.inputs.filter fun txi => !us.any fun utxo => utxo.ref = txi.ref

/-- The pool that `prune?` leaves where it is defined, by a loop that erases once for
    each stale input of the transaction it started on. -/
def prune (pool : TransactionUnconfirmedPool) (us : TransactionUnspentOutputs) :
    TransactionUnconfirmedPool :=
  eraseLoop (fun t => (staleInputs us t).length) pool

def toJson (pool : TransactionUnconfirmedPool) : Json := .array (pool.map Transaction.toJson)

theorem remove_sublist (pool : TransactionUnconfirmedPool) (t : Transaction) :
    (pool.remove t).Sublist pool := eraseIf_sublist _ pool

theorem foldl_remove_sublist (ts : List Transaction) (pool : TransactionUnconfirmedPool) :
    (ts.foldl remove pool).Sublist pool := by
  induction ts generalizing pool with
  | nil => exact .refl pool
  | cons t ts ih => exact (ih _).trans (remove_sublist pool t)

theorem prune_sublist (pool : TransactionUnconfirmedPool) (us : TransactionUnspentOutputs) :
    (pool.prune us).Sublist pool := eraseLoop_sublist _ pool

/-- What the loop of the pool erases for a transaction. -/
theorem length_staleInputs {us : TransactionUnspentOutputs} {t : Transaction} {erased : Bool}
    (h : pruneInputs us t.inputs = some erased) : (staleInputs us t).length = erased.toNat := by
  unfold staleInputs
  generalize t.inputs = txis at h
  induction txis with
  | nil =>
    cases h
    rfl
  | cons txi txis ih =>
    rw [pruneInputs] at h
    cases hany : us.any fun utxo => utxo.ref = txi.ref with
    | true =>
      rw [if_pos hany] at h
      rw [List.filter_cons_of_neg (by simp [hany]), ih h]
    | false =>
      rw [hany, if_neg Bool.false_ne_true] at h
      split_ifs at h with hlast
      cases h
      rw [List.filter_cons_of_pos (by simp [hany]), hlast]
      rfl

/-- Where it is defined, `remove?` is the loop of the pool. -/
theorem remove_of_remove? {pool pool' : TransactionUnconfirmedPool} {t : Transaction}
    (h : pool.remove? t = some pool') : pool.remove t = pool' := by
  refine eraseLoop_of_checkedLoop ?_ h
  intro t' erased ht'
  exact congrArg Bool.toNat (Option.some.inj ht')

/-- Where it is defined, `prune?` is the loop of the pool. -/
theorem prune_of_prune? {pool pool' : TransactionUnconfirmedPool} {us : TransactionUnspentOutputs}
    (h : pool.prune? us = some pool') : pool.prune us = pool' :=
  eraseLoop_of_checkedLoop (fun _ _ ht => length_staleInputs ht) h

theorem prune?_sublist {pool pool' : TransactionUnconfirmedPool} {us : TransactionUnspentOutputs}
    (h : pool.prune? us = some pool') : pool'.Sublist pool := by
  rw [← prune_of_prune? h]
  exact prune_sublist pool us

theorem foldl_remove_of_foldlM_remove? {pool pool' : TransactionUnconfirmedPool}
    {ts : List Transaction} (h : ts.foldlM remove? pool = some pool') :
    ts.foldl remove pool = pool' := by
  induction ts generalizing pool with
  | nil => exact Option.some.inj h
  | cons t ts ih =>
    rw [List.foldlM_cons] at h
    obtain ⟨next, hnext, hrest⟩ := Option.bind_eq_some_iff.mp h
    rw [List.foldl_cons, remove_of_remove? hnext]
    exact ih hrest

/-- The loops never take the last transaction out of the pool. -/
theorem eq_nil_iff_of_foldlM_remove? {pool pool' : TransactionUnconfirmedPool}
    {ts : List Transaction} (h : ts.foldlM remove? pool = some pool') :
    pool' = [] ↔ pool = [] := by
  induction ts generalizing pool with
  | nil => rw [Option.some.inj h]
  | cons t ts ih =>
    rw [List.foldlM_cons] at h
    obtain ⟨next, hnext, hrest⟩ := Option.bind_eq_some_iff.mp h
    rw [ih hrest]
    constructor
    · rintro rfl
      exact checkedLoop_eq_nil_iff.mp hnext
    · rintro rfl
      exact (Option.some.inj hnext).symm

theorem foldlM_remove?_nil (ts : List Transaction) : ts.foldlM remove? [] = some [] := by
  induction ts with
  | nil => rfl
  | cons t ts ih => exact ih

/-- What `add` does when it returns. -/
theorem add_eq_ok [Env] {pool pool' : TransactionUnconfirmedPool} {t : Transaction} :
    pool.add t = .ok pool' ↔
      pool.length ≠ config.transactionNumPerBlock.toNat ∧ t.valid = .ok () ∧
      pool.duplicateInputs t = false ∧ pool' = pool ++ [t] := by
  unfold add
  by_cases hfull : pool.length = config.transactionNumPerBlock.toNat
  · simp [hfull]
  · rw [if_neg hfull]
    cases hvalid : t.valid with
    | error e => simp
    | ok _ => cases hdup : pool.duplicateInputs t <;> simp [hfull, eq_comm]

end TransactionUnconfirmedPool

end BuenzliCoin
