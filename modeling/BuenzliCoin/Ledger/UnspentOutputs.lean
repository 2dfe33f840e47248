-- SUMMARY: The list of unspent transaction outputs, and its update as a step of a coin history.
import BuenzliCoin.Ledger.Transaction
import BuenzliCoin.Lib.CoinHistory
import BuenzliCoin.Lib.EraseLoop

namespace BuenzliCoin

open EraseLoop CoinHistory

/-- The entries `update` adds for a transaction. -/
def Transaction.newUnspentOutputs (t : Transaction) : List UTxO :=
  t.outputs.zipIdx.map fun (txo, i) => ⟨t.hash, UInt64.ofNat i, txo⟩

/-- The coins a transaction spends and creates. -/
def Transaction.transfer (t : Transaction) : Transfer OutputRef UTxO where
  spends := t.refs
  creates := t.newUnspentOutputs

@[simp] theorem Transaction.transfer_spends (t : Transaction) : t.transfer.spends = t.refs := rfl

@[simp] theorem Transaction.transfer_creates (t : Transaction) :
    t.transfer.creates = t.newUnspentOutputs := rfl

/-- The exact amount of an entry. -/
def UTxO.amount (utxo : UTxO) : Nat := utxo.output.amount.toNat

abbrev TransactionUnspentOutputs := List UTxO

namespace TransactionUnspentOutputs

/-- The outputs are added first; then each input erases its matches. Undefined where
    a scan increments the end iterator. -/
def update? (us : TransactionUnspentOutputs) (t : Transaction) : Option TransactionUnspentOutputs :=
  t.inputs.foldlM
    (fun us txi =>
      checkedLoop
        (fun utxo => some
          (utxo.outputHash = txi.outputHash ∧ utxo.outputIndex = txi.outputIndex : Bool)) us)
    (us ++ t.newUnspentOutputs)

/-- `for (auto const &t : ts) update(t);` -/
def updateAll? (us : TransactionUnspentOutputs) (ts : List Transaction) :
    Option TransactionUnspentOutputs :=
  ts.foldlM update? us

/-- The list that `update?` leaves where it is defined, by a loop that is defined
    everywhere. -/
def update (us : TransactionUnspentOutputs) (t : Transaction) : TransactionUnspentOutputs :=
  t.inputs.foldl
    (fun us txi =>
      eraseIf
        (fun utxo => utxo.outputHash = txi.outputHash ∧ utxo.outputIndex = txi.outputIndex) us)
    (us ++ t.newUnspentOutputs)

def updateAll (us : TransactionUnspentOutputs) (ts : List Transaction) :
    TransactionUnspentOutputs :=
  ts.foldl update us

def toJson (us : TransactionUnspentOutputs) : Json := .array (us.map UTxO.toJson)

@[simp] theorem updateAll_nil (us : TransactionUnspentOutputs) : updateAll us [] = us := rfl

@[simp] theorem updateAll_cons (us : TransactionUnspentOutputs) (t : Transaction)
    (ts : List Transaction) : updateAll us (t :: ts) = updateAll (update us t) ts := rfl

theorem updateAll_append (us : TransactionUnspentOutputs) (ts ts' : List Transaction) :
    updateAll us (ts ++ ts') = updateAll (updateAll us ts) ts' := List.foldl_append

/-- Where it is defined, `update?` is the update. -/
theorem update_of_update? {us us' : TransactionUnspentOutputs} {t : Transaction}
    (h : update? us t = some us') : update us t = us' := by
  unfold update? at h
  unfold update
  generalize us ++ t.newUnspentOutputs = vs at h ⊢
  generalize t.inputs = txis at h ⊢
  induction txis generalizing vs with
  | nil => exact Option.some.inj h
  | cons txi txis ih =>
    rw [List.foldlM_cons] at h
    obtain ⟨ws, hscan, hrest⟩ := Option.bind_eq_some_iff.mp h
    have herase : eraseIf (fun utxo : UTxO =>
        utxo.outputHash = txi.outputHash ∧ utxo.outputIndex = txi.outputIndex) vs = ws :=
      eraseLoop_of_checkedLoop
        (fun utxo erased hbody => congrArg Bool.toNat (Option.some.inj hbody)) hscan
    rw [List.foldl_cons, herase]
    exact ih ws hrest

theorem updateAll_of_updateAll? {us us' : TransactionUnspentOutputs} {ts : List Transaction}
    (h : updateAll? us ts = some us') : updateAll us ts = us' := by
  induction ts generalizing us with
  | nil => exact Option.some.inj h
  | cons t ts ih =>
    rw [updateAll?, List.foldlM_cons] at h
    obtain ⟨next, hnext, hrest⟩ := Option.bind_eq_some_iff.mp h
    rw [updateAll_cons, update_of_update? hnext]
    exact ih hrest

/-- A transaction that spends nothing only adds its outputs. -/
theorem update?_of_inputs_eq_nil {t : Transaction} (us : TransactionUnspentOutputs)
    (h : t.inputs = []) : update? us t = some (us ++ t.newUnspentOutputs) := by
  rw [update?, h]
  rfl

/-- Transactions that spend nothing do no harm. -/
theorem updateAll?_of_inputs_eq_nil {us : TransactionUnspentOutputs} {ts : List Transaction}
    (h : ∀ t ∈ ts, t.inputs = []) : updateAll? us ts = some (updateAll us ts) := by
  induction ts generalizing us with
  | nil => rfl
  | cons t ts ih =>
    obtain ⟨hfirst, hrest⟩ := List.forall_mem_cons.mp h
    have hupdate := update?_of_inputs_eq_nil us hfirst
    rw [updateAll?, List.foldlM_cons, updateAll_cons, update_of_update? hupdate, hupdate]
    exact ih hrest

theorem matches_iff {utxo : UTxO} {txi : TxI} :
    (utxo.outputHash = txi.outputHash ∧ utxo.outputIndex = txi.outputIndex) ↔
      utxo.ref = txi.ref := by
  simp [UTxO.ref, TxI.ref]

/-! ## Entries that go -/

private theorem mem_eraseInputs {utxo : UTxO} {txis : List TxI} {us : TransactionUnspentOutputs}
    (hmem : utxo ∈ us) (hgone : utxo ∉ txis.foldl (fun us txi =>
      eraseIf
        (fun utxo => utxo.outputHash = txi.outputHash ∧ utxo.outputIndex = txi.outputIndex) us)
      us) :
    ∃ txi ∈ txis, txi.ref = utxo.ref := by
  induction txis generalizing us with
  | nil => exact absurd hmem hgone
  | cons txi txis ih =>
    by_cases href : utxo.ref = txi.ref
    · exact ⟨txi, List.mem_cons_self .., href.symm⟩
    · have hstays := mem_eraseIf_of_not (p := fun utxo : UTxO =>
        utxo.outputHash = txi.outputHash ∧ utxo.outputIndex = txi.outputIndex) hmem
        (by simpa using fun hhash hindex => href (matches_iff.mp ⟨hhash, hindex⟩))
      obtain ⟨txi', hmem', href'⟩ := ih hstays hgone
      exact ⟨txi', List.mem_cons_of_mem _ hmem', href'⟩

/-- An entry disappears in an update only if an input references it. -/
theorem exists_input_of_update {utxo : UTxO} {us : TransactionUnspentOutputs} {t : Transaction}
    (hmem : utxo ∈ us) (hgone : utxo ∉ update us t) : ∃ txi ∈ t.inputs, txi.ref = utxo.ref :=
  mem_eraseInputs (List.mem_append_left _ hmem) hgone

theorem exists_input_of_updateAll {utxo : UTxO} {us : TransactionUnspentOutputs}
    {ts : List Transaction} (hmem : utxo ∈ us) (hgone : utxo ∉ updateAll us ts) :
    ∃ t ∈ ts, ∃ txi ∈ t.inputs, txi.ref = utxo.ref := by
  induction ts generalizing us with
  | nil => exact absurd hmem hgone
  | cons t ts ih =>
    by_cases hstays : utxo ∈ update us t
    · obtain ⟨t', hmem', hinput⟩ := ih hstays hgone
      exact ⟨t', List.mem_cons_of_mem _ hmem', hinput⟩
    · exact ⟨t, List.mem_cons_self .., exists_input_of_update hmem hstays⟩

/-! ## The update as a transfer -/

/-- Where references are distinct, an input matches at most one entry. -/
theorem pairwise_not_matches {us : TransactionUnspentOutputs} (hus : (us.map UTxO.ref).Nodup)
    (txi : TxI) :
    us.Pairwise fun u u' =>
      ¬ ((decide (u.outputHash = txi.outputHash ∧ u.outputIndex = txi.outputIndex) = true) ∧
        (decide (u'.outputHash = txi.outputHash ∧ u'.outputIndex = txi.outputIndex) = true)) := by
  apply (List.pairwise_map.mp hus).imp
  intro u u' hne ⟨hu, hu'⟩
  rw [decide_eq_true_iff, matches_iff] at hu hu'
  exact hne (hu.trans hu'.symm)

/-- Where references are distinct, the loops over the inputs filter the list. -/
theorem eraseInputs_eq_filter {us : TransactionUnspentOutputs} (hus : (us.map UTxO.ref).Nodup)
    (txis : List TxI) :
    txis.foldl (fun us txi =>
      eraseIf
        (fun utxo => utxo.outputHash = txi.outputHash ∧ utxo.outputIndex = txi.outputIndex) us)
      us = us.filter fun utxo => utxo.ref ∉ txis.map TxI.ref := by
  induction txis generalizing us with
  | nil => simp
  | cons txi txis ih =>
    have herase := eraseIf_eq_filter_of_pairwise (pairwise_not_matches hus txi)
    have hnodup : ((us.filter fun u =>
        !decide (u.outputHash = txi.outputHash ∧ u.outputIndex = txi.outputIndex)).map
          UTxO.ref).Nodup :=
      hus.sublist (List.filter_sublist.map UTxO.ref)
    rw [List.foldl_cons, herase, ih hnodup, List.filter_filter]
    apply List.filter_congr
    intro u _
    simp only [matches_iff, List.map_cons, List.mem_cons, not_or]
    by_cases href : u.ref = txi.ref <;> simp [href]

/-- The update by a transaction that fits the history leaves what is then
    unspent. -/
theorem update_unspent {h : List (Transfer OutputRef UTxO)} {t : Transaction}
    (hs : Sound UTxO.ref h) (ht : Fits UTxO.ref h t.transfer) :
    update (unspent UTxO.ref h) t = unspent UTxO.ref (h ++ [t.transfer]) := by
  have hnodup : ((unspent UTxO.ref h ++ t.newUnspentOutputs).map UTxO.ref).Nodup :=
    ht.fresh.sublist (((unspent_sublist h).append (List.Sublist.refl _)).map UTxO.ref)
  have hcreates : t.newUnspentOutputs.filter (fun utxo => utxo.ref ∉ t.refs) =
      t.newUnspentOutputs := by
    rw [List.filter_eq_self]
    intro utxo hutxo
    have hnot := (ht.creates_not_spent hs utxo hutxo).2
    rwa [decide_eq_true_iff]
  rw [update, eraseInputs_eq_filter hnodup, unspent_append hs ht, List.filter_append]
  exact congrArg _ hcreates

theorem updateAll_unspent {h : List (Transfer OutputRef UTxO)} {ts : List Transaction}
    (hs : Sound UTxO.ref h) (hts : FitsBlock UTxO.ref h (ts.map Transaction.transfer)) :
    updateAll (unspent UTxO.ref h) ts = unspent UTxO.ref (h ++ ts.map Transaction.transfer) := by
  induction ts generalizing h with
  | nil => simp
  | cons t ts ih =>
    have hfit := hts.head
    rw [updateAll_cons, update_unspent hs hfit, ih (hs.append hfit) (hts.tail hs), List.map_cons,
      List.append_assoc, List.singleton_append]

end TransactionUnspentOutputs

end BuenzliCoin
