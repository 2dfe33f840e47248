-- SUMMARY: The exact effect of a transaction: what it spends against what it creates, and its update.
import BuenzliCoin.Ledger.Validation
import BuenzliCoin.Lib.Accumulator

namespace BuenzliCoin

open Accumulator CoinHistory EraseLoop

-- ---------------------------------------------------------------------------
-- The balance of a valid transaction
-- ---------------------------------------------------------------------------

namespace Transaction

/-- The amounts that are added up for the inputs. -/
def inputAmounts (t : Transaction) : List UInt64 :=
  t.inputs.flatMap fun txi => (t.matched txi).map fun utxo => utxo.output.amount

/-- The amounts that are added up for the outputs. -/
def outputAmounts (t : Transaction) : List UInt64 := t.outputs.map TxO.amount

theorem txoSum_eq (t : Transaction) : t.txoSum = accumulate 0 t.outputAmounts := by
  rw [txoSum, accumulate, outputAmounts, List.foldl_map]

theorem matchUnspentOutputs_eq (t : Transaction) (txi : TxI) (txiSum : UInt64) :
    (t.matchUnspentOutputs txi txiSum).2 =
      accumulate txiSum ((t.matched txi).map fun utxo => utxo.output.amount) := by
  unfold matchUnspentOutputs matched
  generalize "" = address
  induction t.unspentOutputs generalizing address txiSum with
  | nil => rfl
  | cons utxo us ih =>
    simp only [TransactionUnspentOutputs.matches_iff] at ih ⊢
    rw [List.foldl_cons]
    by_cases href : utxo.ref = txi.ref
    · rw [if_pos href, ih, List.filter_cons_of_pos (by simpa using href)]
      rfl
    · rw [if_neg href, ih, List.filter_cons_of_neg (by simpa using href)]

theorem validInputs_eq [Env] {t : Transaction} {i : Nat} {txis : List TxI}
    {txiSum txiSum' : UInt64} (h : t.validInputs i txis txiSum = .ok txiSum') :
    txiSum' = accumulate txiSum
      (txis.flatMap fun txi => (t.matched txi).map fun utxo => utxo.output.amount) := by
  induction txis generalizing i txiSum with
  | nil =>
    cases h
    rfl
  | cons txi txis ih =>
    have hsum := t.matchUnspentOutputs_eq txi txiSum
    rw [validInputs] at h
    simp only at h
    split_ifs at h with haddress
    split at h
    · cases h
    · cases h
    · rw [ih h, hsum, List.flatMap_cons, accumulate, accumulate, accumulate, List.foldl_append]

/-- The two sums that a valid transaction is accepted for. -/
theorem accumulate_eq_of_validStandard [Env] {t : Transaction} (h : t.validStandard = .ok ()) :
    accumulate 0 t.inputAmounts = accumulate 0 t.outputAmounts := by
  unfold validStandard at h
  split_ifs at h with hhash
  split at h
  · cases h
  · next txiSum hinputs =>
    split_ifs at h with hsum
    rw [← txoSum_eq, ← not_not.mp hsum]
    exact (validInputs_eq hinputs).symm

theorem exact_matched (us : List UTxO) :
    exact (us.map fun utxo => utxo.output.amount) = total UTxO.amount us := by
  rw [exact, total, List.map_map]
  rfl

/-- With distinct references, the amounts of the inputs are those of the entries
    that the transaction references. -/
theorem exact_inputAmounts {t : Transaction} (hrefs : t.refs.Nodup) :
    exact t.inputAmounts =
      total UTxO.amount (t.unspentOutputs.filter fun utxo => utxo.ref ∈ t.refs) := by
  have hsum : ∀ txis : List TxI,
      exact (txis.flatMap fun txi => (t.matched txi).map fun utxo => utxo.output.amount) =
        ((txis.map TxI.ref).map (amountIn t.unspentOutputs)).sum := by
    intro txis
    induction txis with
    | nil => rfl
    | cons txi txis ih =>
      rw [List.flatMap_cons, exact_append, exact_matched, ih]
      rfl
  rw [inputAmounts, hsum, total_filter_mem UTxO.ref UTxO.amount hrefs]
  rfl

/-- A valid transaction pays out exactly what it spends if and only if its two
    sums wrap around equally often, for example never. -/
theorem balanced_iff [Env] {t : Transaction} (hrefs : t.refs.Nodup)
    (hvalid : t.validStandard = .ok ()) :
    total UTxO.amount (t.unspentOutputs.filter fun utxo => utxo.ref ∈ t.refs) =
        (t.outputs.map fun txo => txo.amount.toNat).sum ↔
      wraps 0 t.inputAmounts = wraps 0 t.outputAmounts := by
  have houtputs : (t.outputs.map fun txo => txo.amount.toNat).sum = exact t.outputAmounts := by
    rw [exact, outputAmounts, List.map_map]
    rfl
  rw [houtputs, ← exact_inputAmounts hrefs]
  exact exact_eq_iff (accumulate_eq_of_validStandard hvalid)

/-- A transaction that spends a coin of 50 and pays out the given amounts. -/
def paying (amounts : List UInt64) : Transaction :=
  letI := plainBuild
  let t : Transaction := {
    type := .standard
    index := 1
    hash := ⟨[]⟩
    inputs := [⟨⟨[1]⟩, 0, ⟨[]⟩⟩]
    outputs := amounts.map fun amount => ⟨amount, "bob"⟩
    unspentOutputs := [⟨⟨[1]⟩, 0, ⟨50, "alice"⟩⟩] }
  { t with hash := t.determineHash }

theorem paying_valid {amounts : List UInt64} (h : accumulate 0 amounts = 50) :
    letI := plainBuild
    (paying amounts).validStandard = .ok () := by
  let env := plainBuild
  have hsum : (paying amounts).txoSum = 50 := by
    rw [txoSum_eq, outputAmounts, paying, List.map_map, ← h]
    exact congrArg _ (List.map_id amounts)
  have hinputs : (paying amounts).validInputs 0 (paying amounts).inputs 0 = .ok 50 := rfl
  have hhash : (paying amounts).hash = (paying amounts).determineHash := rfl
  rw [validStandard, if_neg (not_not.mpr hhash), hinputs, hsum]
  rfl

theorem balanced_paying :
    letI := plainBuild
    (paying [20, 30]).refs.Nodup ∧ (paying [20, 30]).validStandard = .ok () ∧
    total UTxO.amount ((paying [20, 30]).unspentOutputs.filter fun utxo =>
      utxo.ref ∈ (paying [20, 30]).refs) =
      ((paying [20, 30]).outputs.map fun txo => txo.amount.toNat).sum := by
  let env := plainBuild
  have hrefs : (paying [20, 30]).refs.Nodup := by decide
  have hvalid := paying_valid (show accumulate 0 [20, 30] = 50 by decide)
  exact ⟨hrefs, hvalid, (balanced_iff hrefs hvalid).mpr (by decide)⟩

/-- Two outputs of 2 ^ 63 pass unnoticed. -/
theorem not_balanced_paying :
    letI := plainBuild
    ((paying [2 ^ 63, 2 ^ 63, 50]).unspentOutputs.map UTxO.ref).Nodup ∧
    (paying [2 ^ 63, 2 ^ 63, 50]).refs.Nodup ∧
    (paying [2 ^ 63, 2 ^ 63, 50]).validStandard = .ok () ∧
    total UTxO.amount ((paying [2 ^ 63, 2 ^ 63, 50]).unspentOutputs.filter fun utxo =>
      utxo.ref ∈ (paying [2 ^ 63, 2 ^ 63, 50]).refs) = 50 ∧
    ((paying [2 ^ 63, 2 ^ 63, 50]).outputs.map fun txo => txo.amount.toNat).sum = 2 ^ 64 + 50 :=
  ⟨by decide, by decide, paying_valid (by decide +kernel), by decide +kernel, by decide +kernel⟩

end Transaction

-- ---------------------------------------------------------------------------
-- The update
-- ---------------------------------------------------------------------------

namespace Transaction

/-- The outputs come with the hash of their transaction. -/
theorem outputHash_of_mem_newUnspentOutputs {t : Transaction} {utxo : UTxO}
    (h : utxo ∈ t.newUnspentOutputs) : utxo.outputHash = t.hash := by
  obtain ⟨p, -, rfl⟩ := List.mem_map.mp h
  rfl

theorem newUnspentOutputs_ne_nil {t : Transaction} (h : t.outputs ≠ []) :
    t.newUnspentOutputs ≠ [] := by
  simpa [newUnspentOutputs, List.zipIdx_eq_nil_iff] using h

theorem total_newUnspentOutputs (t : Transaction) :
    total UTxO.amount t.newUnspentOutputs = (t.outputs.map fun txo => txo.amount.toNat).sum := by
  rw [total, newUnspentOutputs, List.map_map]
  conv_rhs => rw [← List.zipIdx_map_fst 0 t.outputs, List.map_map]
  rfl

/-- The outputs of one transaction are told apart by their positions. -/
theorem nodup_newUnspentOutputs {t : Transaction} (h : t.outputs.length < 2 ^ 64) :
    (t.newUnspentOutputs.map UTxO.ref).Nodup := by
  have hpositions : t.newUnspentOutputs.map UTxO.ref =
      (List.range' 0 t.outputs.length).map fun i => (⟨t.hash, UInt64.ofNat i⟩ : OutputRef) := by
    rw [newUnspentOutputs, List.map_map, ← List.zipIdx_map_snd, List.map_map]
    rfl
  rw [hpositions]
  refine List.Nodup.map_on ?_ (List.nodup_range' ..)
  intro i hi j hj heq
  have hi' := (List.mem_range'_1.mp hi).2
  have hj' := (List.mem_range'_1.mp hj).2
  have hindex : UInt64.ofNat i = UInt64.ofNat j := congrArg OutputRef.outputIndex heq
  have htoNat := congrArg UInt64.toNat hindex
  rw [UInt64.toNat_ofNat', UInt64.toNat_ofNat'] at htoNat
  omega

end Transaction

namespace TransactionUnspentOutputs

/-- One scan: as the outputs of the transaction stand at the end of the list and
    match no input, the loop never gets to the end with an erase. -/
theorem checkedLoop_matches {us vs : TransactionUnspentOutputs} {txi : TxI}
    (hnodup : ((us ++ vs).map UTxO.ref).Nodup) (hvs : vs ≠ [])
    (hother : ∀ utxo ∈ vs, utxo.ref ≠ txi.ref) :
    checkedLoop (fun utxo : UTxO => some (decide
      (utxo.outputHash = txi.outputHash ∧ utxo.outputIndex = txi.outputIndex))) (us ++ vs) =
      some ((us.filter fun utxo => utxo.ref ≠ txi.ref) ++ vs) := by
  have hfilter : ((us ++ vs).filter fun utxo =>
      !decide (utxo.outputHash = txi.outputHash ∧ utxo.outputIndex = txi.outputIndex)) =
      (us.filter fun utxo => utxo.ref ≠ txi.ref) ++ vs := by
    simp only [matches_iff, ← decide_not, List.filter_append]
    congr 1
    exact List.filter_eq_self.mpr fun utxo hutxo => decide_eq_true (hother utxo hutxo)
  rw [← hfilter]
  refine (checkedLoop_eq_filter_iff (fun utxo => ?_)).mpr ⟨?_, ?_, fun utxo _ hmatch => ?_⟩
  · rw [Option.some.injEq]
  · exact (pairwise_not_matches hnodup txi).isChain
  · intro utxo hlast
    rw [List.getLast?_append_of_ne_nil _ hvs] at hlast
    rw [decide_eq_false_iff_not, matches_iff]
    exact hother utxo (List.mem_of_getLast? hlast)
  · rw [hmatch]

/-- The scans for all inputs, in turn. -/
theorem foldlM_checkedLoop {us vs : TransactionUnspentOutputs} {txis : List TxI}
    (hnodup : ((us ++ vs).map UTxO.ref).Nodup) (hvs : vs ≠ [])
    (hother : ∀ txi ∈ txis, ∀ utxo ∈ vs, utxo.ref ≠ txi.ref) :
    txis.foldlM
      (fun us txi =>
        checkedLoop
          (fun utxo : UTxO => some (decide
            (utxo.outputHash = txi.outputHash ∧ utxo.outputIndex = txi.outputIndex))) us)
      (us ++ vs) = some ((us.filter fun utxo => utxo.ref ∉ txis.map TxI.ref) ++ vs) := by
  induction txis generalizing us with
  | nil => simp
  | cons txi txis ih =>
    obtain ⟨hfirst, hrest⟩ := List.forall_mem_cons.mp hother
    have hnodup' : (((us.filter fun utxo => utxo.ref ≠ txi.ref) ++ vs).map UTxO.ref).Nodup :=
      hnodup.sublist ((List.filter_sublist.append (List.Sublist.refl _)).map UTxO.ref)
    rw [List.foldlM_cons, checkedLoop_matches hnodup hvs hfirst]
    refine (ih hnodup' hrest).trans ?_
    rw [List.filter_filter]
    simp only [List.map_cons, List.mem_cons, not_or]
    congr 2
    refine List.filter_congr fun utxo _ => ?_
    rw [Bool.and_comm, Bool.decide_and]

/-- The update by a transaction that fits the history and has an output is defined. -/
theorem update?_unspent {h : List (Transfer OutputRef UTxO)} {t : Transaction}
    (hs : Sound UTxO.ref h) (ht : Fits UTxO.ref h t.transfer) (houtputs : t.outputs ≠ []) :
    update? (unspent UTxO.ref h) t = some (update (unspent UTxO.ref h) t) := by
  have hnodup : ((unspent UTxO.ref h ++ t.newUnspentOutputs).map UTxO.ref).Nodup :=
    ht.fresh.sublist (((unspent_sublist h).append (List.Sublist.refl _)).map UTxO.ref)
  have hother : ∀ txi ∈ t.inputs, ∀ utxo ∈ t.newUnspentOutputs, utxo.ref ≠ txi.ref := by
    intro txi htxi utxo hutxo heq
    exact (ht.creates_not_spent hs utxo hutxo).2 (heq ▸ List.mem_map_of_mem htxi)
  have hscan : update? (unspent UTxO.ref h) t = some _ :=
    foldlM_checkedLoop hnodup (Transaction.newUnspentOutputs_ne_nil houtputs) hother
  rw [update_of_update? hscan, hscan]

/-- So is that by all transactions of a block. -/
theorem updateAll?_unspent {h : List (Transfer OutputRef UTxO)} {ts : List Transaction}
    (hs : Sound UTxO.ref h) (hts : FitsBlock UTxO.ref h (ts.map Transaction.transfer))
    (houtputs : ∀ t ∈ ts, t.outputs ≠ []) :
    updateAll? (unspent UTxO.ref h) ts = some (updateAll (unspent UTxO.ref h) ts) := by
  induction ts generalizing h with
  | nil => rfl
  | cons t ts ih =>
    obtain ⟨hfirst, hrest⟩ := List.forall_mem_cons.mp houtputs
    have hfit := hts.head
    rw [updateAll?, List.foldlM_cons, update?_unspent hs hfit hfirst, updateAll_cons,
      update_unspent hs hfit]
    exact ih (hs.append hfit) (hts.tail hs) hrest

/-- The update of a list with distinct keys by a transaction whose hash is new to
    it: no scan increments the end iterator, and what is left are the entries that
    no input references, and after them the outputs of the transaction. -/
theorem update_exact {us : TransactionUnspentOutputs} {t : Transaction}
    (hnodup : (us.map UTxO.ref).Nodup) (houtputs : t.outputs ≠ [])
    (hlength : t.outputs.length < 2 ^ 64) (hfresh : ∀ utxo ∈ us, utxo.outputHash ≠ t.hash)
    (hinputs : ∀ txi ∈ t.inputs, txi.outputHash ≠ t.hash) :
    update? us t = some (update us t) ∧
    update us t = (us.filter fun utxo => utxo.ref ∉ t.refs) ++ t.newUnspentOutputs ∧
    ((update us t).map UTxO.ref).Nodup ∧
    total UTxO.amount (update us t) +
        total UTxO.amount (us.filter fun utxo => utxo.ref ∈ t.refs) =
      total UTxO.amount us + (t.outputs.map fun txo => txo.amount.toNat).sum := by
  have happended : ((us ++ t.newUnspentOutputs).map UTxO.ref).Nodup := by
    rw [List.map_append]
    refine List.Nodup.append hnodup (Transaction.nodup_newUnspentOutputs hlength) ?_
    intro ref hold hnew
    obtain ⟨utxo, hutxo, rfl⟩ := List.mem_map.mp hold
    obtain ⟨utxo', hutxo', heq⟩ := List.mem_map.mp hnew
    refine hfresh utxo hutxo ?_
    rw [← Transaction.outputHash_of_mem_newUnspentOutputs hutxo']
    exact (congrArg OutputRef.outputHash heq).symm
  have hother : ∀ txi ∈ t.inputs, ∀ utxo ∈ t.newUnspentOutputs, utxo.ref ≠ txi.ref := by
    intro txi htxi utxo hutxo heq
    refine hinputs txi htxi ?_
    rw [← Transaction.outputHash_of_mem_newUnspentOutputs hutxo]
    exact (congrArg OutputRef.outputHash heq).symm
  have hscan : update? us t =
      some ((us.filter fun utxo => utxo.ref ∉ t.refs) ++ t.newUnspentOutputs) :=
    foldlM_checkedLoop happended (Transaction.newUnspentOutputs_ne_nil houtputs) hother
  have hupdate := update_of_update? hscan
  refine ⟨by rw [hscan, hupdate], hupdate, ?_, ?_⟩
  · rw [hupdate]
    exact happended.sublist ((List.filter_sublist.append (List.Sublist.refl _)).map UTxO.ref)
  · have hsplit := total_filter_add_filter_not UTxO.amount
      (fun utxo => decide (utxo.ref ∈ t.refs)) us
    rw [hupdate, total_append, Transaction.total_newUnspentOutputs]
    simp only [decide_not]
    omega

theorem update_exact_paying :
    letI := plainBuild
    update? (Transaction.paying [20, 30]).unspentOutputs (Transaction.paying [20, 30]) =
      some (Transaction.paying [20, 30]).newUnspentOutputs ∧
    ((Transaction.paying [20, 30]).newUnspentOutputs.map UTxO.ref).Nodup ∧
    total UTxO.amount (Transaction.paying [20, 30]).newUnspentOutputs + 50 = 50 + 50 := by
  let env := plainBuild
  have hkeys : ((Transaction.paying [20, 30]).unspentOutputs.map UTxO.ref).Nodup := by decide
  have houtputs : (Transaction.paying [20, 30]).outputs ≠ [] := by decide
  obtain ⟨hscan, hupdate, hnodup, htotal⟩ :=
    update_exact hkeys houtputs (by decide) (by decide +kernel) (by decide +kernel)
  have hspent : (Transaction.paying [20, 30]).unspentOutputs.filter (fun utxo =>
      utxo.ref ∉ (Transaction.paying [20, 30]).refs) = [] := by decide
  rw [hspent, List.nil_append] at hupdate
  rw [hupdate] at hscan hnodup htotal
  exact ⟨hscan, hnodup, htotal⟩

end TransactionUnspentOutputs

end BuenzliCoin
