-- SUMMARY: What the validation of transactions and transaction lists has checked when it accepts.
import BuenzliCoin.Ledger.UnspentOutputs

namespace BuenzliCoin

open CoinHistory

namespace Transaction

/-! ## Inputs -/

/-- The entries of the snapshot that an input references. -/
def matched (t : Transaction) (txi : TxI) : List UTxO :=
  t.unspentOutputs.filter fun utxo => utxo.ref = txi.ref

/-- The address that an input is checked against: that of the last entry. -/
def inputAddress (t : Transaction) (txi : TxI) : String :=
  match (t.matched txi).getLast? with
  | some utxo => utxo.output.address
  | none => ""

/-- The exact amount under a reference. -/
def amountIn (us : List UTxO) (ref : OutputRef) : Nat := amountAt UTxO.ref UTxO.amount us ref

theorem matchUnspentOutputs_fst (t : Transaction) (txi : TxI) (txiSum : UInt64) :
    (t.matchUnspentOutputs txi txiSum).1 = t.inputAddress txi := by
  unfold matchUnspentOutputs inputAddress matched
  induction t.unspentOutputs using List.reverseRecOn with
  | nil => rfl
  | append_singleton us utxo ih =>
    rw [List.foldl_append, List.filter_append]
    simp only [TransactionUnspentOutputs.matches_iff] at ih ⊢
    by_cases href : utxo.ref = txi.ref
    · simp [href]
    · have hnone : [utxo].filter (fun utxo => utxo.ref = txi.ref) = [] := by simp [href]
      rw [List.foldl_cons, List.foldl_nil, if_neg href, ih, hnone, List.append_nil]

theorem matchUnspentOutputs_snd (t : Transaction) (txi : TxI) (txiSum : UInt64) :
    (t.matchUnspentOutputs txi txiSum).2.toNat =
      (txiSum.toNat + amountIn t.unspentOutputs txi.ref) % 2 ^ 64 := by
  unfold matchUnspentOutputs amountIn
  generalize "" = address
  induction t.unspentOutputs generalizing address txiSum with
  | nil =>
    rw [amountAt_nil, Nat.add_zero, Nat.mod_eq_of_lt txiSum.toNat_lt]
    rfl
  | cons utxo us ih =>
    rw [List.foldl_cons, amountAt_cons]
    simp only [TransactionUnspentOutputs.matches_iff] at ih ⊢
    by_cases href : utxo.ref = txi.ref
    · rw [if_pos href, if_pos href, ih, UInt64.toNat_add, Nat.mod_add_mod]
      simp only [UTxO.amount, Nat.add_assoc]
    · rw [if_neg href, if_neg href, ih, Nat.zero_add]

/-- Where references are distinct, the address is that of the one entry. -/
theorem inputAddress_of_mem {t : Transaction} {txi : TxI} {utxo : UTxO}
    (hnodup : (t.unspentOutputs.map UTxO.ref).Nodup) (hmem : utxo ∈ t.unspentOutputs)
    (href : utxo.ref = txi.ref) : t.inputAddress txi = utxo.output.address := by
  have hmatched : utxo ∈ t.matched txi := List.mem_filter.mpr ⟨hmem, by simpa using href⟩
  unfold inputAddress
  cases hlast : (t.matched txi).getLast? with
  | none =>
    rw [List.getLast?_eq_none_iff.mp hlast] at hmatched
    cases hmatched
  | some last =>
    obtain ⟨hlastMem, hlastRef⟩ := List.mem_filter.mp (List.mem_of_getLast? hlast)
    have heq : last = utxo :=
      List.inj_on_of_nodup_map hnodup hlastMem hmem (by rw [href]; simpa using hlastRef)
    rw [heq]

/-- An input that has an address references an entry. -/
theorem mem_of_inputAddress_ne {t : Transaction} {txi : TxI} (h : t.inputAddress txi ≠ "") :
    txi.ref ∈ t.unspentOutputs.map UTxO.ref := by
  unfold inputAddress at h
  cases hlast : (t.matched txi).getLast? with
  | none =>
    rw [hlast] at h
    exact absurd rfl h
  | some last =>
    obtain ⟨hmem, href⟩ := List.mem_filter.mp (List.mem_of_getLast? hlast)
    exact List.mem_map.mpr ⟨last, hmem, by simpa using href⟩

variable [Env]

/-- The checks on one input. -/
structure InputValid (t : Transaction) (txi : TxI) : Prop where
  found : t.inputAddress txi ≠ ""
  signed : Env.verify (t.inputAddress txi) t.hash txi.signature = .ok true

theorem validInputs_eq_ok {t : Transaction} {i : Nat} {txis : List TxI} {txiSum txiSum' : UInt64} :
    t.validInputs i txis txiSum = .ok txiSum' ↔
      (∀ txi ∈ txis, t.InputValid txi) ∧
      txiSum'.toNat =
        (txiSum.toNat + (txis.map fun txi => amountIn t.unspentOutputs txi.ref).sum) % 2 ^ 64 := by
  induction txis generalizing i txiSum with
  | nil =>
    simp only [validInputs, Except.ok.injEq, List.map_nil, List.sum_nil, Nat.add_zero,
      Nat.mod_eq_of_lt txiSum.toNat_lt, List.not_mem_nil, false_implies, implies_true, true_and]
    rw [eq_comm, UInt64.toNat_inj]
  | cons txi txis ih =>
    have hfst := t.matchUnspentOutputs_fst txi txiSum
    have hsnd := t.matchUnspentOutputs_snd txi txiSum
    rw [validInputs]
    simp only [hfst, List.forall_mem_cons, List.map_cons, List.sum_cons]
    by_cases haddress : t.inputAddress txi = ""
    · simp only [if_pos haddress, reduceCtorEq, false_iff]
      rintro ⟨⟨hvalid, -⟩, -⟩
      exact hvalid.found haddress
    · rw [if_neg haddress]
      cases hverify : Env.verify (t.inputAddress txi) t.hash txi.signature with
      | error e =>
        simp only [reduceCtorEq, false_iff]
        rintro ⟨⟨hvalid, -⟩, -⟩
        rw [hvalid.signed] at hverify
        cases hverify
      | ok good =>
        cases good with
        | false =>
          simp only [reduceCtorEq, false_iff]
          rintro ⟨⟨hvalid, -⟩, -⟩
          rw [hvalid.signed] at hverify
          cases hverify
        | true =>
          rw [ih, hsnd, Nat.mod_add_mod, Nat.add_assoc]
          constructor
          · rintro ⟨hvalid, hsum⟩
            exact ⟨⟨⟨haddress, hverify⟩, hvalid⟩, hsum⟩
          · rintro ⟨⟨-, hvalid⟩, hsum⟩
            exact ⟨hvalid, hsum⟩

/-! ## Transactions -/

omit [Env] in
theorem txoSum_toNat (t : Transaction) :
    t.txoSum.toNat = total UTxO.amount t.newUnspentOutputs % 2 ^ 64 := by
  have hloop : ∀ (txos : List TxO) (i : Nat) (sum : UInt64),
      (txos.foldl (fun sum txo => sum + txo.amount) sum).toNat =
        (sum.toNat + total UTxO.amount ((txos.zipIdx i).map fun p =>
          (⟨t.hash, UInt64.ofNat p.2, p.1⟩ : UTxO))) % 2 ^ 64 := by
    intro txos
    induction txos with
    | nil =>
      intro i sum
      exact (Nat.mod_eq_of_lt sum.toNat_lt).symm
    | cons txo txos ih =>
      intro i sum
      rw [List.foldl_cons, ih (i + 1), UInt64.toNat_add, Nat.mod_add_mod]
      simp only [total, List.zipIdx_cons, List.map_cons, List.sum_cons, UTxO.amount, Nat.add_assoc]
  have h := hloop t.outputs 0 0
  rwa [show (0 : UInt64).toNat = 0 from rfl, Nat.zero_add] at h

theorem validStandard_eq_ok {t : Transaction} :
    t.validStandard = .ok () ↔
      t.hash = t.determineHash ∧ (∀ txi ∈ t.inputs, t.InputValid txi) ∧
      total UTxO.amount t.newUnspentOutputs % 2 ^ 64 =
        (t.inputs.map fun txi => amountIn t.unspentOutputs txi.ref).sum % 2 ^ 64 := by
  unfold validStandard
  by_cases hhash : t.hash = t.determineHash
  · simp only [hhash, not_true_eq_false, ne_eq, if_false, true_and]
    cases hinputs : t.validInputs 0 t.inputs 0 with
    | error e =>
      simp only [reduceCtorEq, false_iff]
      rintro ⟨hvalid, hsum⟩
      have hok : t.validInputs 0 t.inputs 0 = .ok t.txoSum := by
        refine validInputs_eq_ok.mpr ⟨hvalid, ?_⟩
        rw [txoSum_toNat, hsum, show (0 : UInt64).toNat = 0 from rfl, Nat.zero_add]
      rw [hinputs] at hok
      cases hok
    | ok txiSum =>
      obtain ⟨hvalid, hsum⟩ := validInputs_eq_ok.mp hinputs
      rw [show (0 : UInt64).toNat = 0 from rfl, Nat.zero_add] at hsum
      rw [← txoSum_toNat, ← hsum, UInt64.toNat_inj]
      by_cases heq : txiSum = t.txoSum
      · simpa [heq] using hvalid
      · simp [heq, eq_comm (a := t.txoSum)]
  · simp [hhash]

theorem validReward_eq_ok {t : Transaction} :
    t.validReward = .ok () ↔
      t.hash = t.determineHash ∧ t.inputs = [] ∧
      ∃ txo, t.outputs = [txo] ∧ txo.amount = config.transactionRewardAmount := by
  unfold validReward
  by_cases hhash : t.hash = t.determineHash
  · by_cases hinputs : t.inputs = []
    · simp only [hhash, hinputs, ne_eq, not_true_eq_false, if_false, true_and]
      match t.outputs with
      | [] => simp
      | [txo] => by_cases hamount : txo.amount = config.transactionRewardAmount <;> simp [hamount]
      | _ :: _ :: _ => simp
    · simp [hhash, hinputs]
  · simp [hhash]

theorem reward_valid (address : String) (index : UInt64) : (reward address index).valid = .ok () :=
  validReward_eq_ok.mpr ⟨rfl, rfl, _, rfl, rfl⟩

end Transaction

namespace TransactionList

variable [Env]

theorem validTransactions_eq_ok {index : UInt64} {i : Nat} {ts : List Transaction} :
    validTransactions index i ts = .ok () ↔
      (∀ t ∈ ts, t.index = index ∧ t.valid = .ok ()) ∧
      ∀ k (hk : k < ts.length), ts[k].type = if i + k = 0 then .reward else .standard := by
  induction ts generalizing i with
  | nil => simp [validTransactions]
  | cons t ts ih =>
    rw [validTransactions, List.forall_mem_cons]
    have hsplit : (∀ k (hk : k < (t :: ts).length),
        (t :: ts)[k].type = if i + k = 0 then TransactionType.reward else .standard) ↔
        t.type = (if i = 0 then TransactionType.reward else .standard) ∧
        ∀ k (hk : k < ts.length),
          ts[k].type = if i + 1 + k = 0 then TransactionType.reward else .standard := by
      constructor
      · intro h
        refine ⟨h 0 (Nat.succ_pos _), fun k hk => ?_⟩
        have hnext := h (k + 1) (Nat.succ_lt_succ hk)
        rwa [List.getElem_cons_succ, Nat.add_comm k 1, ← Nat.add_assoc] at hnext
      · rintro ⟨hfirst, hrest⟩ k hk
        cases k with
        | zero => exact hfirst
        | succ k =>
          rw [List.getElem_cons_succ, Nat.add_comm k 1, ← Nat.add_assoc]
          exact hrest k (Nat.lt_of_succ_lt_succ hk)
    rw [hsplit]
    by_cases htype : t.type = if i = 0 then TransactionType.reward else .standard
    · by_cases hindex : t.index = index
      · cases hvalid : t.valid with
        | error e => simp [htype, hindex]
        | ok _ =>
          simp only [htype, hindex, ne_eq, not_true_eq_false, if_false, ih, true_and]
      · simp [htype, hindex]
    · simp [htype]

/-- What a list that is accepted looks like: no transaction at all, or a reward
    followed by standard transactions. -/
theorem valid_eq_ok {ts : TransactionList} {index : UInt64} :
    ts.valid index = .ok () ↔
      ts.transactions.length ≤ (config.transactionNumPerBlock + 1).toNat ∧
      (∀ t ∈ ts.transactions, t.index = index ∧ t.valid = .ok ()) ∧
      ∀ k (hk : k < ts.transactions.length),
        ts.transactions[k].type = if k = 0 then .reward else .standard := by
  unfold valid
  by_cases hlength : ts.transactions.length > (config.transactionNumPerBlock + 1).toNat
  · rw [if_pos hlength]
    simp only [reduceCtorEq, false_iff]
    rintro ⟨hle, -⟩
    exact absurd hlength (not_lt.mpr hle)
  · rw [if_neg hlength, validTransactions_eq_ok]
    simp only [Nat.zero_add, not_lt.mp hlength, true_and]

theorem valid_of_mem {ts : TransactionList} {index : UInt64} {t : Transaction}
    (h : ts.valid index = .ok ()) (ht : t ∈ ts.transactions) : t.valid = .ok () :=
  ((valid_eq_ok.mp h).2.1 t ht).2

/-- A reward and valid standard transactions after it are accepted. -/
theorem valid_of_reward {address : String} {index : UInt64} {ts : List Transaction}
    (hlength : ts.length + 1 ≤ (config.transactionNumPerBlock + 1).toNat)
    (hts : ∀ t ∈ ts, t.type = .standard ∧ t.index = index ∧ t.valid = .ok ()) :
    (TransactionList.mk (Transaction.reward address index :: ts)).valid index = .ok () := by
  refine valid_eq_ok.mpr ⟨hlength, ?_, ?_⟩
  · intro t ht
    rcases List.mem_cons.mp ht with rfl | ht
    · exact ⟨rfl, Transaction.reward_valid address index⟩
    · exact (hts t ht).2
  · intro k hk
    cases k with
    | zero => rfl
    | succ k => exact (hts _ (List.getElem_mem _)).1

end TransactionList

end BuenzliCoin
