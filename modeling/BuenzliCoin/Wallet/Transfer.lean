-- SUMMARY: Transfers between wallets: the transaction that the wallet posts, and that the node accepts it.
import BuenzliCoin.Ledger.Validation
import BuenzliCoin.Wallet.Registry
import BuenzliCoin.Wallet.Wire

/-!
# Transfers

The wallet selects outputs of its own until they are worth the amount, pays the
rest back to itself, and signs the hash that the node will determine.
-/

namespace BuenzliCoin

open GoString CoinHistory

/-- What a transfer finds outside: the answers of the node, parsed, and the packages
    that hash and sign. -/
structure Services where
  /-- `GET /transactions/unspent` -/
  unspent : Except Failure Json
  /-- `GET /transactions/latest` -/
  latest : Except Failure Json
  /-- How `POST /transactions` goes. -/
  post : Except Failure Unit
  /-- `sha256.Sum256` -/
  sum256 : GoString → List UInt8
  /-- `ecdsa.SignASN1` with the key that `pem.Decode` and `x509.ParseECPrivateKey` find
      in a file. -/
  sign : GoString → List UInt8 → Except Failure (List UInt8)

def walletUnspentOutputs (w : Wallet) (services : Services) :
    Except Failure (List TransactionUnspentOutput) := do
  let body ← services.unspent
  let unspentOutputs ← Unmarshal.slice TransactionUnspentOutput.unmarshal (some body)
  return unspentOutputs.filter fun unspentOutput => unspentOutput.output.address = w.address

/-- The loop that adds inputs: the outputs that they spend, and the total. -/
def selectOutputs (amount : Int64) :
    List TransactionUnspentOutput → Int64 → List TransactionUnspentOutput × Int64
  | [], total => ([], total)
  | unspentOutput :: unspentOutputs, total =>
    let total := total + unspentOutput.output.amount
    if total ≥ amount then ([unspentOutput], total)
    else
      let (selected, total) := selectOutputs amount unspentOutputs total
      (unspentOutput :: selected, total)

/-- `strconv.Itoa` -/
def itoa (n : Int64) : GoString := ofString (toString n)

/-- `ss` -/
def WalletTransaction.hashText (t : WalletTransaction) : GoString :=
  itoa t.index ++ (t.inputs.flatMap fun txi => txi.outputHash ++ itoa txi.outputIndex) ++
    t.outputs.flatMap fun txo => itoa txo.amount ++ txo.address

/-- `trans` before it is hashed and signed. -/
def transferOf (w : Wallet) (recipient : GoString) (amount index total : Int64)
    (selected : List TransactionUnspentOutput) : WalletTransaction where
  type := ofString "standard"
  index
  hash := []
  inputs := selected.map fun unspentOutput =>
    ⟨unspentOutput.outputHash, unspentOutput.outputIndex, []⟩
  outputs :=
    ⟨amount, recipient⟩ :: if total > amount then [⟨total - amount, w.address⟩] else []

/-- `trans` with its hash, and with the signature in all inputs. -/
def WalletTransaction.signed (t : WalletTransaction) (hash signature : GoString) :
    WalletTransaction :=
  { t with hash, inputs := t.inputs.map fun txi => { txi with signature } }

/-- `walletTransfer` from where it has located the wallet to where it posts. -/
def prepareTransfer (w : Wallet) (recipient : GoString) (amount : Int64) (s : Storage)
    (services : Services) : Except Failure WalletTransaction := do
  let unspentOutputs ← walletUnspentOutputs w services
  let body ← services.latest
  let latestTransactions ← Unmarshal.slice WalletTransaction.unmarshal (some body)
  match latestTransactions with
  | [] => .error .panic
  | latest :: _ =>
    let (selected, total) := selectOutputs amount unspentOutputs 0
    if total < amount then .error (.error (ofString "insufficient funds"))
    else
      let trans := transferOf w recipient amount (latest.index + 1) total selected
      let hash := services.sum256 trans.hashText
      match s.files w.key with
      | none => .error (.library "io/ioutil")
      | some keyStr =>
        let signature ← services.sign keyStr hash
        return trans.signed (Hex.encodeToString hash) (Hex.encodeToString signature)

/-- `walletTransfer(from, to, amount)`, and what it posts. -/
def walletTransfer (dir sender recipient : GoString) (amount : Int64) (s : Storage)
    (services : Services) : Except Failure Unit × List Json :=
  match findWallet dir sender s with
  | (.error e, _) => (.error (.error e), [])
  | (.ok none, _) =>
    (.error (.error (ofString "wallet '" ++ sender ++ ofString "' does not exist")), [])
  | (.ok (some w), s) =>
    match prepareTransfer w recipient amount s services with
    | .error e => (.error e, [])
    | .ok t => (services.post, [t.toJson])

-- ---------------------------------------------------------------------------
-- Selection
-- ---------------------------------------------------------------------------

/-- The loop takes the outputs from the front, until they are worth the amount. -/
theorem selectOutputs_spec (amount : Int64) {us : List UTxO} {start : Int64}
    (hstart : 0 ≤ start.toInt) (hfits : ∀ utxo ∈ us, FitsInt utxo.output.amount)
    (htotal : start.toInt + (total UTxO.amount us : Nat) < 2 ^ 63) :
    ∃ selected rest sum, us = selected ++ rest ∧
      selectOutputs amount (us.map UTxO.toGo) start = (selected.map UTxO.toGo, sum) ∧
      sum.toInt = start.toInt + (total UTxO.amount selected : Nat) ∧
      (amount ≤ sum ∨ rest = []) := by
  induction us generalizing start with
  | nil => exact ⟨[], [], start, rfl, rfl, by simp [total], .inr rfl⟩
  | cons utxo us ih =>
    obtain ⟨hutxo, hfits⟩ := List.forall_mem_cons.mp hfits
    have hcons : ∀ us', total UTxO.amount (utxo :: us') = utxo.amount + total UTxO.amount us' :=
      fun us' => rfl
    have hamount : utxo.output.amount.toInt64.toInt = (utxo.amount : Nat) := hutxo.toInt
    rw [hcons] at htotal
    push_cast at htotal
    have hnext :
        (start + utxo.output.amount.toInt64).toInt = start.toInt + (utxo.amount : Nat) := by
      rw [Int64.toInt_add, hamount, Int.bmod_eq_of_le]
      · omega
      · omega
    rw [List.map_cons, selectOutputs]
    split_ifs with henough
    · refine ⟨[utxo], us, _, rfl, rfl, ?_, .inl henough⟩
      rw [hcons]
      exact hnext
    · have hnonneg : 0 ≤ (start + utxo.output.amount.toInt64).toInt := by omega
      obtain ⟨selected, rest, sum, rfl, hselect, hsum, hend⟩ := ih hnonneg hfits (by omega)
      refine ⟨utxo :: selected, rest, sum, rfl, ?_, ?_, hend⟩
      · change (match selectOutputs amount _ (start + utxo.output.amount.toInt64) with
          | (selected, total) => (utxo.toGo :: selected, total)) = _
        rw [hselect]
        rfl
      · rw [hsum, hnext, hcons]
        push_cast
        omega

-- ---------------------------------------------------------------------------
-- The transaction
-- ---------------------------------------------------------------------------

/-- The unspent outputs of the wallet among those of the node. -/
def ownOutputs (w : Wallet) (us : List UTxO) : List UTxO :=
  us.filter fun utxo => ofString utxo.output.address = w.address

/-- What the posted transaction stands for. -/
def sentTransaction (address recipient : String) (amount index : UInt64) (selected : List UTxO)
    (hash signature : Digest) : Transaction where
  type := .standard
  index
  hash
  inputs := selected.map fun utxo => ⟨utxo.outputHash, utxo.outputIndex, signature⟩
  outputs :=
    ⟨amount, recipient⟩ ::
      if amount.toNat < total UTxO.amount selected
      then [⟨UInt64.ofNat (total UTxO.amount selected - amount.toNat), address⟩] else []

theorem itoa_toInt64 {n : UInt64} (h : FitsInt n) : itoa n.toInt64 = ofString (toString n) := by
  rw [itoa, h.toString]

/-- Both programs hash the same text. -/
theorem hashText_toGo {t : Transaction} (h : t.Fits) :
    t.toGo.hashText = ofString (toString t.index ++
      String.join (t.inputs.map fun txi => txi.outputHash.toString ++ toString txi.outputIndex) ++
      String.join (t.outputs.map fun txo => toString txo.amount ++ txo.address)) := by
  have hinputs : (t.inputs.map TxI.toGo).flatMap
        (fun txi => txi.outputHash ++ itoa txi.outputIndex) =
      t.inputs.flatMap fun txi =>
        ofString (txi.outputHash.toString ++ toString txi.outputIndex) := by
    rw [List.flatMap_map]
    refine List.flatMap_congr fun txi htxi => ?_
    rw [ofString_append, ← itoa_toInt64 (h.inputs txi htxi)]
    rfl
  have houtputs : (t.outputs.map TxO.toGo).flatMap (fun txo => itoa txo.amount ++ txo.address) =
      t.outputs.flatMap fun txo => ofString (toString txo.amount ++ txo.address) := by
    rw [List.flatMap_map]
    refine List.flatMap_congr fun txo htxo => ?_
    rw [ofString_append, ← itoa_toInt64 (h.outputs txo htxo)]
    rfl
  rw [WalletTransaction.hashText, Transaction.toGo, hinputs, houtputs, itoa_toInt64 h.index,
    ofString_append, ofString_append, ofString_join, ofString_join, List.flatMap_map,
    List.flatMap_map]

theorem walletUnspentOutputs_eq {w : Wallet} {services : Services} {us : List UTxO}
    (hunspent : services.unspent = .ok (TransactionUnspentOutputs.toJson us))
    (hfits : ∀ utxo ∈ us, utxo.Fits) :
    walletUnspentOutputs w services = .ok ((ownOutputs w us).map UTxO.toGo) := by
  have hdecode : Unmarshal.slice TransactionUnspentOutput.unmarshal
      (some (TransactionUnspentOutputs.toJson us)) = .ok (us.map UTxO.toGo) :=
    Except.mapM_map_eq_ok fun utxo hutxo => UTxO.unmarshal_toJson (hfits utxo hutxo)
  simp only [walletUnspentOutputs, hunspent, hdecode, bind, Except.bind, pure, Except.pure,
    List.filter_map]
  rfl

/-! ## The node's side -/

theorem amountIn_of_mem {us : List UTxO} {utxo : UTxO} (hnodup : (us.map UTxO.ref).Nodup)
    (hmem : utxo ∈ us) : Transaction.amountIn us utxo.ref = utxo.amount := by
  have hone : Transaction.amountIn [utxo] utxo.ref = utxo.amount := by
    simp [Transaction.amountIn, amountAt, total]
  rw [← hone]
  exact (amountAt_of_sublist (List.singleton_sublist.mpr hmem) hnodup
    (List.mem_singleton_self _)).symm

/-- What is left of a worth that a `std::size_t` holds. -/
theorem toNat_ofNat_sub {n : Nat} (h : n < 2 ^ 64) (amount : UInt64) :
    (UInt64.ofNat (n - amount.toNat)).toNat = n - amount.toNat :=
  UInt64.toNat_ofNat_of_lt' (Nat.lt_of_le_of_lt (Nat.sub_le ..) h)

section

variable {us selected : List UTxO} {address recipient : String} {amount index : UInt64}
  {hash signature : Digest}

/-- The outputs are worth what is selected. -/
theorem total_sentTransaction (hamount : amount.toNat ≤ total UTxO.amount selected)
    (hfits : total UTxO.amount selected < 2 ^ 64) :
    total UTxO.amount
        (sentTransaction address recipient amount index selected hash signature).newUnspentOutputs =
      total UTxO.amount selected := by
  simp only [Transaction.newUnspentOutputs, sentTransaction]
  split
  · next hrest =>
    have hchange := toNat_ofNat_sub hfits amount
    simp only [total, List.zipIdx_cons, List.zipIdx_nil, List.map_cons, List.map_nil,
      List.sum_cons, List.sum_nil, UTxO.amount] at hchange hamount ⊢
    rw [hchange]
    omega
  · next hrest =>
    have heq : amount.toNat = total UTxO.amount selected := by omega
    rw [← heq]
    simp [total, UTxO.amount]

/-- The node accepts the transaction if it is signed, and pays for what it spends. -/
theorem sentTransaction_valid [Env] (hnodup : (us.map UTxO.ref).Nodup)
    (hselected : ∀ utxo ∈ selected, utxo ∈ us ∧ utxo.output.address = address)
    (haddress : address ≠ "") (hamount : amount.toNat ≤ total UTxO.amount selected)
    (hfits : total UTxO.amount selected < 2 ^ 64)
    (hhash : hash =
      (sentTransaction address recipient amount index selected hash signature).determineHash)
    (hverify : Env.verify address hash signature = .ok true) :
    ((sentTransaction address recipient amount index selected hash
      signature).updateUnspentOutputs us).validStandard = .ok () := by
  refine Transaction.validStandard_eq_ok.mpr ⟨hhash, ?_, ?_⟩
  · intro txi htxi
    obtain ⟨utxo, hutxo, rfl⟩ := List.mem_map.mp htxi
    obtain ⟨hmem, hown⟩ := hselected utxo hutxo
    have hinput : ((sentTransaction address recipient amount index selected hash
        signature).updateUnspentOutputs us).inputAddress
          ⟨utxo.outputHash, utxo.outputIndex, signature⟩ = address :=
      (Transaction.inputAddress_of_mem hnodup hmem rfl).trans hown
    refine ⟨?_, ?_⟩
    · rw [hinput]
      exact haddress
    · rw [hinput]
      exact hverify
  · have hinputs : (sentTransaction address recipient amount index selected hash
        signature).inputs.map (fun txi => Transaction.amountIn us txi.ref) =
        selected.map UTxO.amount := by
      rw [sentTransaction, List.map_map]
      exact List.map_congr_left fun utxo hutxo => amountIn_of_mem hnodup (hselected utxo hutxo).1
    have houtputs : total UTxO.amount (sentTransaction address recipient amount index selected hash
        signature).newUnspentOutputs = total UTxO.amount selected :=
      total_sentTransaction hamount hfits
    exact congrArg (· % 2 ^ 64) (houtputs.trans (congrArg List.sum hinputs).symm)

end

/-! ## The wallet's side -/

theorem hashText_signed (t : WalletTransaction) (hash signature : GoString) :
    (t.signed hash signature).hashText = t.hashText := by
  simp only [WalletTransaction.hashText, WalletTransaction.signed, List.flatMap_map]

/-- The rest that goes back to the wallet. -/
theorem change_toInt64 {amount sum : Int64} {n : Nat} (hamount : 0 ≤ amount) (hsum : sum.toInt = n)
    (hrest : amount.toUInt64.toNat < n) :
    sum - amount = (UInt64.ofNat (n - amount.toUInt64.toNat)).toInt64 := by
  have hnat := toNat_toUInt64 hamount
  have hlt := sum.toInt_lt
  have hofNat := toNat_ofNat_sub (show n < 2 ^ 64 by omega) amount.toUInt64
  have hfits : FitsInt (UInt64.ofNat (n - amount.toUInt64.toNat)) := by
    unfold FitsInt
    omega
  rw [← Int64.toInt_inj, hfits.toInt, hofNat, Int64.toInt_sub, Int.bmod_eq_of_le]
  · omega
  · omega
  · omega

/-- What the wallet builds stands for what is sent. -/
theorem signed_transferOf {w : Wallet} {address recipient : String} {amount sum : Int64}
    {index : UInt64} {selected : List UTxO} {hash signature : List UInt8}
    (haddress : ofString address = w.address) (hamount : 0 ≤ amount)
    (hsum : sum.toInt = (total UTxO.amount selected : Nat)) :
    (transferOf w (ofString recipient) amount index.toInt64 sum (selected.map UTxO.toGo)).signed
        (Hex.encodeToString hash) (Hex.encodeToString signature) =
      (sentTransaction address recipient amount.toUInt64 index selected ⟨hash⟩
        ⟨signature⟩).toGo := by
  have hnat := toNat_toUInt64 hamount
  have hinputs : ((selected.map UTxO.toGo).map fun unspentOutput =>
        (⟨unspentOutput.outputHash, unspentOutput.outputIndex, []⟩ : TransactionInput)).map
        (fun txi => { txi with signature := Hex.encodeToString signature }) =
      (selected.map fun utxo => (⟨utxo.outputHash, utxo.outputIndex, ⟨signature⟩⟩ : TxI)).map
        TxI.toGo := by
    rw [List.map_map, List.map_map, List.map_map]
    refine List.map_congr_left fun utxo _ => ?_
    simp only [Function.comp_apply, UTxO.toGo, TxI.toGo, Hex.encodeToString_eq]
  have houtputs : (transferOf w (ofString recipient) amount index.toInt64 sum
      (selected.map UTxO.toGo)).outputs = (sentTransaction address recipient amount.toUInt64 index
        selected ⟨hash⟩ ⟨signature⟩).outputs.map TxO.toGo := by
    have hpaid : (⟨amount, ofString recipient⟩ : TransactionOutput) =
        TxO.toGo ⟨amount.toUInt64, recipient⟩ := by
      rw [TxO.toGo, Int64.toInt64_toUInt64]
    have hmore : sum > amount ↔ amount.toUInt64.toNat < total UTxO.amount selected := by
      rw [gt_iff_lt, Int64.lt_iff_toInt_lt]
      omega
    simp only [transferOf, sentTransaction, hmore, hpaid, List.map_cons]
    split
    · next hrest =>
      have hchange := change_toInt64 hamount hsum hrest
      rw [List.map_singleton, TxO.toGo, TxO.toGo, hchange, haddress]
    · rfl
  rw [Transaction.toGo, ← houtputs, WalletTransaction.signed, Hex.encodeToString_eq]
  exact congrArg (fun inputs => WalletTransaction.mk _ _ _ inputs _) hinputs

-- ---------------------------------------------------------------------------
-- Transfers
-- ---------------------------------------------------------------------------

theorem ownOutputs_sublist (w : Wallet) (us : List UTxO) : (ownOutputs w us).Sublist us :=
  List.filter_sublist

theorem total_le_of_sublist {us us' : List UTxO} (h : us'.Sublist us) :
    total UTxO.amount us' ≤ total UTxO.amount us :=
  (h.map UTxO.amount).sum_le_sum fun _ _ => Nat.zero_le _

theorem fitsInt_amount {us : List UTxO} (h : total UTxO.amount us < 2 ^ 63) :
    ∀ utxo ∈ us, FitsInt utxo.output.amount := by
  intro utxo hutxo
  have hle := total_le_of_sublist (List.singleton_sublist.mpr hutxo)
  have hone : total UTxO.amount [utxo] = utxo.output.amount.toNat := by simp [total, UTxO.amount]
  unfold FitsInt
  omega

/-- What the loop selects of the wallet's own outputs. -/
theorem selectOutputs_ownOutputs (amount : Int64) {w : Wallet} {us : List UTxO}
    (htotal : total UTxO.amount us < 2 ^ 63) :
    ∃ selected rest sum, ownOutputs w us = selected ++ rest ∧
      selectOutputs amount ((ownOutputs w us).map UTxO.toGo) 0 = (selected.map UTxO.toGo, sum) ∧
      sum.toInt = (total UTxO.amount selected : Nat) ∧ (amount ≤ sum ∨ rest = []) := by
  have hsub := ownOutputs_sublist w us
  have hle := total_le_of_sublist hsub
  have hstart : 0 ≤ (0 : Int64).toInt := by decide
  have hzero : (0 : Int64).toInt = 0 := by decide
  have hfits : ∀ utxo ∈ ownOutputs w us, FitsInt utxo.output.amount :=
    fun utxo hutxo => fitsInt_amount htotal utxo (hsub.subset hutxo)
  obtain ⟨selected, rest, sum, hown, hselect, hsum, hend⟩ :=
    selectOutputs_spec amount hstart hfits (by omega)
  exact ⟨selected, rest, sum, hown, hselect, by simpa using hsum, hend⟩

/-- All numbers in the answers of the node fit an `int`. -/
structure AnswersFit (us : List UTxO) (latest : List Transaction) : Prop where
  unspent : ∀ utxo ∈ us, utxo.Fits
  latest : ∀ t ∈ latest, t.Fits

/-- The key of the wallet signs hashes in a way that its address verifies. -/
def Wallet.VerifiesOwn [Env] (w : Wallet) (s : Storage) (services : Services) : Prop :=
  ∃ keyStr, s.files w.key = some keyStr ∧ ∀ text, ∃ signature,
    services.sign keyStr (services.sum256 text) = .ok signature ∧
      ∀ address, ofString address = w.address →
        Env.verify address ⟨services.sum256 text⟩ ⟨signature⟩ = .ok true

/-- The node takes the transaction for one that pays the amount to the recipient, out of
    outputs of the wallet that it spends, and what they are worth beyond that to the wallet. -/
structure Transfers [Env] (us : List UTxO) (w : Wallet) (recipient : String) (amount : Nat)
    (index : UInt64) (t : Transaction) : Prop where
  type : t.type = .standard
  index : t.index = index
  valid : (t.updateUnspentOutputs us).validStandard = .ok ()
  outputs : ∃ address selected, ofString address = w.address ∧ selected.Sublist us ∧
    (∀ utxo ∈ selected, utxo.output.address = address) ∧ t.refs = selected.map UTxO.ref ∧
      amount ≤ total UTxO.amount selected ∧
      t.outputs.map (fun txo => (txo.amount.toNat, txo.address)) = (amount, recipient) ::
        if amount < total UTxO.amount selected
        then [(total UTxO.amount selected - amount, address)] else []

/-- What the wallet sends, the node takes for a transfer. -/
theorem sentTransaction_transfers [Env] {us selected : List UTxO} {w : Wallet}
    {address recipient : String} {amount index : UInt64} {hash signature : Digest}
    (hnodup : (us.map UTxO.ref).Nodup) (haddress : ofString address = w.address)
    (hne : w.address ≠ []) (hsub : selected.Sublist us)
    (hown : ∀ utxo ∈ selected, utxo.output.address = address)
    (hamount : amount.toNat ≤ total UTxO.amount selected)
    (hfits : total UTxO.amount selected < 2 ^ 64)
    (hhash : hash =
      (sentTransaction address recipient amount index selected hash signature).determineHash)
    (hverify : Env.verify address hash signature = .ok true) :
    Transfers us w recipient amount.toNat index
      (sentTransaction address recipient amount index selected hash signature) where
  type := rfl
  index := rfl
  valid := by
    have hempty : address ≠ "" := by
      rintro rfl
      exact hne haddress.symm
    exact sentTransaction_valid hnodup (fun utxo hutxo => ⟨hsub.subset hutxo, hown utxo hutxo⟩)
      hempty hamount hfits hhash hverify
  outputs := by
    refine ⟨address, selected, haddress, hsub, hown, ?_, hamount, ?_⟩
    · rw [Transaction.refs, sentTransaction, List.map_map]
      rfl
    · have hchange := toNat_ofNat_sub hfits amount
      rw [sentTransaction, List.map_cons]
      split
      · rw [List.map_singleton, hchange]
      · rfl

theorem sentTransaction_fits {address recipient : String} {amount index : UInt64}
    {selected : List UTxO} {hash signature : Digest} (hindex : FitsInt index)
    (hselected : ∀ utxo ∈ selected, FitsInt utxo.outputIndex) (hamount : FitsInt amount)
    (htotal : total UTxO.amount selected < 2 ^ 63) :
    (sentTransaction address recipient amount index selected hash signature).Fits where
  index := hindex
  inputs := by
    intro txi htxi
    obtain ⟨utxo, hutxo, rfl⟩ := List.mem_map.mp htxi
    exact hselected utxo hutxo
  outputs := by
    have hchange : FitsInt (UInt64.ofNat (total UTxO.amount selected - amount.toNat)) := by
      have hofNat := toNat_ofNat_sub (show total UTxO.amount selected < 2 ^ 64 by omega) amount
      unfold FitsInt
      omega
    intro txo htxo
    rcases List.mem_cons.mp htxo with rfl | htxo
    · exact hamount
    · split at htxo
      · cases List.mem_singleton.mp htxo
        exact hchange
      · cases htxo

/-- Both programs determine the same hash. -/
theorem determineHash_eq_sum256 [Env] {services : Services}
    (hsum256 : ∀ text, Env.hash text = ⟨services.sum256 (ofString text)⟩) {t : Transaction}
    (h : t.Fits) : t.determineHash = ⟨services.sum256 t.toGo.hashText⟩ := by
  rw [Transaction.determineHash, hsum256, hashText_toGo h]

/-- The outputs of the wallet are at one address. -/
theorem exists_address {w : Wallet} {us selected : List UTxO}
    (hsub : selected.Sublist (ownOutputs w us)) (hpos : 0 < total UTxO.amount selected) :
    ∃ address, ofString address = w.address ∧
      ∀ utxo ∈ selected, utxo.output.address = address := by
  have hown : ∀ utxo ∈ selected, ofString utxo.output.address = w.address :=
    fun utxo hutxo => of_decide_eq_true (List.mem_filter.mp (hsub.subset hutxo)).2
  cases selected with
  | nil => exact absurd hpos (Nat.lt_irrefl 0)
  | cons first selected =>
    have hfirst := hown first (List.mem_cons_self ..)
    exact ⟨first.output.address, hfirst,
      fun utxo hutxo => ofString_injective ((hown utxo hutxo).trans hfirst.symm)⟩

/-- With the funds, the loop selects outputs of one address that are worth the amount. -/
theorem exists_selection {w : Wallet} {amount : Int64} {us : List UTxO}
    (htotal : total UTxO.amount us < 2 ^ 63) (hamount : 0 < amount)
    (hle : amount.toUInt64.toNat ≤ total UTxO.amount (ownOutputs w us)) :
    ∃ address selected sum, ofString address = w.address ∧ selected.Sublist us ∧
      (∀ utxo ∈ selected, utxo.output.address = address) ∧
      selectOutputs amount ((ownOutputs w us).map UTxO.toGo) 0 = (selected.map UTxO.toGo, sum) ∧
      sum.toInt = (total UTxO.amount selected : Nat) ∧ ¬ sum < amount := by
  have hpos : 0 < amount.toInt := Int64.lt_iff_toInt_lt.mp hamount
  have hnat := toNat_toUInt64 (Int64.le_iff_toInt_le.mpr hpos.le)
  obtain ⟨selected, rest, sum, hsplit, hselect, hsum, hend⟩ :=
    selectOutputs_ownOutputs amount htotal
  have hsub : selected.Sublist (ownOutputs w us) := by
    rw [hsplit]
    exact List.sublist_append_left selected rest
  have henough : amount.toInt ≤ sum.toInt := by
    rcases hend with hend | rfl
    · exact Int64.le_iff_toInt_le.mp hend
    · rw [hsplit, List.append_nil] at hle
      omega
  obtain ⟨address, hw, hown⟩ := exists_address hsub (by omega)
  refine ⟨address, selected, sum, hw, hsub.trans (ownOutputs_sublist w us), hown, hselect, hsum, ?_⟩
  rw [Int64.lt_iff_toInt_lt]
  omega

section

variable {w : Wallet} {recipient : GoString} {amount : Int64} {s : Storage} {services : Services}
  {us : List UTxO} {latest : List Transaction}

/-- If the wallet takes the answers in, then their numbers fit. -/
theorem answersFit_of_prepareTransfer {trans : WalletTransaction}
    (hunspent : services.unspent = .ok (TransactionUnspentOutputs.toJson us))
    (hlatest : services.latest = .ok (TransactionList.toJson ⟨latest⟩))
    (h : prepareTransfer w recipient amount s services = .ok trans) : AnswersFit us latest := by
  obtain ⟨own, hown, h⟩ := Except.bind_eq_ok_iff.mp h
  obtain ⟨body, hbody, hown⟩ := Except.bind_eq_ok_iff.mp hown
  obtain ⟨all, hall, -⟩ := Except.bind_eq_ok_iff.mp hown
  obtain ⟨body', hbody', h⟩ := Except.bind_eq_ok_iff.mp h
  obtain ⟨transactions, htransactions, -⟩ := Except.bind_eq_ok_iff.mp h
  cases hunspent.symm.trans hbody
  cases hlatest.symm.trans hbody'
  refine ⟨?_, ?_⟩
  · intro utxo hutxo
    obtain ⟨u, hu⟩ := Except.forall_of_mapM_eq_ok hall utxo.toJson (List.mem_map_of_mem hutxo)
    exact UTxO.fits_of_unmarshal hu
  · intro t ht
    obtain ⟨trans, htrans⟩ :=
      Except.forall_of_mapM_eq_ok htransactions t.toJson (List.mem_map_of_mem ht)
    exact Transaction.fits_of_unmarshal htrans

theorem unmarshal_latest (h : AnswersFit us latest) :
    Unmarshal.slice WalletTransaction.unmarshal (some (TransactionList.toJson ⟨latest⟩)) =
      .ok (latest.map Transaction.toGo) :=
  Except.mapM_map_eq_ok fun t ht => Transaction.unmarshal_toJson (h.latest t ht)

/-- Without the funds, the wallet prepares nothing. -/
theorem prepareTransfer_of_lt (htotal : total UTxO.amount us < 2 ^ 63)
    (hunspent : services.unspent = .ok (TransactionUnspentOutputs.toJson us))
    (hlatest : services.latest = .ok (TransactionList.toJson ⟨latest⟩)) (hamount : 0 ≤ amount)
    (hlt : total UTxO.amount (ownOutputs w us) < amount.toUInt64.toNat) :
    ∃ e, prepareTransfer w recipient amount s services = .error e := by
  cases hprepare : prepareTransfer w recipient amount s services with
  | error e => exact ⟨e, rfl⟩
  | ok trans =>
    have hfits := answersFit_of_prepareTransfer hunspent hlatest hprepare
    obtain ⟨selected, rest, sum, hsplit, hselect, hsum, -⟩ :=
      selectOutputs_ownOutputs amount htotal
    have hle := total_le_of_sublist (List.sublist_append_left selected rest)
    have hnat := toNat_toUInt64 hamount
    have hless : sum < amount := by
      rw [Int64.lt_iff_toInt_lt, hsum]
      rw [hsplit] at hlt
      omega
    rw [prepareTransfer, walletUnspentOutputs_eq hunspent hfits.unspent, hlatest] at hprepare
    simp only [unmarshal_latest hfits, hselect, hless, if_true, bind, Except.bind] at hprepare
    cases latest <;> cases hprepare

end

/-- With the funds, it prepares a transaction that the node takes. -/
theorem prepareTransfer_of_le [Env] {w : Wallet} {recipient : String} {amount : Int64}
    {s : Storage} {services : Services} {us : List UTxO} {t : Transaction} {ts : List Transaction}
    (hsum256 : ∀ text, Env.hash text = ⟨services.sum256 (ofString text)⟩)
    (hnodup : (us.map UTxO.ref).Nodup) (htotal : total UTxO.amount us < 2 ^ 63)
    (hunspent : services.unspent = .ok (TransactionUnspentOutputs.toJson us))
    (hlatest : services.latest = .ok (TransactionList.toJson ⟨t :: ts⟩))
    (haddress : w.address ≠ []) (hkey : w.VerifiesOwn s services) (hamount : 0 < amount)
    (hle : amount.toUInt64.toNat ≤ total UTxO.amount (ownOutputs w us))
    (hfits : AnswersFit us (t :: ts)) (hindex : t.index.toNat + 1 < 2 ^ 63) :
    ∃ sent : Transaction, prepareTransfer w (ofString recipient) amount s services = .ok sent.toGo ∧
      sent.Fits ∧ sent.unlinked = sent ∧
      Transfers us w recipient amount.toUInt64.toNat (t.index + 1) sent := by
  have hnonneg : 0 ≤ amount :=
    Int64.le_iff_toInt_le.mpr (Int64.lt_iff_toInt_lt.mp hamount).le
  have hnat := toNat_toUInt64 hnonneg
  obtain ⟨address, selected, sum, hw, hsub, hown, hselect, hsum, hless⟩ :=
    exists_selection htotal hamount hle
  have hselected : total UTxO.amount selected < 2 ^ 63 :=
    (total_le_of_sublist hsub).trans_lt htotal
  have henough : amount.toInt ≤ sum.toInt := by
    rw [Int64.lt_iff_toInt_lt] at hless
    omega
  have hnext : FitsInt (t.index + 1) := by
    unfold FitsInt
    rw [UInt64.toNat_add, UInt64.toNat_one]
    omega
  obtain ⟨text, htext⟩ : ∃ text, (transferOf w (ofString recipient) amount (t.index + 1).toInt64 sum
      (selected.map UTxO.toGo)).hashText = text := ⟨_, rfl⟩
  obtain ⟨keyStr, hkeyStr, hsign⟩ := hkey
  obtain ⟨signature, hsignature, hverify⟩ := hsign text
  obtain ⟨sent, hsent⟩ : ∃ sent, sentTransaction address recipient amount.toUInt64 (t.index + 1)
      selected ⟨services.sum256 text⟩ ⟨signature⟩ = sent := ⟨_, rfl⟩
  have hsigned : (transferOf w (ofString recipient) amount (t.index + 1).toInt64 sum
      (selected.map UTxO.toGo)).signed (Hex.encodeToString (services.sum256 text))
        (Hex.encodeToString signature) = sent.toGo := by
    rw [← hsent]
    exact signed_transferOf hw hnonneg hsum
  have hsentFits : sent.Fits := by
    rw [← hsent]
    exact sentTransaction_fits hnext
      (fun utxo hutxo => (hfits.unspent utxo (hsub.subset hutxo)).outputIndex)
      (fitsInt_toUInt64 hnonneg) hselected
  have hhash : sent.determineHash = ⟨services.sum256 text⟩ := by
    rw [determineHash_eq_sum256 hsum256 hsentFits, ← hsigned, hashText_signed, htext]
  have htransfers : Transfers us w recipient amount.toUInt64.toNat (t.index + 1) sent := by
    rw [← hsent] at hhash ⊢
    exact sentTransaction_transfers hnodup hw haddress hsub hown (by omega) (by omega) hhash.symm
      (hverify address hw)
  refine ⟨sent, ?_, hsentFits, ?_, htransfers⟩
  · have hnextIndex : t.toGo.index + 1 = (t.index + 1).toInt64 := (UInt64.toInt64_add ..).symm
    rw [prepareTransfer, walletUnspentOutputs_eq hunspent hfits.unspent, hlatest]
    simp only [unmarshal_latest hfits, hselect, hless, hkeyStr, hnextIndex, htext, hsignature,
      hsigned, List.map_cons, if_false, bind, Except.bind, pure, Except.pure]
  · rw [← hsent]
    rfl

/-- The wallet and the node agree on transfers: either the wallet posts nothing, or what it
    posts is a transfer to the node. -/
theorem walletTransfer_agrees [Env] {dir sender : GoString} (recipient : String) {amount : Int64}
    {s : Storage} {services : Services} {w : Wallet} {us : List UTxO} {t : Transaction}
    {ts : List Transaction} (hsum256 : ∀ text, Env.hash text = ⟨services.sum256 (ofString text)⟩)
    (hfound : (findWallet dir sender s).1 = .ok (some w)) (hnodup : (us.map UTxO.ref).Nodup)
    (htotal : total UTxO.amount us < 2 ^ 63)
    (hunspent : services.unspent = .ok (TransactionUnspentOutputs.toJson us))
    (hlatest : services.latest = .ok (TransactionList.toJson ⟨t :: ts⟩))
    (haddress : w.address ≠ []) (hkey : w.VerifiesOwn s services) (hamount : 0 < amount) :
    (total UTxO.amount (ownOutputs w us) < amount.toUInt64.toNat ∨ ¬ AnswersFit us (t :: ts) →
      ∃ e, walletTransfer dir sender (ofString recipient) amount s services = (.error e, [])) ∧
    (amount.toUInt64.toNat ≤ total UTxO.amount (ownOutputs w us) → AnswersFit us (t :: ts) →
      t.index.toNat + 1 < 2 ^ 63 →
      ∃ j sent, walletTransfer dir sender (ofString recipient) amount s services =
          (services.post, [j]) ∧
        Transaction.fromJson j = .ok sent ∧
        Transfers us w recipient amount.toUInt64.toNat (t.index + 1) sent) := by
  have hfind : findWallet dir sender s = (.ok (some w), s.openFile (walletsFilePath dir)) :=
    Prod.ext hfound (findWallet_snd dir sender s)
  obtain ⟨keyStr, hkeyStr, hsign⟩ := hkey
  have hkey : w.VerifiesOwn (s.openFile (walletsFilePath dir)) services :=
    ⟨keyStr, Storage.files_openFile hkeyStr _, hsign⟩
  have hnonneg : 0 ≤ amount :=
    Int64.le_iff_toInt_le.mpr (Int64.lt_iff_toInt_lt.mp hamount).le
  rw [walletTransfer, hfind]
  refine ⟨?_, ?_⟩
  · intro hnone
    have hprepare : ∃ e, prepareTransfer w (ofString recipient) amount
        (s.openFile (walletsFilePath dir)) services = .error e := by
      rcases hnone with hlt | hfits
      · exact prepareTransfer_of_lt htotal hunspent hlatest hnonneg hlt
      · cases hprepare : prepareTransfer w (ofString recipient) amount
            (s.openFile (walletsFilePath dir)) services with
        | error e => exact ⟨e, rfl⟩
        | ok trans => exact absurd (answersFit_of_prepareTransfer hunspent hlatest hprepare) hfits
    obtain ⟨e, he⟩ := hprepare
    refine ⟨e, ?_⟩
    simp only [he]
  · intro hle hfits hindex
    obtain ⟨sent, hprepare, hsent, hunlinked, htransfers⟩ := prepareTransfer_of_le hsum256 hnodup
      htotal hunspent hlatest haddress hkey hamount hle hfits hindex
    refine ⟨sent.toJson, sent, ?_, ?_, htransfers⟩
    · simp only [hprepare, Transaction.toJson_toGo hsent]
    · rw [Transaction.fromJson_toJson, hunlinked]

/-! ## A transfer from Alice to Bob -/

def storageDir : GoString := ofString ".buenzli"

def alice : Wallet where
  name := ofString "alice"
  key := keyFilePath storageDir (ofString "alice")
  address := ofString "QUJD"

/-- A storage directory with the wallet of Alice. -/
def aliceStorage : Storage :=
  (Storage.empty.write alice.key (ofString "private")).write (walletsFilePath storageDir)
    (ofString "alice id_ecdsa_alice QUJD\n")

def aliceOutput : UTxO := ⟨⟨[1]⟩, 0, ⟨50, "QUJD"⟩⟩

/-- The only block has one transaction, with the index and the outputs. -/
def nodeOfAlice (index : UInt64) (outputs : List TxO) : Services where
  unspent := .ok (TransactionUnspentOutputs.toJson [aliceOutput])
  latest := .ok (TransactionList.toJson ⟨[⟨.standard, index, ⟨[2]⟩, [], outputs, []⟩]⟩)
  post := .ok ()
  sum256 text := text
  sign _ hash := .ok hash

def transferToBob (amount : Int64) (services : Services) : Except Failure Unit × List Json :=
  walletTransfer storageDir alice.name (ofString "bob") amount aliceStorage services

theorem findWallet_alice :
    (findWallet storageDir alice.name aliceStorage).1 = .ok (some alice) := by
  decide +kernel

theorem alice_verifiesOwn (index : UInt64) (outputs : List TxO) :
    letI := plainBuild
    alice.VerifiesOwn aliceStorage (nodeOfAlice index outputs) := by
  have hkey : aliceStorage.files alice.key = some (ofString "private") := by decide +kernel
  exact ⟨_, hkey, fun text => ⟨text, rfl, fun _ _ => rfl⟩⟩

/-- Of 50 coins, Alice cannot send 70, but 20. -/
theorem walletTransfer_agrees_bob :
    letI := plainBuild
    let node := nodeOfAlice 7 [⟨50, "miner"⟩]
    (∃ e, transferToBob 70 node = (.error e, [])) ∧
      ∃ j sent, transferToBob 20 node = (.ok (), [j]) ∧ Transaction.fromJson j = .ok sent ∧
        Transfers [aliceOutput] alice "bob" 20 8 sent := by
  let env := plainBuild
  intro node
  have hfits : AnswersFit [aliceOutput] [⟨.standard, 7, ⟨[2]⟩, [], [⟨50, "miner"⟩], []⟩] := by
    refine ⟨?_, ?_⟩
    · intro utxo hutxo
      cases List.mem_singleton.mp hutxo
      exact ⟨by decide, by decide⟩
    · intro t ht
      cases List.mem_singleton.mp ht
      exact ⟨by decide, List.forall_mem_nil _, by decide⟩
  have hkey := alice_verifiesOwn 7 [⟨50, "miner"⟩]
  have haddress : alice.address ≠ [] := by decide +kernel
  refine ⟨?_, ?_⟩
  · have hagrees := walletTransfer_agrees "bob" (fun _ => rfl) findWallet_alice (by decide)
      (by decide) rfl rfl haddress hkey (show 0 < (70 : Int64) by decide)
    exact hagrees.1 (.inl (by decide +kernel))
  · have hagrees := walletTransfer_agrees "bob" (fun _ => rfl) findWallet_alice (by decide)
      (by decide) rfl rfl haddress hkey (show 0 < (20 : Int64) by decide)
    exact hagrees.2 (by decide +kernel) hfits (by decide)

/-- The wallet does not take in an amount of 2 ^ 63, and its index after 2 ^ 63 - 1 is
    negative, which the node does not hash in the same way. -/
theorem walletTransfer_of_large :
    letI := plainBuild
    let node := nodeOfAlice 7 [⟨2 ^ 63, "miner"⟩]
    let node' := nodeOfAlice (2 ^ 63 - 1) [⟨50, "miner"⟩]
    (findWallet storageDir alice.name aliceStorage).1 = .ok (some alice) ∧
      20 ≤ total UTxO.amount (ownOutputs alice [aliceOutput]) ∧
      alice.VerifiesOwn aliceStorage node ∧
      transferToBob 20 node = (.error (.library "encoding/json"), []) ∧
      alice.VerifiesOwn aliceStorage node' ∧
      ((transferToBob 20 node').2.map fun j => (Transaction.fromJson j).map fun sent =>
        (sent.updateUnspentOutputs [aliceOutput]).validStandard) =
        [.ok (.error "invalid hash")] := by
  let env := plainBuild
  intro node node'
  refine ⟨findWallet_alice, by decide +kernel, alice_verifiesOwn .., ?_, alice_verifiesOwn ..,
    by decide +kernel⟩
  have hnothing : (transferToBob 20 node).2.isEmpty := by decide +kernel
  exact Prod.ext (by decide +kernel) (List.isEmpty_iff.mp hnothing)

end BuenzliCoin
