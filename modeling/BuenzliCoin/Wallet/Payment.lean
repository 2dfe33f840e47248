-- SUMMARY: What a transfer of the wallet comes to, once the node has mined the next block.
import BuenzliCoin.Ledger.Balance
import BuenzliCoin.Node.Failure
import BuenzliCoin.Node.Supply
import BuenzliCoin.Wallet.Commands

/-!
# Payment

Between the command `transfer` of the wallet and the next block of the node nothing
gets lost: the amount leaves the address of the wallet and arrives at the recipient,
and no other address but that of the miner holds more or less than before.
-/

namespace BuenzliCoin

open CoinHistory GoString Runs TransactionUnspentOutputs

-- ---------------------------------------------------------------------------
-- Holdings
-- ---------------------------------------------------------------------------

/-- What an output is worth to an address. -/
def amountFor (address : String) (utxo : UTxO) : Nat :=
  if utxo.output.address = address then utxo.amount else 0

/-- What an address holds. -/
def holdings (us : List UTxO) (address : String) : Nat :=
  total UTxO.amount (us.filter fun utxo => utxo.output.address = address)

theorem total_amountFor (address : String) (us : List UTxO) :
    total (amountFor address) us = holdings us address :=
  total_ite UTxO.amount (fun utxo => utxo.output.address = address) us

theorem total_ownOutputs {w : Wallet} {address : String} (haddress : ofString address = w.address)
    (us : List UTxO) : total UTxO.amount (ownOutputs w us) = holdings us address := by
  have hown : ∀ utxo : UTxO,
      ofString utxo.output.address = w.address ↔ utxo.output.address = address := by
    intro utxo
    rw [← haddress]
    exact ofString_injective.eq_iff
  simp only [ownOutputs, holdings, hown]

/-- What the outputs of a transaction are worth to an address. -/
theorem total_amountFor_newUnspentOutputs (address : String) (t : Transaction) :
    total (amountFor address) t.newUnspentOutputs =
      ((t.outputs.map fun txo => (txo.amount.toNat, txo.address)).map fun paid =>
        if paid.2 = address then paid.1 else 0).sum := by
  have hfst : t.newUnspentOutputs.map (amountFor address) =
      t.outputs.map fun txo => if txo.address = address then txo.amount.toNat else 0 := by
    rw [Transaction.newUnspentOutputs, List.map_map]
    conv_rhs => rw [← List.zipIdx_map_fst 0 t.outputs, List.map_map]
    rfl
  rw [total, hfst, List.map_map]
  rfl

/-- An amount has left the payer for the recipient, and a reward has gone to the miner. -/
def Paid [Env] (us us' : List UTxO) (payer : GoString) (recipient miner : String)
    (amount : Nat) : Prop :=
  ∀ address, holdings us' address + (if ofString address = payer then amount else 0) =
    holdings us address + (if address = recipient then amount else 0) +
      (if address = miner then config.transactionRewardAmount.toNat else 0)

/-! ## The balance -/

namespace Unmarshal

theorem onlyFails_string (j : Option Json) : (string j).OnlyFails (· = mismatch) := by
  unfold string
  split <;> simp

theorem onlyFails_int (j : Option Json) : (int j).OnlyFails (· = mismatch) := by
  unfold int
  split
  case h_3 => split <;> simp
  all_goals simp

theorem onlyFails_fields (j : Option Json) : (fields j).OnlyFails (· = mismatch) := by
  unfold fields
  split <;> simp

theorem onlyFails_slice {α : Type} {decode : Option Json → Except Failure α}
    (h : ∀ j, (decode j).OnlyFails (· = mismatch)) (j : Option Json) :
    (slice decode j).OnlyFails (· = mismatch) := by
  unfold slice
  split
  case h_3 items => exact Except.onlyFails_mapM (fun j => h (some j)) items
  all_goals simp

theorem onlyFails_unspentOutput (j : Option Json) :
    (TransactionUnspentOutput.unmarshal j).OnlyFails (· = mismatch) := by
  simp only [TransactionUnspentOutput.unmarshal, TransactionOutput.unmarshal,
    Except.onlyFails_bind_iff, onlyFails_fields, onlyFails_string, onlyFails_int,
    Except.onlyFails_pure, implies_true, and_self]

end Unmarshal

/-- The sum in an `int`, which wraps around. -/
theorem foldl_amounts (us : List UTxO) (start : Nat) :
    (us.map UTxO.toGo).foldl (fun balance unspentOutput =>
      balance + unspentOutput.output.amount) (Int64.ofNat start) =
        Int64.ofNat (start + total UTxO.amount us) := by
  induction us generalizing start with
  | nil => rfl
  | cons utxo us ih =>
    have hcons : total UTxO.amount (utxo :: us) = utxo.amount + total UTxO.amount us := rfl
    have hamount : utxo.toGo.output.amount = Int64.ofNat utxo.amount := by
      change utxo.output.amount.toInt64 = Int64.ofNat utxo.output.amount.toNat
      rw [← Int64.toBitVec_inj, UInt64.toBitVec_toInt64]
      simp
    rw [List.map_cons, List.foldl_cons, hamount, ← Int64.ofNat_add, ih, hcons, Nat.add_assoc]

/-- The wallet takes in the unspent outputs of the node if all their numbers fit. -/
theorem walletUnspentOutputs_eq_error {w : Wallet} {services : Services} {us : List UTxO}
    (hunspent : services.unspent = .ok (TransactionUnspentOutputs.toJson us))
    (hfits : ¬ ∀ utxo ∈ us, utxo.Fits) :
    walletUnspentOutputs w services = .error Unmarshal.mismatch := by
  have hfails : (walletUnspentOutputs w services).OnlyFails (· = Unmarshal.mismatch) := by
    simp only [walletUnspentOutputs, hunspent, Except.onlyFails_bind_iff, Except.onlyFails_ok,
      Unmarshal.onlyFails_slice Unmarshal.onlyFails_unspentOutput, Except.onlyFails_pure,
      implies_true, and_self]
  cases howns : walletUnspentOutputs w services with
  | error e => rw [hfails e howns]
  | ok own =>
    obtain ⟨body, hbody, hrest⟩ := Except.bind_eq_ok_iff.mp howns
    obtain ⟨all, hall, -⟩ := Except.bind_eq_ok_iff.mp hrest
    cases hunspent.symm.trans hbody
    refine absurd (fun utxo hutxo => ?_) hfits
    obtain ⟨u, hu⟩ := Except.forall_of_mapM_eq_ok hall utxo.toJson (List.mem_map_of_mem hutxo)
    exact UTxO.fits_of_unmarshal hu

/-- The command `balance` prints what the address of the wallet holds, as far as an `int`
    can, unless an output of whomever has a number that does not fit one. -/
theorem walletBalance_facing [Env] {dir owner : GoString} {s : Storage} {w : Wallet}
    {address : String} (services : Services) (n : Node TransactionList)
    (hfound : (findWallet dir owner s).1 = .ok (some w)) (haddress : ofString address = w.address) :
    ((∀ utxo ∈ n.unspentOutputs, utxo.Fits) →
      walletBalance dir owner s (services.facing n) =
        .ok (Int64.ofNat (holdings n.unspentOutputs address))) ∧
    ((¬ ∀ utxo ∈ n.unspentOutputs, utxo.Fits) →
      walletBalance dir owner s (services.facing n) = .error Unmarshal.mismatch) := by
  have hfind : findWallet dir owner s = (.ok (some w), s.openFile (walletsFilePath dir)) :=
    Prod.ext hfound (findWallet_snd dir owner s)
  constructor
  · intro hfits
    have hown : walletUnspentOutputs w (services.facing n) =
        .ok ((ownOutputs w n.unspentOutputs).map UTxO.toGo) := walletUnspentOutputs_eq rfl hfits
    have hsum := foldl_amounts (ownOutputs w n.unspentOutputs) 0
    rw [total_ownOutputs haddress, Nat.zero_add] at hsum
    simp only [walletBalance, hfind, hown, bind, Except.bind, pure, Except.pure]
    exact congrArg Except.ok hsum
  · intro hfits
    have hown : walletUnspentOutputs w (services.facing n) = .error Unmarshal.mismatch :=
      walletUnspentOutputs_eq_error rfl hfits
    simp only [walletBalance, hfind, hown, bind, Except.bind]

-- ---------------------------------------------------------------------------
-- The block
-- ---------------------------------------------------------------------------

section

variable [Env] {h : List (Transfer OutputRef UTxO)} {us : List UTxO} {w : Wallet}
  {recipient miner : String} {amount : Nat} {index : UInt64} {t : Transaction}

/-- What a transfer means to an address, among coins that include what it spends. -/
theorem Transfers.amountFor (ht : Transfers us w recipient amount index t) (address : String)
    (hnodup : ((created h).map UTxO.ref).Nodup) (hsub : us ⊆ created h) :
    total (amountFor address) t.newUnspentOutputs +
        (if ofString address = w.address then amount else 0) =
      (t.refs.map (amountAt UTxO.ref (BuenzliCoin.amountFor address) (created h))).sum +
        (if address = recipient then amount else 0) := by
  obtain ⟨own, selected, hown, hselected, hall, hrefs, hle, houtputs⟩ := ht.outputs
  have hspent : (t.refs.map (amountAt UTxO.ref (BuenzliCoin.amountFor address) (created h))).sum =
      if own = address then total UTxO.amount selected else 0 := by
    have hamounts : t.refs.map (amountAt UTxO.ref (BuenzliCoin.amountFor address) (created h)) =
        selected.map fun utxo => if own = address then utxo.amount else 0 := by
      rw [hrefs, List.map_map]
      refine List.map_congr_left fun utxo hutxo => ?_
      have hcoin := amountAt_of_mem (BuenzliCoin.amountFor address) hnodup
        (hsub (hselected.subset hutxo))
      rw [Function.comp_apply, hcoin, BuenzliCoin.amountFor, hall utxo hutxo]
    rw [hamounts]
    split_ifs
    · rfl
    · simp
  have hpayer : ofString address = w.address ↔ own = address := by
    rw [← hown, ofString_injective.eq_iff, eq_comm]
  have hpaid : recipient = address ↔ address = recipient := eq_comm
  rw [total_amountFor_newUnspentOutputs, houtputs, hspent]
  by_cases hrest : amount < total UTxO.amount selected
  · simp only [if_pos hrest, List.map_cons, List.map_nil, List.sum_cons, List.sum_nil, hpayer,
      hpaid]
    split_ifs <;> omega
  · simp only [if_neg hrest, List.map_cons, List.map_nil, List.sum_cons, List.sum_nil, hpayer,
      hpaid]
    split_ifs <;> omega

/-- A reward and a transfer fit a history that leaves what the transfer spends. -/
theorem Transfers.fitsBlock (ht : Transfers (unspent UTxO.ref h) w recipient amount index t)
    (hs : Sound UTxO.ref h) (hfresh : ((created h ++ created ([Transaction.reward miner index,
      t].map Transaction.transfer)).map UTxO.ref).Nodup) :
    FitsBlock UTxO.ref h ([Transaction.reward miner index, t].map Transaction.transfer) := by
  obtain ⟨-, selected, -, hselected, -, hrefs, -, -⟩ := ht.outputs
  have hspent : spent ([Transaction.reward miner index, t].map Transaction.transfer) =
      selected.map UTxO.ref := by
    rw [spent_map_transfer, ← hrefs]
    exact List.append_nil _
  have hlisted : (selected.map UTxO.ref).Sublist ((unspent UTxO.ref h).map UTxO.ref) :=
    hselected.map UTxO.ref
  refine ⟨hfresh, ?_, ?_⟩
  · rw [hspent]
    exact hs.createdNodup.sublist (hlisted.trans ((unspent_sublist h).map UTxO.ref))
  · rw [hspent]
    exact hlisted.subset

/-- What a block of a reward and a transfer moves. -/
theorem Transfers.paid (ht : Transfers (unspent UTxO.ref h) w recipient amount index t)
    (hs : Sound UTxO.ref h) (hfresh : ((created h ++ created ([Transaction.reward miner index,
      t].map Transaction.transfer)).map UTxO.ref).Nodup) :
    Paid (unspent UTxO.ref h)
      (updateAll (unspent UTxO.ref h) [Transaction.reward miner index, t])
      w.address recipient miner amount := by
  intro address
  have hfits := ht.fitsBlock hs hfresh
  -- Each transaction comes with what it mints and burns, from where the address stands.
  let moves : List (Transaction × ℕ × ℕ) := [
    (Transaction.reward miner index,
      if address = miner then config.transactionRewardAmount.toNat else 0, 0),
    (t, if address = recipient then amount else 0,
      if ofString address = w.address then amount else 0)]
  have hreward : total (BuenzliCoin.amountFor address)
      (Transaction.reward miner index).newUnspentOutputs =
      if address = miner then config.transactionRewardAmount.toNat else 0 := by
    rw [total_amountFor_newUnspentOutputs]
    simp [Transaction.reward, eq_comm]
  have htransfer := ht.amountFor address hs.createdNodup (unspent_sublist h).subset
  have hmoves : ∀ x ∈ moves, total (BuenzliCoin.amountFor address) x.1.newUnspentOutputs + x.2.2 =
      (x.1.refs.map (amountAt UTxO.ref (BuenzliCoin.amountFor address) (created h))).sum + x.2.1 :=
    List.forall_mem_cons.mpr ⟨by simpa [Transaction.refs, Transaction.reward] using hreward,
      List.forall_mem_singleton.mpr htransfer⟩
  have hblock : FitsBlock UTxO.ref h (moves.map fun x => x.1.transfer) := hfits
  have hconserved := total_unspent_append_block (BuenzliCoin.amountFor address) hs hblock hmoves
  rw [updateAll_unspent hs hfits, ← total_amountFor, ← total_amountFor]
  simp only [moves, List.map_cons, List.map_nil, List.sum_cons, List.sum_nil] at hconserved ⊢
  omega

end

-- ---------------------------------------------------------------------------
-- The node
-- ---------------------------------------------------------------------------

namespace Node

variable [Env]

/-- A node with nothing in its pool takes in a transfer. -/
theorem handle_transfer {n : Node TransactionList} {clock : Clock} {j : Json} {t : Transaction}
    {w : Wallet} {recipient : String} {amount : Nat} {index : UInt64}
    (hpool : n.unconfirmedPool = []) (hsome : 0 < config.transactionNumPerBlock)
    (hdecoded : Transaction.fromJson j = .ok t)
    (ht : Transfers n.unspentOutputs w recipient amount index t) :
    n.handle clock (.other (.transactionsPost j)) = some {
      node := { n with members :=
        { n.ledger with unconfirmedPool := [t.updateUnspentOutputs n.unspentOutputs] } }
      answer := .ok .null
      tasks := [.broadcastTransaction (t.updateUnspentOutputs n.unspentOutputs)] } := by
  have hvalid : (t.updateUnspentOutputs n.unspentOutputs).valid = .ok () := by
    have htype : (t.updateUnspentOutputs n.unspentOutputs).type = .standard := ht.type
    rw [Transaction.valid, htype]
    exact ht.valid
  refine handleTransactionsPost_of_valid hdecoded ?_
  rw [hpool]
  refine TransactionUnconfirmedPool.add_eq_ok.mpr ⟨?_, hvalid, rfl, rfl⟩
  have hpos := UInt64.lt_iff_toNat_lt.mp hsome
  rw [List.length_nil]
  exact hpos.ne

section

variable {n : Node TransactionList} {clock : Clock} {data : Json} {fuel : Nat} {t : Transaction}
  {w : Wallet} {recipient miner : String} {amount : Nat}

/-- The outputs of a reward and of the transactions in the pool have keys that no output
    on the chain has, nor another one of them. -/
def CreatesFresh (n : Node TransactionList) (miner : String) : Prop :=
  (((n.blockchain.transactions ++ Transaction.reward miner (UInt64.ofNat n.blockchain.length) ::
    n.unconfirmedPool).flatMap Transaction.newUnspentOutputs).map UTxO.ref).Nodup

theorem CreatesFresh.fitsBlock (h : n.CreatesFresh miner) (htracked : n.Tracked)
    (hpool : n.unconfirmedPool = [t])
    (ht : Transfers n.unspentOutputs w recipient amount (UInt64.ofNat n.blockchain.length) t) :
    ((created n.blockchain.history ++ created ([Transaction.reward miner
      (UInt64.ofNat n.blockchain.length), t].map Transaction.transfer)).map UTxO.ref).Nodup ∧
    FitsBlock UTxO.ref n.blockchain.history ([Transaction.reward miner
      (UInt64.ofNat n.blockchain.length), t].map Transaction.transfer) := by
  have hfresh : ((created n.blockchain.history ++ created ([Transaction.reward miner
      (UInt64.ofNat n.blockchain.length), t].map Transaction.transfer)).map UTxO.ref).Nodup := by
    rw [Blockchain.history, created_map_transfer, created_map_transfer, ← List.flatMap_append]
    unfold CreatesFresh at h
    rwa [hpool] at h
  rw [htracked.unspentOutputs] at ht
  exact ⟨hfresh, ht.fitsBlock htracked.sound hfresh⟩

/-- With no search for a nonce, and no loop that erases the last entry of a list, the next
    request for a block is served. -/
theorem PoolSound.exists_reply_of_transfers (h : n.PoolSound) (htracked : n.Tracked)
    (hpow : ¬ Env.proofOfWork) (hpool : n.unconfirmedPool = [t])
    (ht : Transfers n.unspentOutputs w recipient amount (UInt64.ofNat n.blockchain.length) t)
    (haddress : rewardAddress data = .ok miner) (hfresh : n.CreatesFresh miner) :
    ∃ reply, n.handle clock (.blocksPost data fuel) = some reply := by
  refine exists_handle_iff.mpr fun d members hassembled => ?_
  rw [h.assemble_of_rewardAddress haddress, hpool] at hassembled
  cases hassembled
  obtain ⟨-, hfits⟩ := hfresh.fitsBlock htracked hpool ht
  have houtputs : ∀ t' ∈ [Transaction.reward miner (UInt64.ofNat n.blockchain.length), t],
      t'.outputs ≠ [] := by
    obtain ⟨own, selected, -, -, -, -, -, hpaid⟩ := ht.outputs
    refine List.forall_mem_cons.mpr ⟨List.cons_ne_nil _ _, List.forall_mem_singleton.mpr ?_⟩
    intro hnil
    rw [hnil] at hpaid
    cases hpaid
  have hunspent : n.ledger.unspentOutputs = unspent UTxO.ref n.blockchain.history :=
    htracked.unspentOutputs
  have hlist := updateAll?_unspent htracked.sound hfits houtputs
  rw [← hunspent] at hlist
  obtain ⟨r, bc, hconstruct⟩ := Blockchain.exists_constructNextBlock hpow n.blockchain
    ⟨[Transaction.reward miner (UInt64.ofNat n.blockchain.length), t]⟩ clock fuel
  refine ⟨r, bc, hconstruct, fun _ => ?_⟩
  simp only [NodeData.mined, TransactionMembers.mined, hlist, bind, Option.bind_some]
  rfl

/-- A request for a block that is served after a transfer has been taken in is answered
    well, and the transfer is paid out. -/
theorem PoolSound.paid_of_transfers {reply : Reply TransactionList} (h : n.PoolSound)
    (htracked : n.Tracked) (hpool : n.unconfirmedPool = [t]) (hbound : BoundFits)
    (ht : Transfers n.unspentOutputs w recipient amount (UInt64.ofNat n.blockchain.length) t)
    (haddress : rewardAddress data = .ok miner) (hfresh : n.CreatesFresh miner)
    (htime : clock 0 - config.blockgenTimeMaxDelta < clock 1)
    (hroom : n.blockchain.length < Env.maxSize)
    (hhandle : n.handle clock (.blocksPost data fuel) = some reply) :
    reply.answer = .ok .null ∧ reply.node.blockchain.length = n.blockchain.length + 1 ∧
      Paid n.unspentOutputs reply.node.unspentOutputs w.address recipient miner amount := by
  obtain ⟨hcreated, -⟩ := hfresh.fitsBlock htracked hpool ht
  have hassemble := h.assemble_of_rewardAddress haddress
  obtain ⟨r, bc, hconstruct, -⟩ := h.exists_construct haddress hhandle
  obtain rfl : r = .ok () := by
    refine (h.construct_eq_ok_iff hconstruct).mpr ⟨hbound, ?_, htime, hroom⟩
    rw [hpool]
    exact List.forall_mem_singleton.mpr ⟨ht.type, ht.index⟩
  obtain ⟨e, herror, -⟩ | ⟨e, herror, -⟩ | ⟨-, b, hadded⟩ :=
    Blockchain.constructNextBlock_cases hconstruct
  · cases herror
  · cases herror
  · simp only [handle, handleBlocksPost, hassemble, hconstruct] at hhandle
    obtain ⟨members, hmined, hhandle⟩ := Option.bind_eq_some_iff.mp hhandle
    cases hhandle
    refine ⟨rfl, ?_, ?_⟩
    · rw [Blockchain.length, hadded.blocks, List.length_append]
      rfl
    · have hutxos : members.unspentOutputs = updateAll n.unspentOutputs
          [Transaction.reward miner (UInt64.ofNat n.blockchain.length), t] := by
        rw [(TransactionMembers.mined_eq_some hmined).1, hpool]
        rfl
      have hpaid := ht
      rw [htracked.unspentOutputs] at hpaid
      change Paid n.unspentOutputs members.unspentOutputs _ _ _ _
      rw [hutxos, htracked.unspentOutputs]
      exact hpaid.paid htracked.sound hcreated

end

theorem dataValid_of_run {host : String} {port : UInt16}
    {inputs : List (Clock × Call TransactionList)} {n : Node TransactionList}
    (hrun : run Node.step (new host port) inputs = some n) :
    ∀ b ∈ n.blockchain.blocks, b.data.valid b.index = .ok () := by
  let dataValid (bs : List (Block TransactionList)) : Prop :=
    ∀ b ∈ bs, b.data.valid b.index = .ok ()
  have hnew : dataValid (new host port : Node TransactionList).blockchain.blocks :=
    List.forall_mem_nil _
  refine (EveryState.of_invariant (P := fun n => dataValid n.blockchain.blocks) ?_ hnew).last hrun
  intro n input n' hn hstep
  obtain ⟨reply, hhandle, rfl⟩ := step_eq_some.mp hstep
  refine (handle_chainStep hhandle).blocks_induction hn (List.forall_mem_nil _) ?_
  intro bc b bc' hbc hadded b' hb'
  rw [hadded.blocks, List.mem_append, List.mem_singleton] at hb'
  rcases hb' with hb' | rfl
  · exact hbc b' hb'
  · exact hadded.dataValid

/-- The transactions of the latest block have the index before that of the next one. -/
theorem exists_latest {n : Node TransactionList} (services : Services) (h : n.PoolSound)
    (hvalid : ∀ b ∈ n.blockchain.blocks, b.data.valid b.index = .ok ())
    (hne : n.blockchain.blocks ≠ []) :
    ∃ ts : TransactionList, (services.facing n).latest = .ok ts.toJson ∧
      ∀ t ∈ ts.transactions, t.index.toNat + 1 = n.blockchain.length ∧
        t.index + 1 = UInt64.ofNat n.blockchain.length := by
  have hlast := List.getLast?_eq_some_getLast hne
  have hlatest : (services.facing n).latest =
      .ok (n.blockchain.blocks.getLast hne).data.toJson := by
    simp only [Services.facing, Node.get, TransactionMembers.serve, List.getLast?_map, hlast,
      Option.map_some]
  have hpos := List.length_pos_iff.mpr hne
  have hbound := h.numbered.length_le
  have hsize := Env.maxSize_lt
  have hnumber :
      (n.blockchain.blocks.getLast hne).index.toNat = n.blockchain.blocks.length - 1 := by
    rw [List.getLast_eq_getElem]
    exact h.numbered.index _ _
  refine ⟨_, hlatest, fun t ht => ?_⟩
  have hindex := ((TransactionList.valid_eq_ok.mp (hvalid _ (List.getLast_mem hne))).2.1 t ht).1
  rw [hindex, Blockchain.length]
  refine ⟨by omega, UInt64.toNat_inj.mp ?_⟩
  rw [UInt64.toNat_add, UInt64.toNat_ofNat', UInt64.toNat_one]
  omega

end Node

-- ---------------------------------------------------------------------------
-- The wallet
-- ---------------------------------------------------------------------------

section

variable {dir sender : GoString} {recipient : GoString} {amount : Int64} {s : Storage}
  {services : Services} {w : Wallet} {us : List UTxO} {latest : List Transaction}

theorem prepared_of_walletTransfer {r : Except Failure Unit} {j : Json}
    (hfound : (findWallet dir sender s).1 = .ok (some w))
    (h : walletTransfer dir sender recipient amount s services = (r, [j])) :
    ∃ trans, prepareTransfer w recipient amount (s.openFile (walletsFilePath dir)) services =
      .ok trans ∧ j = trans.toJson := by
  have hfind : findWallet dir sender s = (.ok (some w), s.openFile (walletsFilePath dir)) :=
    Prod.ext hfound (findWallet_snd dir sender s)
  simp only [walletTransfer, hfind] at h
  split at h
  · cases h
  · next trans hprepare =>
    cases h
    exact ⟨trans, hprepare, rfl⟩

/-- Without a transaction to follow, the wallet panics. -/
theorem latest_ne_nil_of_prepareTransfer {trans : WalletTransaction}
    (hlatest : services.latest = .ok (TransactionList.toJson ⟨latest⟩))
    (h : prepareTransfer w recipient amount s services = .ok trans) : latest ≠ [] := by
  rintro rfl
  obtain ⟨own, -, h⟩ := Except.bind_eq_ok_iff.mp h
  rw [hlatest] at h
  cases h

end

/-- What the wallet posts, the node takes for a transfer that follows its latest block. -/
theorem sent_of_walletTransfer [Env] {dir sender : GoString} {recipient : String} {amount : Int64}
    {s : Storage} {services : Services} {w : Wallet} {us : List UTxO} {latest : List Transaction}
    {r : Except Failure Unit} {j : Json}
    (hsum256 : ∀ text, Env.hash text = ⟨services.sum256 (ofString text)⟩)
    (hfound : (findWallet dir sender s).1 = .ok (some w)) (hnodup : (us.map UTxO.ref).Nodup)
    (htotal : total UTxO.amount us < 2 ^ 63)
    (hunspent : services.unspent = .ok (TransactionUnspentOutputs.toJson us))
    (hlatest : services.latest = .ok (TransactionList.toJson ⟨latest⟩))
    (hindex : ∀ t ∈ latest, t.index.toNat + 1 < 2 ^ 63) (haddress : w.address ≠ [])
    (hkey : w.VerifiesOwn s services) (hamount : 0 < amount)
    (h : walletTransfer dir sender (ofString recipient) amount s services = (r, [j])) :
    ∃ t ∈ latest, ∃ sent, Transaction.fromJson j = .ok sent ∧
      Transfers us w recipient amount.toUInt64.toNat (t.index + 1) sent := by
  obtain ⟨trans, hprepare, rfl⟩ := prepared_of_walletTransfer hfound h
  obtain ⟨keyStr, hkeyStr, hsign⟩ := hkey
  have hkey : w.VerifiesOwn (s.openFile (walletsFilePath dir)) services :=
    ⟨keyStr, Storage.files_openFile hkeyStr _, hsign⟩
  have hnonneg : 0 ≤ amount :=
    Int64.le_iff_toInt_le.mpr (Int64.lt_iff_toInt_lt.mp hamount).le
  have hfits := answersFit_of_prepareTransfer hunspent hlatest hprepare
  have hfunds : amount.toUInt64.toNat ≤ total UTxO.amount (ownOutputs w us) := by
    by_contra hlt
    obtain ⟨e, he⟩ := prepareTransfer_of_lt htotal hunspent hlatest hnonneg (not_le.mp hlt)
    rw [he] at hprepare
    cases hprepare
  obtain ⟨t, ts, rfl⟩ := List.exists_cons_of_ne_nil
    (latest_ne_nil_of_prepareTransfer hlatest hprepare)
  have ht : t ∈ t :: ts := List.mem_cons_self ..
  obtain ⟨sent, hsent, hsentFits, hunlinked, htransfers⟩ := prepareTransfer_of_le hsum256 hnodup
    htotal hunspent hlatest haddress hkey hamount hfunds hfits (hindex t ht)
  rw [hsent] at hprepare
  cases hprepare
  refine ⟨t, ht, sent, ?_, htransfers⟩
  rw [Transaction.toJson_toGo hsentFits, Transaction.fromJson_toJson, hunlinked]

/-- What a wallet reports to have transferred, a node in a run of regular calls takes in if
    its pool is empty, and pays to the recipient with the next block, whoever mines it. -/
theorem Node.paid_of_walletTransfer [Env] {host : String} {port : UInt16}
    {inputs : List (Clock × Call TransactionList)} {n : Node TransactionList}
    {dir sender : GoString} {recipient : String} {amount : Int64} {s : Storage}
    {services : Services} {w : Wallet} {j : Json}
    (hrun : run step (new host port) inputs = some n)
    (hregular : EveryStep step Regular (new host port) inputs)
    (hpool : n.unconfirmedPool = []) (htotal : total UTxO.amount n.unspentOutputs < 2 ^ 63)
    (hlength : n.blockchain.length < 2 ^ 63)
    (hsum256 : ∀ text, Env.hash text = ⟨services.sum256 (ofString text)⟩)
    (hfound : (findWallet dir sender s).1 = .ok (some w)) (haddress : w.address ≠ [])
    (hkey : w.VerifiesOwn s services) (hamount : 0 < amount)
    (htransfer : walletTransfer dir sender (ofString recipient) amount s (services.facing n) =
      (.ok (), [j]))
    (hsome : 0 < config.transactionNumPerBlock) (clock : Clock) :
    ∃ (pooled : Node TransactionList) (t : Transaction),
      n.handle clock (.other (.transactionsPost j)) =
        some { node := pooled, answer := .ok .null, tasks := [.broadcastTransaction t] } ∧
      pooled.blockchain = n.blockchain ∧ pooled.unconfirmedPool = [t] ∧
      ∀ (clock' : Clock) (data : Json) (fuel : Nat) (miner : String),
        rewardAddress data = .ok miner → BoundFits → pooled.CreatesFresh miner →
        clock' 0 - config.blockgenTimeMaxDelta < clock' 1 → n.blockchain.length < Env.maxSize →
        (¬ Env.proofOfWork → ∃ reply, pooled.handle clock' (.blocksPost data fuel) = some reply) ∧
        ∀ reply, pooled.handle clock' (.blocksPost data fuel) = some reply →
          reply.answer = .ok .null ∧ reply.node.blockchain.length = n.blockchain.length + 1 ∧
          Paid n.unspentOutputs reply.node.unspentOutputs w.address recipient miner
            amount.toUInt64.toNat := by
  have htracked : n.Tracked :=
    (hregular.everyState (fun _ _ _ hn hregular hstep => hn.step hregular hstep)
      (tracked_new host port)).last hrun
  have hsound := poolSound_of_run hrun
  have hnodup : (n.unspentOutputs.map UTxO.ref).Nodup := by
    rw [htracked.unspentOutputs]
    exact htracked.sound.createdNodup.sublist ((unspent_sublist _).map UTxO.ref)
  obtain ⟨trans, hprepare, -⟩ := prepared_of_walletTransfer hfound htransfer
  have hne : n.blockchain.blocks ≠ [] := by
    intro hempty
    obtain ⟨e, he⟩ := prepareTransfer_of_no_blocks hempty
    cases he.symm.trans hprepare
  obtain ⟨ts, hlatest, hindex⟩ := exists_latest services hsound (dataValid_of_run hrun) hne
  have hunspent : (services.facing n).unspent =
      .ok (TransactionUnspentOutputs.toJson n.unspentOutputs) := rfl
  have hverifies : w.VerifiesOwn s (services.facing n) := hkey
  have hhash : ∀ text, Env.hash text = ⟨(services.facing n).sum256 (ofString text)⟩ := hsum256
  obtain ⟨t, ht, sent, hdecoded, htransfers⟩ := sent_of_walletTransfer hhash hfound hnodup htotal
    hunspent hlatest (fun t ht => (hindex t ht).1 ▸ hlength) haddress hverifies hamount htransfer
  rw [(hindex t ht).2] at htransfers
  have hposted : n.handle clock (.other (.transactionsPost j)) = some _ :=
    handle_transfer hpool hsome hdecoded htransfers
  -- The node that has taken in the transfer is the next one of the run.
  have hstep : n.step (clock, .other (.transactionsPost j)) = some _ :=
    step_eq_some.mpr ⟨_, hposted, rfl⟩
  have hpooledSound := hsound.step hstep
  have hpooledTracked := htracked.step RegularSums.other.toRegular hstep
  have hlinked : Transfers n.unspentOutputs w recipient amount.toUInt64.toNat
      (UInt64.ofNat n.blockchain.length) (sent.updateUnspentOutputs n.unspentOutputs) :=
    ⟨htransfers.type, htransfers.index, htransfers.valid, htransfers.outputs⟩
  refine ⟨_, _, hposted, rfl, rfl, ?_⟩
  intro clock' data fuel miner hminer hbound hfresh htime hroom
  constructor
  · intro hpow
    exact hpooledSound.exists_reply_of_transfers hpooledTracked hpow rfl hlinked hminer hfresh
  · intro reply hhandle
    exact hpooledSound.paid_of_transfers hpooledTracked rfl hbound hlinked hminer hfresh htime
      hroom hhandle

/-! ## Alice pays Bob -/

/-- A request for a block whose reward goes to an address. -/
def rewardTo (address : String) : Json := .object [("address", .string address)]

def firstReward : Transaction :=
  letI := plainBuild
  Transaction.reward "QUJD" 0

/-- The node after a block whose reward has gone to Alice. -/
def nodeAfterReward : Node TransactionList where
  host := "localhost"
  port := 8332
  blockchain :=
    letI := plainBuild
    ⟨[Blockchain.new.nextBlock ⟨[firstReward]⟩ 0], .fresh⟩
  members := ({ unspentOutputs := firstReward.newUnspentOutputs, unconfirmedPool := [] } :
    TransactionMembers)
  peers := []

/-- The coins are Alice's. -/
theorem walletBalance_facing_alice :
    letI := plainBuild
    walletBalance storageDir alice.name aliceStorage
      ((nodeOfAlice 0 []).facing nodeAfterReward) = .ok 50 := by
  let env := plainBuild
  have hfits : ∀ utxo ∈ nodeAfterReward.unspentOutputs, utxo.Fits := by
    intro utxo hutxo
    obtain rfl := List.mem_singleton.mp hutxo
    exact ⟨by decide, by decide⟩
  have haddress : ofString "QUJD" = alice.address := rfl
  have hbalance :=
    (walletBalance_facing (nodeOfAlice 0 []) nodeAfterReward findWallet_alice haddress).1 hfits
  have hholdings : holdings nodeAfterReward.unspentOutputs "QUJD" = 50 := by decide
  rw [hbalance, hholdings]
  rfl

/-- What Alice sends, with her own 30 coins back. -/
def sentToBob : Transaction :=
  letI := plainBuild
  let hash := (sentTransaction "QUJD" "bob" 20 1 firstReward.newUnspentOutputs
    ⟨[]⟩ ⟨[]⟩).determineHash
  sentTransaction "QUJD" "bob" 20 1 firstReward.newUnspentOutputs hash hash

def sentToBobLinked : Transaction :=
  sentToBob.updateUnspentOutputs firstReward.newUnspentOutputs

theorem handle_firstReward :
    letI := plainBuild
    (Node.new "localhost" 8332 : Node TransactionList).handle .epoch
      (.blocksPost (rewardTo "QUJD") 0) =
        some ⟨nodeAfterReward, .ok .null, [.broadcastLatestBlock]⟩ := by
  let env := plainBuild
  have hdata : (TransactionList.mk [firstReward]).valid 0 = .ok () :=
    TransactionList.valid_of_reward (by decide) (by simp)
  have hhandle : (Node.new "localhost" 8332 : Node TransactionList).handle .epoch
      (.blocksPost (rewardTo "QUJD") 0) = some _ :=
    Node.handleBlocksPost_of_valid (by decide) rfl (by rfl) hdata (by decide) (by decide)
  exact hhandle

theorem walletTransfer_toBob :
    letI := plainBuild
    walletTransfer storageDir alice.name (ofString "bob") 20 aliceStorage
      ((nodeOfAlice 0 []).facing nodeAfterReward) = (.ok (), [sentToBob.toJson]) := by
  let env := plainBuild
  rfl

/-- The node takes in what Alice has sent. -/
theorem handle_sentToBob :
    letI := plainBuild
    nodeAfterReward.handle .epoch (.other (.transactionsPost sentToBob.toJson)) = some {
      node := { nodeAfterReward with members :=
        { nodeAfterReward.ledger with unconfirmedPool := [sentToBobLinked] } }
      answer := .ok .null
      tasks := [.broadcastTransaction sentToBobLinked] } := by
  let env := plainBuild
  have hvalid : sentToBobLinked.valid = .ok () := by decide +kernel
  exact Node.handleTransactionsPost_of_valid sentToBob.fromJson_toJson
    (TransactionUnconfirmedPool.add_eq_ok.mpr ⟨by decide, hvalid, rfl, rfl⟩)

/-- Alice keeps 30 coins, Bob gets 20, and Carol the reward. -/
theorem Node.paid_of_walletTransfer_bob :
    letI := plainBuild
    ∃ (n pooled : Node TransactionList) (reply : Reply TransactionList),
      run step (new "localhost" 8332) [(.epoch, .blocksPost (rewardTo "QUJD") 0)] = some n ∧
      walletTransfer storageDir alice.name (ofString "bob") 20 aliceStorage
        ((nodeOfAlice 0 []).facing n) = (.ok (), [sentToBob.toJson]) ∧
      n.handle .epoch (.other (.transactionsPost sentToBob.toJson)) = some
        { node := pooled, answer := .ok .null, tasks := [.broadcastTransaction sentToBobLinked] } ∧
      pooled.handle .epoch (.blocksPost (rewardTo "carol") 0) = some reply ∧
      reply.answer = .ok .null ∧ reply.node.blockchain.length = n.blockchain.length + 1 ∧
      Paid n.unspentOutputs reply.node.unspentOutputs alice.address "bob" "carol" 20 := by
  let env := plainBuild
  have hstep : step (new "localhost" 8332) (.epoch, .blocksPost (rewardTo "QUJD") 0) =
      some nodeAfterReward := step_eq_some.mpr ⟨_, handle_firstReward, rfl⟩
  have hregular : (new "localhost" 8332 : Node TransactionList).RegularSums
      (.epoch, .blocksPost (rewardTo "QUJD") 0) := by
    refine .blocksPost rfl ?_ ?_ ?_ ?_ <;> decide +kernel
  have hrun : run step (new "localhost" 8332) [(.epoch, .blocksPost (rewardTo "QUJD") 0)] =
      some nodeAfterReward := Option.bind_eq_some_iff.mpr ⟨_, hstep, rfl⟩
  have hevery : EveryStep step Regular (new "localhost" 8332)
      [(.epoch, .blocksPost (rewardTo "QUJD") 0)] :=
    fun _ _ => ⟨hregular.toRegular, trivial⟩
  have hbound : BoundFits := by
    unfold BoundFits
    decide
  obtain ⟨pooled, t, hposted, -, -, hmines⟩ := paid_of_walletTransfer hrun hevery rfl
    (by decide +kernel) (by decide) (fun _ => rfl) findWallet_alice (by decide +kernel)
    (alice_verifiesOwn 0 []) (by decide) walletTransfer_toBob (by decide) .epoch
  cases handle_sentToBob.symm.trans hposted
  have hfresh : CreatesFresh { nodeAfterReward with members :=
      { nodeAfterReward.ledger with unconfirmedPool := [sentToBobLinked] } } "carol" := by
    unfold CreatesFresh
    decide +kernel
  obtain ⟨hserved, hpaid⟩ :=
    hmines .epoch (rewardTo "carol") 0 "carol" rfl hbound hfresh (by decide) (by decide)
  obtain ⟨reply, hreply⟩ := hserved (by decide)
  exact ⟨_, _, reply, hrun, walletTransfer_toBob, handle_sentToBob, hreply, hpaid reply hreply⟩

end BuenzliCoin
