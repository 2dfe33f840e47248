-- SUMMARY: Distinct keys in the list of unspent outputs, along runs that list no key again.
import BuenzliCoin.Ledger.Balance
import BuenzliCoin.Ledger.Commitment
import BuenzliCoin.Node.Sync

/-!
# Unique keys

Nothing compares the key of an output that is added with the keys that are
listed. The keys are distinct as long as none is added that is listed already;
with an injective hash this comes down to the texts that are hashed.
-/

namespace BuenzliCoin

open Runs EraseLoop TransactionUnspentOutputs

-- ---------------------------------------------------------------------------
-- Hashes and texts
-- ---------------------------------------------------------------------------

namespace Transaction

theorem hash_eq_of_valid [Env] {t : Transaction} (h : t.valid = .ok ()) :
    t.hash = Env.hash t.hashedText := by
  rw [← determineHash_eq]
  unfold valid at h
  cases htype : t.type with
  | reward =>
    rw [htype] at h
    exact (validReward_eq_ok.mp h).1
  | standard =>
    rw [htype] at h
    exact (validStandard_eq_ok.mp h).1

theorem outputs_ne_nil_of_mem {t : Transaction} {utxo : UTxO} (h : utxo ∈ t.newUnspentOutputs) :
    t.outputs ≠ [] := by
  intro hnil
  simp [newUnspentOutputs, hnil] at h

end Transaction

-- ---------------------------------------------------------------------------
-- Updates by fresh transactions
-- ---------------------------------------------------------------------------

namespace TransactionUnspentOutputs

theorem update_sublist (us : TransactionUnspentOutputs) (t : Transaction) :
    (update us t).Sublist (us ++ t.newUnspentOutputs) := by
  unfold update
  generalize us ++ t.newUnspentOutputs = vs
  induction t.inputs generalizing vs with
  | nil => exact .refl vs
  | cons txi txis ih => exact (ih _).trans (eraseIf_sublist _ vs)

/-- No transaction adds an output whose key is listed when its turn comes. -/
def FreshFor : TransactionUnspentOutputs → List Transaction → Prop
  | _, [] => True
  | us, t :: ts =>
    t.outputs.length < 2 ^ 64 ∧ (∀ utxo ∈ t.newUnspentOutputs, utxo.ref ∉ us.map UTxO.ref) ∧
      FreshFor (update us t) ts

theorem nodup_append_newUnspentOutputs {us : TransactionUnspentOutputs} {t : Transaction}
    (hus : (us.map UTxO.ref).Nodup) (hsize : t.outputs.length < 2 ^ 64)
    (hunlisted : ∀ utxo ∈ t.newUnspentOutputs, utxo.ref ∉ us.map UTxO.ref) :
    ((us ++ t.newUnspentOutputs).map UTxO.ref).Nodup := by
  rw [List.map_append]
  refine List.Nodup.append hus (Transaction.nodup_newUnspentOutputs hsize) ?_
  intro ref hlisted hnew
  obtain ⟨utxo, hutxo, rfl⟩ := List.mem_map.mp hnew
  exact hunlisted utxo hutxo hlisted

theorem FreshFor.nodup_updateAll {us : TransactionUnspentOutputs} {ts : List Transaction}
    (h : FreshFor us ts) (hus : (us.map UTxO.ref).Nodup) :
    ((updateAll us ts).map UTxO.ref).Nodup := by
  induction ts generalizing us with
  | nil => exact hus
  | cons t ts ih =>
    obtain ⟨hsize, hunlisted, hrest⟩ := h
    have happended := nodup_append_newUnspentOutputs hus hsize hunlisted
    exact ih hrest (happended.sublist ((update_sublist us t).map UTxO.ref))

/-- Valid transactions with different texts list different keys. -/
theorem ref_ne_of_hashedText_ne [Env] (hhash : Function.Injective Env.hash) {t t' : Transaction}
    (ht : t.valid = .ok ()) (ht' : t'.valid = .ok ()) (htexts : t.hashedText ≠ t'.hashedText) :
    ∀ utxo ∈ t.newUnspentOutputs, ∀ utxo' ∈ t'.newUnspentOutputs, utxo.ref ≠ utxo'.ref := by
  intro utxo hutxo utxo' hutxo' heq
  have hhashes : t.hash = t'.hash := by
    rw [← Transaction.outputHash_of_mem_newUnspentOutputs hutxo,
      ← Transaction.outputHash_of_mem_newUnspentOutputs hutxo']
    exact congrArg OutputRef.outputHash heq
  rw [Transaction.hash_eq_of_valid ht, Transaction.hash_eq_of_valid ht'] at hhashes
  exact htexts (hhash hhashes)

/-- What can be asked of the texts under the hashes instead. -/
structure TextsFreshFor (us : TransactionUnspentOutputs) (ts : List Transaction) : Prop where
  /-- An index numbers the outputs. -/
  sizes : ∀ t ∈ ts, t.outputs.length < 2 ^ 64
  /-- No two transactions with outputs have the same text. -/
  texts : (ts.filter fun t => t.outputs ≠ []).Pairwise fun t t' => t.hashedText ≠ t'.hashedText
  /-- No output is listed already. -/
  unlisted : ∀ t ∈ ts, ∀ utxo ∈ t.newUnspentOutputs, utxo.ref ∉ us.map UTxO.ref

/-- With an injective hash it is enough for transactions that are valid. -/
theorem TextsFreshFor.freshFor [Env] (hhash : Function.Injective Env.hash)
    {us : TransactionUnspentOutputs} {ts : List Transaction} (h : TextsFreshFor us ts)
    (hvalid : ∀ t ∈ ts, t.valid = .ok ()) : FreshFor us ts := by
  obtain ⟨hsizes, htexts, hunlisted⟩ := h
  rw [List.pairwise_filter] at htexts
  induction ts generalizing us with
  | nil => trivial
  | cons t ts ih =>
    rw [List.forall_mem_cons] at hvalid hsizes hunlisted
    obtain ⟨hfirst, hrest⟩ := List.pairwise_cons.mp htexts
    refine ⟨hsizes.1, hunlisted.1, ih hvalid.2 hsizes.2 hrest ?_⟩
    intro t' ht' utxo' hutxo' hlisted
    have hmem := ((update_sublist us t).map UTxO.ref).subset hlisted
    rw [List.map_append, List.mem_append] at hmem
    rcases hmem with hmem | hmem
    · exact hunlisted.2 t' ht' utxo' hutxo' hmem
    · obtain ⟨utxo, hutxo, heq⟩ := List.mem_map.mp hmem
      -- both transactions have outputs
      have houtputs := Transaction.outputs_ne_nil_of_mem hutxo
      have houtputs' := Transaction.outputs_ne_nil_of_mem hutxo'
      have htext := hfirst t' ht' (decide_eq_true houtputs) (decide_eq_true houtputs')
      exact ref_ne_of_hashedText_ne hhash hvalid.1 (hvalid.2 t' ht') htext utxo hutxo utxo' hutxo'
        heq

end TransactionUnspentOutputs

-- ---------------------------------------------------------------------------
-- Runs
-- ---------------------------------------------------------------------------

namespace Node

/-- No two entries of the list have the same key. -/
def UniqueKeys (n : Node TransactionList) : Prop := (n.unspentOutputs.map UTxO.ref).Nodup

variable [Env]

/-- The list that a call updates, and the transactions that it updates it by. -/
inductive Updates (n : Node TransactionList) : Clock × Call TransactionList →
    TransactionUnspentOutputs → List Transaction → Prop where
  | adds {input : Clock × Call TransactionList} {ts : TransactionList} (adds : n.Adds input ts) :
      Updates n input n.unspentOutputs ts.transactions
  | skips {clock : Clock} {data : Json} {connection : Except String Unit}
      {b : Block TransactionList} {peerId : Nat} {peers : WebSocketPeers}
      (judged : n.judge data clock connection = .ok (.requestAll b peerId peers)) :
      Updates n (clock, .receiveLatestBlock data connection) n.unspentOutputs b.data.transactions
  | adopts {input : Clock × Call TransactionList} {bc : Blockchain TransactionList}
      (adopts : n.Adopts input bc) : Updates n input [] bc.transactions

/-- A call that updates the list by transactions that are fresh to it. -/
def KeysFresh (n : Node TransactionList) (input : Clock × Call TransactionList) : Prop :=
  ∀ us ts, n.Updates input us ts → FreshFor us ts

theorem Updates.sublist {n : Node TransactionList} {input : Clock × Call TransactionList}
    {us : TransactionUnspentOutputs} {ts : List Transaction} (h : n.Updates input us ts) :
    us.Sublist n.unspentOutputs := by
  cases h with
  | adds hadds => exact .refl _
  | skips hjudged => exact .refl _
  | adopts hadopts => exact List.nil_sublist _

/-- The transactions that a call updates the list by have been found valid. -/
theorem Updates.valid {n : Node TransactionList} {input : Clock × Call TransactionList}
    {us : TransactionUnspentOutputs} {ts : List Transaction} (h : n.Updates input us ts) :
    ∀ t ∈ ts, t.valid = .ok () := by
  cases h with
  | adds hadds =>
    cases hadds with
    | mined hassembled hconstructed =>
      obtain ⟨e, herror, -⟩ | ⟨e, herror, -⟩ | ⟨-, b, hstep⟩ :=
        Blockchain.constructNextBlock_cases hconstructed
      · cases herror
      · cases herror
      · rw [← hstep.data]
        exact fun t => TransactionList.valid_of_mem hstep.dataValid
    | received hjudged happended =>
      have hvalid := (judge_append hjudged).2.1
      exact fun t => TransactionList.valid_of_mem (Block.valid_eq_ok.mp hvalid).1
  | skips hjudged =>
    have hvalid := (judge_requestAll hjudged).2.1
    exact fun t => TransactionList.valid_of_mem (Block.valid_eq_ok.mp hvalid).1
  | adopts hadopts =>
    obtain ⟨data, -, hreceived, -⟩ := hadopts
    obtain ⟨j, -, hdecoded, -⟩ := receivedChain_eq_ok.mp hreceived
    exact fun t ht => (Blockchain.unlinked_of_fromJson hdecoded t ht).1

/-- A call that updates the list by transactions with fresh texts. -/
def TextsFresh (n : Node TransactionList) (input : Clock × Call TransactionList) : Prop :=
  ∀ us ts, n.Updates input us ts → TextsFreshFor us ts

theorem TextsFresh.keysFresh (hhash : Function.Injective Env.hash) {n : Node TransactionList}
    {input : Clock × Call TransactionList} (h : n.TextsFresh input) : n.KeysFresh input :=
  fun us ts hupdates => (h us ts hupdates).freshFor hhash hupdates.valid

/-- A call keeps the list, or updates it. -/
theorem unspentOutputs_of_step {n n' : Node TransactionList}
    {input : Clock × Call TransactionList} (hstep : n.step input = some n') :
    n'.unspentOutputs = n.unspentOutputs ∨
    ∃ us ts, n.Updates input us ts ∧ n'.unspentOutputs = updateAll us ts := by
  obtain ⟨clock, call⟩ := input
  obtain ⟨reply, hhandle, rfl⟩ := step_eq_some.mp hstep
  cases handle_ledgerStep hhandle with
  | idle hblocks hutxos hpool => exact .inl hutxos
  | pooled hlinked hblocks hutxos hpool => exact .inl hutxos
  | mined hassembled hconstructed hmined hledger =>
    obtain ⟨e, herror, -⟩ | ⟨address, drawn, -, hutxos, -⟩ :=
      TransactionMembers.assemble_cases hassembled
    · cases herror
    · refine .inr ⟨_, _, .adds (.mined hassembled hconstructed), ?_⟩
      rw [unspentOutputs, (TransactionMembers.mined_eq_some hledger).1, hutxos]
      rfl
  | appended hjudged happended hstep hledger =>
    exact .inr ⟨_, _, .adds (.received hjudged happended),
      (TransactionMembers.received_eq_some hledger).1⟩
  | skipped hjudged hblocks hledger =>
    exact .inr ⟨_, _, .skips hjudged, (TransactionMembers.received_eq_some hledger).1⟩
  | replaced hreceived hexceeds hledger =>
    exact .inr ⟨_, _, .adopts ⟨_, rfl, hreceived, hexceeds⟩,
      congrArg TransactionMembers.unspentOutputs (TransactionMembers.setup_eq_some hledger)⟩

theorem UniqueKeys.step {n n' : Node TransactionList} {input : Clock × Call TransactionList}
    (h : n.UniqueKeys) (hfresh : n.KeysFresh input) (hstep : n.step input = some n') :
    n'.UniqueKeys := by
  obtain hkept | ⟨us, ts, hupdates, hupdated⟩ := unspentOutputs_of_step hstep
  · rw [UniqueKeys, hkept]
    exact h
  · rw [UniqueKeys, hupdated]
    have hus : (us.map UTxO.ref).Nodup := List.Nodup.sublist (hupdates.sublist.map UTxO.ref) h
    exact (hfresh us ts hupdates).nodup_updateAll hus

theorem uniqueKeys_new (host : String) (port : UInt16) :
    (new host port : Node TransactionList).UniqueKeys := List.nodup_nil

/-- A run that updates the list by fresh transactions only never lists a key
    twice. -/
theorem everyState_uniqueKeys (host : String) (port : UInt16)
    {inputs : List (Clock × Call TransactionList)}
    (h : EveryStep step KeysFresh (new host port) inputs) :
    EveryState step UniqueKeys (new host port) inputs :=
  h.everyState (fun _ _ _ hn hfresh hstep => hn.step hfresh hstep) (uniqueKeys_new host port)

end Node

-- ---------------------------------------------------------------------------
-- A run that brings in fresh texts, and one that does not
-- ---------------------------------------------------------------------------

/-- What is left to check of `POST /blocks`. -/
theorem Node.TextsFresh.blocksPost [Env] {n : Node TransactionList} {clock : Clock} {data : Json}
    {fuel : Nat} {ts : TransactionList}
    (hassembled : (n.ledger.assemble n.blockchain.length data).1 = .ok ts)
    (hfresh : TextsFreshFor n.unspentOutputs ts.transactions) :
    n.TextsFresh (clock, .blocksPost data fuel) := by
  intro us ts' hupdates
  cases hupdates with
  | adds hadds =>
    rw [adds_blocksPost hassembled hadds]
    exact hfresh
  | adopts hadopts => exact absurd hadopts (not_adopts_blocksPost _)

theorem Node.TextsFresh.other [Env] {n : Node TransactionList} {clock : Clock}
    {request : TransactionRequest} : n.TextsFresh (clock, .other request) := by
  intro us ts hupdates
  cases hupdates with
  | adds hadds => exact absurd hadds (not_adds_other _)
  | adopts hadopts => exact absurd hadopts (not_adopts_other _)

/-- The run in which the reward is spent brings in three different texts. -/
theorem spendingRun_textsFresh :
    letI := plainBuild
    EveryStep Node.step Node.TextsFresh (Node.new "localhost" 8332) (spendingRun 1) := by
  let env := plainBuild
  have hfirst : Node.TextsFresh (Node.new "localhost" 8332) (.epoch, .blocksPost aliceMines 0) := by
    refine .blocksPost rfl ⟨?_, ?_, ?_⟩ <;> decide +kernel
  have hthird : Node.TextsFresh (afterSpending 1) (.epoch, .blocksPost aliceMines 0) := by
    refine .blocksPost rfl ⟨?_, ?_, ?_⟩ <;> decide +kernel
  apply (everyStep_spendingRun_iff (by decide) (by decide +kernel)).mpr
  exact ⟨hfirst, .other, hthird⟩

theorem Node.everyState_uniqueKeys_spendingRun :
    letI := plainBuild
    (∃ n : Node TransactionList, run step (new "localhost" 8332) (spendingRun 1) = some n ∧
      n.unspentOutputs.length = 2) ∧
    EveryState step UniqueKeys (new "localhost" 8332) (spendingRun 1) := by
  let env := plainBuild
  obtain ⟨n, hrun, -, htransactions, -, hutxos⟩ :=
    run_spending (k := 1) (by decide) (by decide +kernel)
  refine ⟨⟨n, hrun, ?_⟩, everyState_uniqueKeys _ _ ?_⟩
  · rw [hutxos, htransactions]
    decide +kernel
  · exact spendingRun_textsFresh.mono fun _ _ h => h.keysFresh plainBuild_hash_injective

/-- The node that has received the stray block `k` times. -/
def afterStray (k : Nat) : Node TransactionList :=
  letI := plainBuild
  { Node.new "localhost" 8332 with
    members := (⟨List.replicate k
      ⟨(Transaction.reward "mallory" 1).hash, 0, ⟨50, "mallory"⟩⟩, []⟩ : TransactionMembers)
    peers := [⟨"localhost", 8333⟩] }

/-- Two deliveries of the stray block list the same key twice. -/
theorem Node.not_uniqueKeys_strayMessage :
    letI := plainBuild
    Function.Injective Env.hash ∧
    ∃ n n' : Node TransactionList,
      (new "localhost" 8332).step (.epoch, .receiveLatestBlock strayMessage (.ok ())) = some n ∧
      n.step (.epoch, .receiveLatestBlock strayMessage (.ok ())) = some n' ∧
      n'.blockchain.blocks = [] ∧
      n'.unspentOutputs.map UTxO.ref =
        List.replicate 2 ⟨(Transaction.reward "mallory" 1).hash, 0⟩ ∧
      ¬ n'.UniqueKeys := by
  let env := plainBuild
  have hfirst : (new "localhost" 8332 : Node TransactionList).judge strayMessage .epoch (.ok ()) =
      _ := judge_strayMessage rfl rfl
  have hsecond : (afterStray 1).judge strayMessage .epoch (.ok ()) = _ := judge_strayMessage rfl rfl
  have honce : (new "localhost" 8332 : Node TransactionList).handle .epoch
      (.receiveLatestBlock strayMessage (.ok ())) =
        some ⟨afterStray 1, .ok .null, [.requestAllBlocks 1]⟩ :=
    handleReceiveLatestBlock_of_requestAll hfirst rfl
  have htwice : (afterStray 1).handle .epoch (.receiveLatestBlock strayMessage (.ok ())) =
      some ⟨afterStray 2, .ok .null, [.requestAllBlocks 1]⟩ :=
    handleReceiveLatestBlock_of_requestAll hsecond rfl
  have hkeys : (afterStray 2).unspentOutputs.map UTxO.ref =
      List.replicate 2 ⟨(Transaction.reward "mallory" 1).hash, 0⟩ := by decide +kernel
  refine ⟨plainBuild_hash_injective, afterStray 1, afterStray 2, step_eq_some.mpr ⟨_, honce, rfl⟩,
    step_eq_some.mpr ⟨_, htwice, rfl⟩, rfl, hkeys, ?_⟩
  rw [UniqueKeys, hkeys, List.nodup_replicate]
  decide

end BuenzliCoin
