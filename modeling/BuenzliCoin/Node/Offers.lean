-- SUMMARY: Where the transactions of a deployment come from: clients have posted them, or have asked for the reward.
import BuenzliCoin.Node.Provenance

/-!
# Offers

The transactions in the pools and on the chains of a deployment are those that clients
have posted, and rewards to addresses that clients have named, all of them in requests
that were answered with 200, to whichever node they went.
-/

namespace BuenzliCoin

open NodeData

/-- A transaction that was decoded has no snapshot. -/
theorem Transaction.unlinked_eq_of_fromJson {j : Json} {t : Transaction} (h : fromJson j = .ok t) :
    t.unlinked = t := by
  rw [unlinked, ← unlinked_of_fromJson h]
  rfl

namespace Node

variable [Env]

/-- What `POST /blocks` makes a block of: a reward to the address that is named, and
    transactions from the pool. -/
theorem mem_of_assemble {m m' : TransactionMembers} {length : Nat} {data : Json}
    {ts : TransactionList} (h : m.assemble length data = (.ok ts, m')) :
    ∀ t ∈ ts.transactions, t ∈ m.unconfirmedPool ∨
      ∃ address index, rewardAddress data = .ok address ∧ t = Transaction.reward address index := by
  cases haddress : rewardAddress data with
  | error e =>
    rw [assemble_of_not_rewardAddress haddress] at h
    cases h
  | ok address =>
    unfold TransactionMembers.assemble at h
    unfold rewardAddress at haddress
    rw [haddress] at h
    cases hdraw : TransactionMembers.draw config.transactionNumPerBlock.toNat m.unconfirmedPool with
    | mk drawn rest =>
      simp only [hdraw] at h
      cases h
      rw [List.forall_mem_cons, TransactionMembers.draw_append hdraw]
      exact ⟨.inr ⟨address, _, rfl, rfl⟩, fun t ht => .inl (List.mem_append_left _ ht)⟩

/-- What a request about transactions does: nothing, or it adds the transaction that it
    offers, and broadcasts no other. -/
theorem handle_other_cases {n : Node TransactionList} {clock : Clock}
    {request : TransactionRequest} {reply : Reply TransactionList}
    (h : n.handle clock (.other request) = some reply) :
    reply.node.blockchain = n.blockchain ∧
    ((reply.node.unconfirmedPool = n.unconfirmedPool ∧ reply.tasks = []) ∨
      ∃ j t, request.offer? = some j ∧ Transaction.fromJson j = .ok t ∧
        reply.answer = .ok .null ∧ reply.node.unconfirmedPool =
          n.unconfirmedPool ++ [t.updateUnspentOutputs n.unspentOutputs] ∧
        ∀ task ∈ reply.tasks,
          task = .broadcastTransaction (t.updateUnspentOutputs n.unspentOutputs)) := by
  cases h
  refine ⟨rfl, ?_⟩
  cases request with
  | transactionsLatestGet => exact .inl ⟨rfl, rfl⟩
  | transactionsUnconfirmedGet => exact .inl ⟨rfl, rfl⟩
  | transactionsUnspentGet => exact .inl ⟨rfl, rfl⟩
  | transactionsPost data =>
    simp only [TransactionMembers.handleTransactionsPost]
    split
    · exact .inl ⟨rfl, rfl⟩
    · next t pool hadded =>
      simp only [Error.rethrow_eq_ok, Except.bind_eq_ok_iff, Except.pure_eq_ok_iff,
        Prod.mk.injEq] at hadded
      obtain ⟨t', hdecoded, pool', hadd, rfl, rfl⟩ := hadded
      obtain ⟨-, -, -, hpool⟩ := TransactionUnconfirmedPool.add_eq_ok.mp hadd
      exact .inr ⟨data, t', rfl, hdecoded, rfl, hpool, fun _ => List.mem_singleton.mp⟩
  | receiveTransaction data =>
    simp only [TransactionMembers.handleReceiveTransaction]
    split
    · exact .inl ⟨rfl, rfl⟩
    · next t hparsed =>
      simp only [Error.rethrow_eq_ok, Except.bind_eq_ok_iff, Except.pure_eq_ok_iff] at hparsed
      obtain ⟨t', hdecoded, rfl⟩ := hparsed
      split
      · exact .inl ⟨rfl, rfl⟩
      · next pool hadd =>
        obtain ⟨-, -, -, hpool⟩ := TransactionUnconfirmedPool.add_eq_ok.mp hadd
        exact .inr ⟨data, t', rfl, hdecoded, rfl, hpool, fun _ h => absurd h List.not_mem_nil⟩

/-- Only requests about transactions set the broadcast of one going. -/
theorem exists_request_of_broadcast {n : Node TransactionList} {clock : Clock}
    {call : Call TransactionList} {reply : Reply TransactionList} {t : Transaction}
    (h : n.handle clock call = some reply) (htask : .broadcastTransaction t ∈ reply.tasks) :
    ∃ request, call = .other request := by
  cases call with
  | other request => exact ⟨request, rfl⟩
  | blocksPost data fuel =>
    obtain ⟨htasks, -⟩ | ⟨htasks, -⟩ := handleBlocksPost_cases h
    · rw [htasks] at htask
      cases htask
    · rw [htasks] at htask
      cases List.mem_singleton.mp htask
  | receiveLatestBlock data connection =>
    obtain ⟨-, htasks, -⟩ | ⟨_, _, -, htasks, -⟩ := handleReceiveLatestBlock_cases h
    · rw [htasks] at htask
      cases htask
    · rw [htasks] at htask
      cases List.mem_singleton.mp htask
  | receiveAllBlocks data =>
    obtain ⟨-, htasks, -⟩ := handleReceiveAllBlocks_cases h
    rw [htasks] at htask
    cases htask
  | peersPost data connection =>
    cases h
    simp only [handlePeersPost] at htask
    split at htask
    · cases htask
    · cases List.mem_singleton.mp htask
  | _ =>
    cases h
    cases htask

omit [Env] in
/-- The handlers that get transactions from a request, and where they stand. -/
theorem of_mem_handlers {target : String} {method : Verb} {handler : RestHandler TransactionList}
    (h : (target, method, handler) ∈ (httpSetup TransactionList).handlers) (data : Json)
    (around : Surroundings) :
    (∀ data' fuel, handler data around = .blocksPost data' fuel → data' = data) ∧
    (∀ data' connection, handler data around ≠ .receiveLatestBlock data' connection) ∧
    (∀ data', handler data around ≠ .receiveAllBlocks data') ∧
    ∀ request j, handler data around = .other request → request.offer? = some j →
      target = "/transactions" ∧ method = .post ∧ j = data := by
  rw [httpSetup_handlers, List.mem_append] at h
  rcases h with hcommon | hown
  · simp only [commonRestHandlers, List.mem_cons, Prod.mk.injEq, List.not_mem_nil, or_false]
      at hcommon
    obtain ⟨-, -, rfl⟩ | ⟨-, -, rfl⟩ | ⟨-, -, rfl⟩ | ⟨-, -, rfl⟩ | ⟨-, -, rfl⟩ | ⟨-, -, rfl⟩ :=
      hcommon <;>
      exact ⟨by rintro _ _ ⟨⟩ <;> rfl, by rintro _ _ ⟨⟩, by rintro _ ⟨⟩, by rintro _ _ ⟨⟩⟩
  · obtain ⟨own, hmem, heq⟩ := List.mem_map.mp hown
    cases heq
    refine ⟨by rintro _ _ ⟨⟩, by rintro _ _ ⟨⟩, by rintro _ ⟨⟩, ?_⟩
    rintro _ j ⟨⟩ hoffer
    simp only [RestData.httpTargets, List.mem_cons, List.not_mem_nil, or_false] at hmem
    obtain rfl | rfl | rfl | rfl := hmem
    · cases hoffer
    · cases hoffer
      exact ⟨rfl, rfl, rfl⟩
    · cases hoffer
    · cases hoffer

end Node

namespace Deployment

section

variable [JsonParser]

/-- A client has posted the transaction, and was told that it is in the pool. -/
def Offered (exchanges : Exchanges TransactionList) (t : Transaction) : Prop :=
  ∃ exchange ∈ exchanges, exchange.request.target = "/transactions" ∧
    exchange.request.method = .post ∧ exchange.response.status = 200 ∧
    ∃ data, HttpServer.readData exchange.request = .ok data ∧
      Transaction.fromJson data = .ok t.unlinked

variable [Env]

/-- A client has named the address of the reward, and was told that a block had been
    added. -/
def Rewarded (exchanges : Exchanges TransactionList) (t : Transaction) : Prop :=
  ∃ exchange ∈ exchanges, exchange.Accepted ∧
    ∃ data address index, HttpServer.readData exchange.request = .ok data ∧
      Node.rewardAddress data = .ok address ∧ t.unlinked = Transaction.reward address index

/-- A client has asked for the transaction to be on a chain. -/
def Requested (exchanges : Exchanges TransactionList) (t : Transaction) : Prop :=
  Offered exchanges t ∨ Rewarded exchanges t

omit [Env] in
theorem Offered.mono {exchanges exchanges' : Exchanges TransactionList} {t : Transaction}
    (hsub : exchanges ⊆ exchanges') (h : Offered exchanges t) : Offered exchanges' t := by
  obtain ⟨exchange, hmem, hrest⟩ := h
  exact ⟨exchange, hsub hmem, hrest⟩

theorem Requested.mono {exchanges exchanges' : Exchanges TransactionList} {t : Transaction}
    (hsub : exchanges ⊆ exchanges') (h : Requested exchanges t) : Requested exchanges' t := by
  obtain hoffered | ⟨exchange, hmem, hrest⟩ := h
  · exact .inl (hoffered.mono hsub)
  · exact .inr ⟨exchange, hsub hmem, hrest⟩

omit [Env] in
theorem Offered.of_unlinked {exchanges : Exchanges TransactionList} {t t' : Transaction}
    (h : Offered exchanges t') (hunlinked : t.unlinked = t'.unlinked) : Offered exchanges t := by
  unfold Offered
  rw [hunlinked]
  exact h

theorem Requested.of_unlinked {exchanges : Exchanges TransactionList} {t t' : Transaction}
    (h : Requested exchanges t') (hunlinked : t.unlinked = t'.unlinked) :
    Requested exchanges t := by
  unfold Requested Offered Rewarded
  rw [hunlinked]
  exact h

/-- Clients have asked for all transactions of a node. -/
structure AllRequested (exchanges : Exchanges TransactionList) (n : Node TransactionList) :
    Prop where
  pool : ∀ t ∈ n.unconfirmedPool, Offered exchanges t
  chain : ∀ t ∈ n.blockchain.transactions, Requested exchanges t

theorem AllRequested.mono {exchanges exchanges' : Exchanges TransactionList}
    {n : Node TransactionList} (hsub : exchanges ⊆ exchanges') (h : AllRequested exchanges n) :
    AllRequested exchanges' n where
  pool t ht := (h.pool t ht).mono hsub
  chain t ht := (h.chain t ht).mono hsub

/-- Clients have asked for the transactions that a call brings, if it succeeds. -/
def FromClients (exchanges : Exchanges TransactionList) (n : Node TransactionList) (clock : Clock)
    (answer : Except Error Json) : Node.Call TransactionList → Prop
  | .blocksPost data _ => answer = .ok .null → ∀ address index,
    Node.rewardAddress data = .ok address → Rewarded exchanges (.reward address index)
  | .receiveLatestBlock data _ => ∀ b, n.receivedBlock data = .ok b →
    ∀ t ∈ b.data.transactions, Requested exchanges t
  | .receiveAllBlocks data => ∀ bc, Node.receivedChain data clock = .ok bc →
    ∀ t ∈ bc.transactions, Requested exchanges t
  | .other request => answer = .ok .null → ∀ j t, request.offer? = some j →
    Transaction.fromJson j = .ok t → Offered exchanges t
  | _ => True

theorem AllRequested.of_pool {exchanges : Exchanges TransactionList} {n n' : Node TransactionList}
    (h : AllRequested exchanges n) (hpool : n'.unconfirmedPool ⊆ n.unconfirmedPool)
    (hchain : ∀ t ∈ n'.blockchain.transactions, Requested exchanges t) :
    AllRequested exchanges n' :=
  ⟨fun t ht => h.pool t (hpool ht), hchain⟩

/-- What a call does to the transactions of the node. -/
theorem AllRequested.kept {exchanges : Exchanges TransactionList} {n : Node TransactionList}
    {clock : Clock} {call : Node.Call TransactionList} {reply : Reply TransactionList}
    (h : AllRequested exchanges n) (hcall : FromClients exchanges n clock reply.answer call)
    (hhandle : n.handle clock call = some reply) : AllRequested exchanges reply.node := by
  cases Node.handle_callStep hhandle with
  | idle hblockchain hmembers =>
    have hpool : reply.node.unconfirmedPool = n.unconfirmedPool :=
      congrArg TransactionMembers.unconfirmedPool hmembers
    exact h.of_pool (hpool ▸ List.Subset.refl _) (hblockchain ▸ h.chain)
  | refused hassembled hblocks hsame =>
    refine h.of_pool (TransactionMembers.assemble_sublist hassembled).subset ?_
    rw [Blockchain.transactions_congr hblocks]
    exact h.chain
  | @constructed data fuel _ ts m b hassembled hconstructed hstep hmembers =>
    have hpruned : reply.node.unconfirmedPool.Sublist m.unconfirmedPool :=
      TransactionMembers.mined_sublist hmembers
    have hanswer : reply.answer = .ok .null := by
      obtain ⟨-, hblocks⟩ | ⟨hok, -⟩ := Node.handleBlocksPost_blocks hhandle
      · rw [hstep.blocks] at hblocks
        exact absurd hblocks (by simp)
      · exact hok
    refine h.of_pool ?_ ?_
    · exact (hpruned.trans (TransactionMembers.assemble_sublist hassembled)).subset
    · rw [Blockchain.transactions_concat hstep.blocks, hstep.data, List.forall_mem_append]
      refine ⟨h.chain, fun t ht => ?_⟩
      obtain hpooled | ⟨address, index, haddress, rfl⟩ := Node.mem_of_assemble hassembled t ht
      · exact .inl (h.pool t hpooled)
      · exact .inr (hcall hanswer address index haddress)
  | rejected hjudged hblocks hsame hmembers =>
    have hpool : reply.node.unconfirmedPool = n.unconfirmedPool :=
      congrArg TransactionMembers.unconfirmedPool hmembers
    refine h.of_pool (hpool ▸ List.Subset.refl _) ?_
    rw [Blockchain.transactions_congr hblocks]
    exact h.chain
  | @appended data connection _ b hjudged happended hstep hmembers =>
    refine h.of_pool (TransactionMembers.received_sublist hmembers).subset ?_
    rw [Blockchain.transactions_concat hstep.blocks, List.forall_mem_append]
    exact ⟨h.chain, hcall b (Node.judge_append hjudged).1⟩
  | @skipped data connection _ b peerId peers hjudged hblockchain hmembers =>
    have hpool := (TransactionMembers.received_sublist hmembers).subset
    exact h.of_pool hpool (hblockchain ▸ h.chain)
  | replaced hreceived hexceeds hmembers =>
    have hpool : reply.node.unconfirmedPool = [] :=
      congrArg TransactionMembers.unconfirmedPool (TransactionMembers.setup_eq_some hmembers)
    exact h.of_pool (hpool ▸ List.nil_subset _) (hcall _ hreceived)
  | served hblockchain hmembers =>
    -- The transaction that is added is the one that the request offers, with a snapshot.
    obtain ⟨-, ⟨hpool, -⟩ | ⟨j, t, hoffer, hdecoded, hanswer, hpool, -⟩⟩ :=
      Node.handle_other_cases hhandle
    · exact h.of_pool (hpool ▸ List.Subset.refl _) (hblockchain ▸ h.chain)
    · refine ⟨?_, hblockchain ▸ h.chain⟩
      rw [hpool, List.forall_mem_append, List.forall_mem_singleton]
      exact ⟨h.pool, (hcall hanswer j t hoffer hdecoded).of_unlinked rfl⟩

/-- What a call does that clients or nodes make. -/
theorem AllRequested.handle {exchanges : Exchanges TransactionList} {n : Node TransactionList}
    {clock : Clock} {call : Node.Call TransactionList} {reply : Reply TransactionList}
    (h : AllRequested exchanges n) (hcall : FromClients exchanges n clock reply.answer call)
    (hhandle : n.handle clock call = some reply) :
    Keeps AllRequested Offered exchanges reply.node reply.tasks := by
  refine ⟨h.kept hcall hhandle, fun t ht => ?_⟩
  obtain ⟨request, rfl⟩ := Node.exists_request_of_broadcast hhandle ht
  obtain ⟨-, ⟨-, hnone⟩ | ⟨j, t', hoffer, hdecoded, hanswer, -, htasks⟩⟩ :=
    Node.handle_other_cases hhandle
  · rw [hnone] at ht
    cases ht
  · cases htasks _ ht
    exact (hcall hanswer j t' hoffer hdecoded).of_unlinked rfl

/-- What a request of a client does to the transactions. -/
theorem AllRequested.http {exchanges : Exchanges TransactionList} {n : Node TransactionList}
    {clock : Clock} {around : Surroundings} {request : HttpRequest}
    {handled : Node.Handled TransactionList} {response : HttpResponse}
    (h : AllRequested exchanges n)
    (hhandling : n.handleRequest clock around request = some handled)
    (hanswered : handled.response = .ok response) :
    Keeps AllRequested Offered (insert ⟨request, response, n, handled.node⟩ exchanges) handled.node
      handled.tasks := by
  let exchange : Node.RestExchange TransactionList := ⟨request, response, n, handled.node⟩
  suffices hlater : ∀ later, exchange ∈ later → exchanges ⊆ later →
      Keeps AllRequested Offered later handled.node handled.tasks from
    hlater _ (Set.mem_insert ..) (Set.subset_insert ..)
  intro later hexchange hsub
  have hold := h.mono hsub
  obtain ⟨hnode, htasks⟩ | ⟨handler, data, reply, hread, hmem, hhandle, hnode, htasks, htells⟩ :=
    Node.handleRequest_cases hhandling hanswered
  · rw [hnode, htasks]
    exact ⟨hold, fun _ ht => absurd ht List.not_mem_nil⟩
  · rw [hnode, htasks]
    refine hold.handle ?_ hhandle
    have hstatus : reply.answer = .ok .null → response.status = 200 := by
      intro hanswer
      rw [hanswer] at htells
      cases htells with
      | ok status type body => exact status
    obtain ⟨hblocks, hlatest, hall, hother⟩ := Node.of_mem_handlers hmem data around
    generalize hcall : handler data around = call at hhandle
    cases call with
    | blocksPost data' fuel =>
      intro hanswer address index haddress
      obtain ⟨htarget, hmethod⟩ := Node.blocksPost_of_mem hmem hcall
      cases hblocks data' fuel hcall
      exact ⟨exchange, hexchange, ⟨htarget, hmethod, hstatus hanswer⟩, data, address, index,
        hread, haddress, rfl⟩
    | other asked =>
      intro hanswer j t hoffer hdecoded
      obtain ⟨htarget, hmethod, rfl⟩ := hother asked j hcall hoffer
      refine ⟨exchange, hexchange, htarget, hmethod, hstatus hanswer, j, hread, ?_⟩
      rw [hdecoded, Transaction.unlinked_eq_of_fromJson hdecoded]
    | receiveLatestBlock data' connection => exact absurd hcall (hlatest data' connection)
    | receiveAllBlocks data' => exact absurd hcall (hall data')
    | _ => trivial

end

end Deployment

/-! ## A transaction that another client has posted -/

end BuenzliCoin
