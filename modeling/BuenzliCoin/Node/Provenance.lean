-- SUMMARY: Where the blocks of a deployment come from: some client has asked for each of them.
import BuenzliCoin.Node.Deployment
import BuenzliCoin.Node.Failure

/-!
# Provenance

No node makes anything up, whatever happens to the texts between them: a block is on the
chain of some node only if a client was told that it had been added, there or at
another node.
-/

namespace BuenzliCoin

open NodeData

-- ---------------------------------------------------------------------------
-- What a message leaves behind
-- ---------------------------------------------------------------------------

namespace Node

section

variable {T : Type} [NodeData T]

/-- The block that a node makes of one that it is sent. -/
theorem receivedBlock_eq_link [StoredData T] {n : Node T} {data : Json} {b : Block T}
    (sent : Block T) (hsent : data.find? "block" = some sent.toJson)
    (hb : n.receivedBlock data = .ok b) :
    b = { sent.stored with data := link n.members sent.stored.data } := by
  obtain ⟨j, read, hj, hread, rfl⟩ := receivedBlock_eq_ok.mp hb
  rw [hsent] at hj
  cases hj
  rw [Block.fromJson_toJson] at hread
  cases hread
  rfl

variable [Env]

/-- The chain that a node makes of one that it is sent. -/
theorem receivedChain_blocks [StoredData T] {data : Json} {clock : Clock} {bc : Blockchain T}
    (sent : Blockchain T) (hsent : data.find? "blockchain" = some sent.toJson)
    (hbc : receivedChain data clock = .ok bc) : bc.blocks = sent.blocks.map Block.stored := by
  obtain ⟨j, hj, hdecoded, -⟩ := receivedChain_eq_ok.mp hbc
  rw [hsent] at hj
  cases hj
  have hread := Blockchain.fromJson_blocks hdecoded
  rw [Blockchain.toJson, Json.items, Blockchain.mapM_fromJson_toJson] at hread
  exact (Except.ok.inj hread).symm

variable [LookupData T] [RestData T] [JsonParser]

/-- What an HTTP request does that is answered: nothing, or what the handler does that it
    reaches. -/
theorem handleRequest_cases {n : Node T} {clock : Clock} {around : Surroundings}
    {request : HttpRequest} {handled : Handled T} {response : HttpResponse}
    (h : n.handleRequest clock around request = some handled)
    (hresponse : handled.response = .ok response) :
    (handled.node = n ∧ handled.tasks = []) ∨
    ∃ handler data reply, HttpServer.readData request = .ok data ∧
      (request.target, request.method, handler) ∈ (httpSetup T).handlers ∧
      n.handle clock (handler data around) = some reply ∧ handled.node = reply.node ∧
      handled.tasks = reply.tasks ∧ Tells request.method response reply.answer := by
  cases hdispatch : (httpSetup T).dispatch request with
  | error refusal =>
    simp only [handleRequest, hdispatch, Option.some.injEq] at h
    subst h
    exact .inl ⟨rfl, rfl⟩
  | ok route =>
    obtain ⟨handler, data⟩ := route
    obtain ⟨hread, hfind⟩ := HttpServer.of_dispatch hdispatch
    have hmem := HttpServer.mem_of_find hfind
    rw [n.handleRequest_of_dispatch clock around hdispatch] at h
    obtain ⟨reply, hhandle, rfl⟩ := Option.map_eq_some_iff.mp h
    exact .inr ⟨handler, data, reply, hread, hmem, hhandle, rfl, rfl,
      (ofHttp_of_mem hmem data around).tells hhandle hresponse⟩

end

end Node

-- ---------------------------------------------------------------------------
-- Blocks
-- ---------------------------------------------------------------------------

namespace Deployment

section

variable {T : Type} [NodeData T] [ReplicatedData T] [Env] [JsonParser]

/-- A client was told that a block had been added, and the block that its request has added
    had the same contents. -/
def Added (exchanges : Exchanges T) (b : Block T) : Prop :=
  ∃ exchange ∈ exchanges, exchange.Accepted ∧
    ∃ b' : Block T, b'.stored = b.stored ∧ exchange.Adds b'

theorem Added.mono {exchanges exchanges' : Exchanges T} {b : Block T}
    (hsub : exchanges ⊆ exchanges') (h : Added exchanges b) : Added exchanges' b := by
  obtain ⟨exchange, hmem, hrest⟩ := h
  exact ⟨exchange, hsub hmem, hrest⟩

theorem Added.of_stored {exchanges : Exchanges T} {b b' : Block T} (h : Added exchanges b)
    (hstored : b'.stored = b.stored) : Added exchanges b' := by
  obtain ⟨exchange, hmem, haccepted, b'', heq, hassembled⟩ := h
  exact ⟨exchange, hmem, haccepted, b'', heq.trans hstored.symm, hassembled⟩

/-- All blocks of a node were added for clients. -/
def AllAdded (exchanges : Exchanges T) (n : Node T) : Prop :=
  ∀ b ∈ n.blockchain.blocks, Added exchanges b

variable [LookupData T] [RestData T]

/-- What a request of a client does to the blocks. -/
theorem AllAdded.http {exchanges : Exchanges T} {n : Node T} {clock : Clock} {around : Surroundings}
    {request : HttpRequest} {handled : Node.Handled T} {response : HttpResponse}
    (h : AllAdded exchanges n) (hhandling : n.handleRequest clock around request = some handled)
    (hanswered : handled.response = .ok response) :
    AllAdded (insert ⟨request, response, n, handled.node⟩ exchanges) handled.node := by
  have hold : ∀ b ∈ n.blockchain.blocks,
      Added (insert ⟨request, response, n, handled.node⟩ exchanges) b :=
    fun b hb => (h b hb).mono (Set.subset_insert ..)
  have hblocks := Node.handleRequest_blocks hhandling hanswered
  dsimp only at hblocks
  unfold AllAdded
  split_ifs at hblocks with haccepted
  · obtain ⟨b, hadds⟩ := hblocks
    rw [hadds.blocks, List.forall_mem_append, List.forall_mem_singleton]
    exact ⟨hold, _, Set.mem_insert .., haccepted, b, rfl, hadds⟩
  · rw [hblocks]
    exact hold

variable [EndpointData T]

omit [RestData T] in
/-- What messages do to the blocks, whose blocks were all added for clients. -/
theorem AllAdded.message {OkTransaction : Exchanges T → Transaction → Prop}
    {exchanges : Exchanges T} {n : Node T} {clock : Clock} {call : Node.Call T} {reply : Reply T}
    (h : AllAdded exchanges n) (hcall : FromNodes AllAdded OkTransaction exchanges call)
    (hhandle : n.handle clock call = some reply) : AllAdded exchanges reply.node := by
  have hstep := Node.handle_chainStep hhandle
  unfold AllAdded
  generalize reply.node.blockchain = bc at hstep
  cases hstep with
  | kept hblocks hsame =>
    rw [hblocks]
    exact h
  | constructed hstep => cases hcall
  | @appended data connection b bc hjudged hstep =>
    cases hcall with
    | receiveLatestBlock holds connection =>
      obtain ⟨m, sent, hm, hlatest, rfl⟩ := holds
      have hb := Node.receivedBlock_eq_link sent rfl (Node.judge_append hjudged).1
      rw [hstep.blocks, List.forall_mem_append, List.forall_mem_singleton]
      refine ⟨h, (hm sent (List.mem_of_getLast? hlatest)).of_stored ?_⟩
      rw [hb]
      unfold Block.stored
      rw [ReplicatedData.stored_link, StoredData.stored_stored]
  | @replaced data bc hreceived hkey =>
    cases hcall with
    | receiveAllBlocks holds =>
      obtain ⟨m, hm, rfl⟩ := holds
      rw [Node.receivedChain_blocks m.blockchain rfl hreceived]
      intro b hb
      obtain ⟨sent, hsent, rfl⟩ := List.mem_map.mp hb
      exact (hm sent hsent).of_stored sent.stored_stored

theorem rule_allAdded : Rule (T := T) AllAdded fun _ _ => True where
  mono hsub h b hb := (h b hb).mono hsub
  mono_transaction _ h := h
  start _ _ _ hb := absurd hb List.not_mem_nil
  http h hhandling hanswered := ⟨h.http hhandling hanswered, fun _ _ => trivial⟩
  message h hcall hhandle := ⟨h.message hcall hhandle, fun _ _ => trivial⟩

/-- Whatever clients request, and whatever happens to the texts between the nodes, with or
    without `PROOF_OF_WORK`: a block is on the chain of a node only if a client was told
    that it had been added, and its data were put together for that client. -/
theorem Reachable.added_for_client {ι : Type} [DecidableEq ι] (hparse : ReadsDumps)
    {d : Deployment ι T} (hd : Reachable d) (i : ι) :
    ∀ b ∈ (d.nodes i).blockchain.blocks, Added d.exchanges b :=
  hd.ok hparse rule_allAdded i

end

end Deployment

/-! ## A block that another client has posted -/

/-- The second node has the block that a client has posted to the first one. -/
theorem Deployment.Reachable.added_for_client_two_nodes :
    letI := plainBuild
    letI := dumpReader
    (broadcastToSecond.nodes false).blockchain.blocks = [firstBlock] ∧
      Added broadcastToSecond.exchanges firstBlock := by
  let env := plainBuild
  let parser := dumpReader
  have hblocks : (broadcastToSecond.nodes false).blockchain.blocks = [firstBlock] := rfl
  have hadded := Reachable.added_for_client readsDumps_dumpReader reachable_broadcastToSecond false
  rw [hblocks] at hadded
  exact ⟨hblocks, hadded _ (List.mem_singleton_self _)⟩

end BuenzliCoin
