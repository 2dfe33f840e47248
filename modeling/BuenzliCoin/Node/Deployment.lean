-- SUMMARY: A whole network as its clients see it, with all texts that nodes exchange, and a rule for what holds of all nodes.
import BuenzliCoin.Lib.Runs
import BuenzliCoin.Node.Rest
import BuenzliCoin.Node.Wire

/-!
# Deployments

Clients reach the nodes over HTTP, and nodes reach each other with texts that get lost,
late, out of order, or more than once. Whatever a node hears from others, other nodes
have said. So what holds of a node that has just started, and is kept by requests of
clients and by what such nodes say, holds of all nodes at all times.
-/

namespace BuenzliCoin

open NodeData Relation WebSocketServer

/-- HTTP requests that were answered. -/
abbrev Exchanges (T : Type) [NodeData T] := Set (Node.RestExchange T)

structure Deployment (ι T : Type) [NodeData T] extends Wire ι T where
  /-- The HTTP requests that have been answered so far. -/
  exchanges : Exchanges T

namespace Deployment

variable {ι T : Type} [NodeData T]

def init [Env] (host : ι → String) (port : ι → UInt16) : Deployment ι T where
  toWire := .init host port
  exchanges := ∅

variable [DecidableEq ι]

/-- After a handler call or a callback at node `i`. -/
def after (d : Deployment ι T) (i : ι) (node : Node T) (tasks : List Task) : Deployment ι T :=
  { d with
    nodes := Function.update d.nodes i node
    tasks := d.tasks ∪ {task | task.1 = i ∧ task.2 ∈ tasks} }

def sendRequest (d : Deployment ι T) (request : String × ι × Node.Callback) : Deployment ι T :=
  { d with requests := insert request d.requests }

def sendResponse (d : Deployment ι T) (response : String × ι × Node.Callback) : Deployment ι T :=
  { d with responses := insert response d.responses }

def record (d : Deployment ι T) (exchange : Node.RestExchange T) : Deployment ι T :=
  { d with exchanges := insert exchange d.exchanges }

variable [LookupData T] [EndpointData T] [RestData T] [Env] [JsonParser]

/-- One thing that happens in a deployment: a client's request that is answered, a detached
    task that sends its request, a request that is served, or a response that reaches
    its callback. -/
inductive Step (d : Deployment ι T) : Deployment ι T → Prop where
  | http {i : ι} {clock : Clock} {around : Surroundings} {request : HttpRequest}
      {handled : Node.Handled T} {response : HttpResponse}
      (handling : (d.nodes i).handleRequest clock around request = some handled)
      (answered : handled.response = .ok response) :
      Step d ((d.record ⟨request, response, d.nodes i, handled.node⟩).after i handled.node
        handled.tasks)
  | ask {i : ι} {task : Task} {request : Json} {callback : Node.Callback}
      (detached : (i, task) ∈ d.tasks) (asked : (d.nodes i).asks task = some (request, callback)) :
      Step d (d.sendRequest (request.dump, i, callback))
  | serve {i j : ι} {text : String} {callback : Node.Callback} {clock : Clock}
      {connection : Except String Unit} {served : Reply T} {response : Json}
      (sent : (text, i, callback) ∈ d.requests)
      (read : (d.nodes j).onRead clock connection text = some served)
      (answered : served.answer = .ok response) :
      Step d ((d.after j served.node served.tasks).sendResponse (response.dump, i, callback))
  | receive {i : ι} {text : String} {callback : Node.Callback} {clock : Clock}
      {connection : Except String Unit} {reply : Reply T} (sent : (text, i, callback) ∈ d.responses)
      (called : (d.nodes i).callback clock connection text callback = some reply) :
      Step d (d.after i reply.node reply.tasks)

/-- What can come about when all nodes start with empty chains. -/
def Reachable (d : Deployment ι T) : Prop :=
  ∃ host port, ReflTransGen Step (init host port) d

-- ---------------------------------------------------------------------------
-- The rule
-- ---------------------------------------------------------------------------

section

variable (Ok : Exchanges T → Node T → Prop) (OkTransaction : Exchanges T → Transaction → Prop)
  (exchanges : Exchanges T)

/-- A message with the latest block of a node, as nodes form it. -/
def LatestBlockOf (data : Json) : Prop :=
  ∃ (n : Node T) (b : Block T), Ok exchanges n ∧ n.blockchain.latestBlock? = some b ∧
    data = .object [("block", b.toJson), ("origin", n.origin)]

/-- A message with the chain of a node, as nodes form it. -/
def ChainOf (data : Json) : Prop :=
  ∃ n : Node T, Ok exchanges n ∧
    data = .object [("blockchain", n.blockchain.toJson), ("origin", n.origin)]

/-- The calls that messages make, if they come from nodes of which `Ok` holds. -/
inductive FromNodes : Node.Call T → Prop where
  | requestLatestBlock : FromNodes .requestLatestBlock
  | requestAllBlocks : FromNodes .requestAllBlocks
  | receiveLatestBlock {data : Json} (holds : LatestBlockOf Ok exchanges data)
      (connection : Except String Unit) : FromNodes (.receiveLatestBlock data connection)
  | receiveAllBlocks {data : Json} (holds : ChainOf Ok exchanges data) :
    FromNodes (.receiveAllBlocks data)
  | other {own : String × (Json → Request T)} {t : Transaction}
      (mem : own ∈ EndpointData.webSocketTargets (T := T)) (ok : OkTransaction exchanges t) :
      FromNodes (.other (own.2 t.toJson))

/-- A node of which `Ok` holds, with tasks that broadcast only transactions of which
    `OkTransaction` holds. -/
def Keeps (node : Node T) (tasks : List Task) : Prop :=
  Ok exchanges node ∧ ∀ t, .broadcastTransaction t ∈ tasks → OkTransaction exchanges t

/-- What is to be shown of `Ok`: that it holds of a node that starts, that client's requests and
    messages of such nodes keep it, and that such a node only broadcasts transactions of
    which `OkTransaction` holds. -/
structure Rule : Prop where
  mono {exchanges exchanges' : Exchanges T} {n : Node T} (sub : exchanges ⊆ exchanges')
    (ok : Ok exchanges n) : Ok exchanges' n
  mono_transaction {exchanges exchanges' : Exchanges T} {t : Transaction}
    (sub : exchanges ⊆ exchanges') (ok : OkTransaction exchanges t) : OkTransaction exchanges' t
  start (host : String) (port : UInt16) : Ok ∅ (.new host port)
  http {exchanges : Exchanges T} {n : Node T} {clock : Clock} {around : Surroundings}
    {request : HttpRequest} {handled : Node.Handled T} {response : HttpResponse}
    (ok : Ok exchanges n) (handling : n.handleRequest clock around request = some handled)
    (answered : handled.response = .ok response) :
    Keeps Ok OkTransaction (insert ⟨request, response, n, handled.node⟩ exchanges) handled.node
      handled.tasks
  message {exchanges : Exchanges T} {n : Node T} {clock : Clock} {call : Node.Call T}
    {reply : Reply T} (ok : Ok exchanges n) (fromNodes : FromNodes Ok OkTransaction exchanges call)
    (handled : n.handle clock call = some reply) :
    Keeps Ok OkTransaction exchanges reply.node reply.tasks

/-- The text of a request of a node, with the callback that is left. -/
inductive Asked : String → Node.Callback → Prop where
  | requestLatestBlock :
    Asked (request "/request-latest-block" none).dump .receiveLatestBlock
  | requestAllBlocks : Asked (request "/request-all-blocks" none).dump .receiveAllBlocks
  | receiveLatestBlock {data : Json} (holds : LatestBlockOf Ok exchanges data) :
    Asked (request "/receive-latest-block" (some data)).dump .log
  | receiveTransaction {t : Transaction} (ok : OkTransaction exchanges t) :
    Asked (request "/receive-transaction" (some t.toJson)).dump .log

/-- The text of a response of a node. -/
inductive Answered : String → Node.Callback → Prop where
  | failed (what : String) (callback : Node.Callback) : Answered (notOk what).dump callback
  | log (text : String) : Answered text .log
  | latestBlock {data : Json} (holds : LatestBlockOf Ok exchanges data) :
    Answered (ok data).dump .receiveLatestBlock
  | allBlocks {data : Json} (holds : ChainOf Ok exchanges data) :
    Answered (ok data).dump .receiveAllBlocks

/-- Everything in the deployment comes from nodes of which `Ok` holds. -/
structure Sound (d : Deployment ι T) : Prop where
  nodes : ∀ i, Ok d.exchanges (d.nodes i)
  tasks : ∀ i t, (i, .broadcastTransaction t) ∈ d.tasks → OkTransaction d.exchanges t
  requests : ∀ text i callback, (text, i, callback) ∈ d.requests →
    Asked Ok OkTransaction d.exchanges text callback
  responses : ∀ text i callback, (text, i, callback) ∈ d.responses →
    Answered Ok d.exchanges text callback

end

variable {Ok : Exchanges T → Node T → Prop} {OkTransaction : Exchanges T → Transaction → Prop}
  {exchanges exchanges' : Exchanges T} {text : String} {callback : Node.Callback} {data : Json}

/-! ## More exchanges -/

theorem LatestBlockOf.mono (hrule : Rule Ok OkTransaction) (hsub : exchanges ⊆ exchanges')
    (h : LatestBlockOf Ok exchanges data) : LatestBlockOf Ok exchanges' data := by
  obtain ⟨n, b, hok, hlatest, hdata⟩ := h
  exact ⟨n, b, hrule.mono hsub hok, hlatest, hdata⟩

theorem ChainOf.mono (hrule : Rule Ok OkTransaction) (hsub : exchanges ⊆ exchanges')
    (h : ChainOf Ok exchanges data) : ChainOf Ok exchanges' data := by
  obtain ⟨n, hok, hdata⟩ := h
  exact ⟨n, hrule.mono hsub hok, hdata⟩

theorem Asked.mono (hrule : Rule Ok OkTransaction) (hsub : exchanges ⊆ exchanges')
    (h : Asked Ok OkTransaction exchanges text callback) :
    Asked Ok OkTransaction exchanges' text callback := by
  cases h with
  | requestLatestBlock => exact .requestLatestBlock
  | requestAllBlocks => exact .requestAllBlocks
  | receiveLatestBlock holds => exact .receiveLatestBlock (holds.mono hrule hsub)
  | receiveTransaction ok => exact .receiveTransaction (hrule.mono_transaction hsub ok)

theorem Answered.mono (hrule : Rule Ok OkTransaction) (hsub : exchanges ⊆ exchanges')
    (h : Answered Ok exchanges text callback) : Answered Ok exchanges' text callback := by
  cases h with
  | failed what callback => exact .failed what callback
  | log text => exact .log text
  | latestBlock holds => exact .latestBlock (holds.mono hrule hsub)
  | allBlocks holds => exact .allBlocks (holds.mono hrule hsub)

/-! ## Between two nodes -/

omit [LookupData T] [EndpointData T] [RestData T] [Env] [JsonParser] in
theorem latestBlockOf_of_answer {n : Node T} (hok : Ok exchanges n)
    (h : n.handleRequestLatestBlock.answer = .ok data) : LatestBlockOf Ok exchanges data := by
  simp only [Node.handleRequestLatestBlock] at h
  split at h
  · cases h
  · next b hlatest =>
    cases h
    exact ⟨n, b, hok, hlatest, rfl⟩

omit [RestData T] [Env] [JsonParser] in
theorem LatestBlockOf.written (h : LatestBlockOf Ok exchanges data) : data.Written := by
  obtain ⟨n, b, -, -, rfl⟩ := h
  exact Wire.HoldsBlock.written (T := T) ⟨n, b, rfl⟩

omit [RestData T] [Env] [JsonParser] in
theorem ChainOf.written (h : ChainOf Ok exchanges data) : data.Written := by
  obtain ⟨n, -, rfl⟩ := h
  exact Wire.HoldsChain.written (T := T) ⟨n, n.blockchain, rfl⟩

omit [LookupData T] [EndpointData T] [RestData T] [JsonParser] in
/-- The request that a task sends. -/
theorem asked_of_asks {n : Node T} {task : Task} {request : Json} (hok : Ok exchanges n)
    (htask : ∀ t, task = .broadcastTransaction t → OkTransaction exchanges t)
    (h : n.asks task = some (request, callback)) :
    Asked Ok OkTransaction exchanges request.dump callback := by
  cases task with
  | broadcastLatestBlock =>
    obtain ⟨data, hformed, heq⟩ := Option.map_eq_some_iff.mp h
    cases heq
    obtain ⟨b, hlatest, rfl⟩ := Option.map_eq_some_iff.mp hformed
    exact .receiveLatestBlock ⟨n, b, hok, hlatest, rfl⟩
  | requestLatestBlock peerId =>
    cases h
    exact .requestLatestBlock
  | requestAllBlocks peerId =>
    cases h
    exact .requestAllBlocks
  | broadcastTransaction t =>
    cases h
    exact .receiveTransaction (htask t rfl)

/-- A request that is served. -/
theorem Asked.serve (hparse : ReadsDumps) (hrule : Rule Ok OkTransaction) {n : Node T}
    {clock : Clock} {connection : Except String Unit} {served : Reply T} {response : Json}
    (hok : Ok exchanges n) (h : Asked Ok OkTransaction exchanges text callback)
    (hread : n.onRead clock connection text = some served)
    (hanswered : served.answer = .ok response) :
    Keeps Ok OkTransaction exchanges served.node served.tasks ∧
      Answered Ok exchanges response.dump callback := by
  cases h with
  | requestLatestBlock =>
    rw [Node.onRead_request hparse _ _ _ (by simp) (Node.lookup_common rfl)] at hread
    obtain ⟨reply, hhandle, rfl⟩ := Option.map_eq_some_iff.mp hread
    have hkept := hrule.message hok .requestLatestBlock hhandle
    refine ⟨hkept, ?_⟩
    cases hhandle
    cases hanswer : n.handleRequestLatestBlock.answer with
    | ok data =>
      rw [hanswer] at hanswered
      cases hanswered
      exact .latestBlock (latestBlockOf_of_answer hok hanswer)
    | error e =>
      rw [hanswer] at hanswered
      obtain ⟨what, rfl⟩ := exists_what_of_respond_error hanswered
      exact .failed what _
  | requestAllBlocks =>
    rw [Node.onRead_request hparse _ _ _ (by simp) (Node.lookup_common rfl)] at hread
    obtain ⟨reply, hhandle, rfl⟩ := Option.map_eq_some_iff.mp hread
    have hkept := hrule.message hok .requestAllBlocks hhandle
    refine ⟨hkept, ?_⟩
    cases hhandle
    cases hanswered
    exact .allBlocks ⟨n, hok, rfl⟩
  | @receiveLatestBlock data holds =>
    have hwritten : ∀ j ∈ some data, j.Written := by
      rintro _ ⟨⟩
      exact holds.written
    rw [Node.onRead_request hparse _ _ _ hwritten (Node.lookup_common rfl)] at hread
    obtain ⟨reply, hhandle, rfl⟩ := Option.map_eq_some_iff.mp hread
    have hkept := hrule.message hok (.receiveLatestBlock holds connection) hhandle
    exact ⟨hkept, .log _⟩
  | @receiveTransaction t ok =>
    obtain hdispatch | ⟨own, hmem, hdispatch⟩ := Node.dispatch_receiveTransaction (T := T) hparse t
    · rw [Node.onRead, hdispatch] at hread
      cases hread
      exact ⟨⟨hok, fun _ ht => absurd ht List.not_mem_nil⟩, .log _⟩
    · rw [Node.onRead, hdispatch] at hread
      obtain ⟨reply, hhandle, rfl⟩ := Option.map_eq_some_iff.mp hread
      have hkept := hrule.message hok (.other hmem ok) hhandle
      exact ⟨hkept, .log _⟩

/-- A response that reaches its callback. -/
theorem Answered.receive (hparse : ReadsDumps) (hrule : Rule Ok OkTransaction) {n : Node T}
    {clock : Clock} {connection : Except String Unit} {reply : Reply T} (hok : Ok exchanges n)
    (h : Answered Ok exchanges text callback)
    (hcalled : n.callback clock connection text callback = some reply) :
    Keeps Ok OkTransaction exchanges reply.node reply.tasks := by
  have hidle : Keeps Ok OkTransaction exchanges n [] :=
    ⟨hok, fun _ ht => absurd ht List.not_mem_nil⟩
  rw [Node.callback_eq] at hcalled
  cases h with
  | failed what =>
    cases callback <;>
      (simp only [Node.Callback.call, Node.broughtBack_notOk hparse, Option.map_none] at hcalled
       cases hcalled
       exact hidle)
  | log =>
    cases hcalled
    exact hidle
  | @latestBlock data holds =>
    simp only [Node.Callback.call, Node.broughtBack_ok hparse holds.written, Option.map_some]
      at hcalled
    obtain ⟨reply', hhandle, rfl⟩ := Option.map_eq_some_iff.mp hcalled
    have hkept := hrule.message hok (.receiveLatestBlock holds connection) hhandle
    exact hkept
  | @allBlocks data holds =>
    simp only [Node.Callback.call, Node.broughtBack_ok hparse holds.written, Option.map_some]
      at hcalled
    obtain ⟨reply', hhandle, rfl⟩ := Option.map_eq_some_iff.mp hcalled
    have hkept := hrule.message hok (.receiveAllBlocks holds) hhandle
    exact hkept

/-! ## Runs -/

section

variable {d d' : Deployment ι T}

omit [DecidableEq ι] in
theorem sound_init (hrule : Rule Ok OkTransaction) (host : ι → String) (port : ι → UInt16) :
    Sound Ok OkTransaction (init host port) where
  nodes i := hrule.start (host i) (port i)
  tasks _ _ h := absurd h (Set.notMem_empty _)
  requests _ _ _ h := absurd h (Set.notMem_empty _)
  responses _ _ _ h := absurd h (Set.notMem_empty _)

namespace Sound

omit [DecidableEq ι] in
theorem record (hrule : Rule Ok OkTransaction) (h : Sound Ok OkTransaction d)
    (exchange : Node.RestExchange T) : Sound Ok OkTransaction (d.record exchange) where
  nodes i := hrule.mono (Set.subset_insert ..) (h.nodes i)
  tasks i t hmem := hrule.mono_transaction (Set.subset_insert ..) (h.tasks i t hmem)
  requests text i callback hmem :=
    (h.requests text i callback hmem).mono hrule (Set.subset_insert ..)
  responses text i callback hmem :=
    (h.responses text i callback hmem).mono hrule (Set.subset_insert ..)

omit [LookupData T] [EndpointData T] [RestData T] [JsonParser] in
theorem after (h : Sound Ok OkTransaction d) {i : ι} {node : Node T} {tasks : List Task}
    (hkeeps : Keeps Ok OkTransaction d.exchanges node tasks) :
    Sound Ok OkTransaction (d.after i node tasks) where
  nodes j := by
    by_cases hj : j = i
    · subst hj
      simp only [Deployment.after, Function.update_self]
      exact hkeeps.1
    · simp only [Deployment.after, Function.update_of_ne hj]
      exact h.nodes j
  tasks j t hmem := by
    rcases hmem with hmem | ⟨-, hmem⟩
    · exact h.tasks j t hmem
    · exact hkeeps.2 t hmem
  requests := h.requests
  responses := h.responses

omit [DecidableEq ι] [LookupData T] [EndpointData T] [RestData T] [JsonParser] in
theorem sendRequest (h : Sound Ok OkTransaction d) (i : ι)
    (hasked : Asked Ok OkTransaction d.exchanges text callback) :
    Sound Ok OkTransaction (d.sendRequest (text, i, callback)) := by
  refine ⟨h.nodes, h.tasks, ?_, h.responses⟩
  intro text' i' callback' hmem
  rcases Set.mem_insert_iff.mp hmem with heq | hmem
  · cases heq
    exact hasked
  · exact h.requests _ _ _ hmem

omit [DecidableEq ι] [LookupData T] [EndpointData T] [RestData T] [JsonParser] in
theorem sendResponse (h : Sound Ok OkTransaction d) (i : ι)
    (hanswered : Answered Ok d.exchanges text callback) :
    Sound Ok OkTransaction (d.sendResponse (text, i, callback)) := by
  refine ⟨h.nodes, h.tasks, h.requests, ?_⟩
  intro text' i' callback' hmem
  rcases Set.mem_insert_iff.mp hmem with heq | hmem
  · cases heq
    exact hanswered
  · exact h.responses _ _ _ hmem

theorem step (hparse : ReadsDumps) (hrule : Rule Ok OkTransaction) (h : Sound Ok OkTransaction d)
    (hstep : Step d d') : Sound Ok OkTransaction d' := by
  cases hstep with
  | http handling answered =>
    exact (h.record hrule _).after (hrule.http (h.nodes _) handling answered)
  | ask detached asked =>
    refine h.sendRequest _ (asked_of_asks (h.nodes _) ?_ asked)
    rintro t rfl
    exact h.tasks _ t detached
  | serve sent read answered =>
    obtain ⟨hkeeps, hanswered⟩ :=
      (h.requests _ _ _ sent).serve hparse hrule (h.nodes _) read answered
    exact (h.after hkeeps).sendResponse _ hanswered
  | receive sent called =>
    exact h.after ((h.responses _ _ _ sent).receive hparse hrule (h.nodes _) called)

end Sound

/-- The rule for deployments: what it takes to hold of all nodes at all times. -/
theorem Reachable.ok (hparse : ReadsDumps) (hrule : Rule Ok OkTransaction) (hd : Reachable d)
    (i : ι) : Ok d.exchanges (d.nodes i) := by
  obtain ⟨host, port, hrun⟩ := hd
  have hsound : Sound Ok OkTransaction d := by
    induction hrun with
    | refl => exact sound_init hrule host port
    | tail _ hlast ih => exact ih.step hparse hrule hlast
  exact hsound.nodes i

end

end Deployment

-- ---------------------------------------------------------------------------
-- Runs of handlers
-- ---------------------------------------------------------------------------

section

variable {T : Type} [NodeData T] [LookupData T] [EndpointData T] [RestData T] [Env] [JsonParser]

namespace Node

/-- A call of one of the handlers that `http_setup` and `websocket_setup` register. -/
def Call.Registered (call : Call T) : Prop := call.OfHttp ∨ call.OfWebSocket

/-- The node is left alone, or one handler is called. -/
def Calls (n n' : Node T) : Prop :=
  n' = n ∨ ∃ clock call, Call.Registered call ∧ n.step (clock, call) = some n'

omit [JsonParser] in
theorem calls_of_handle {n : Node T} {clock : Clock} {call : Call T} {reply : Reply T}
    (hcall : call.Registered) (h : n.handle clock call = some reply) : n.Calls reply.node :=
  .inr ⟨clock, call, hcall, step_eq_some.mpr ⟨reply, h, rfl⟩⟩

theorem calls_of_handleRequest {n : Node T} {clock : Clock} {around : Surroundings}
    {request : HttpRequest} {handled : Handled T}
    (h : n.handleRequest clock around request = some handled) : n.Calls handled.node := by
  unfold handleRequest at h
  split at h
  · cases h
    exact .inl rfl
  · next handler data hdispatch =>
    obtain ⟨reply, hhandle, rfl⟩ := Option.map_eq_some_iff.mp h
    have hmem := HttpServer.mem_of_find (HttpServer.of_dispatch hdispatch).2
    have hcalls := calls_of_handle (.inl (ofHttp_of_mem hmem data around)) hhandle
    exact hcalls

theorem calls_of_onRead {n : Node T} {clock : Clock} {connection : Except String Unit}
    {text : String} {served : Reply T} (h : n.onRead clock connection text = some served) :
    n.Calls served.node := by
  unfold onRead at h
  split at h
  · cases h
    exact .inl rfl
  · next handler data hdispatch =>
    obtain ⟨reply, hhandle, rfl⟩ := Option.map_eq_some_iff.mp h
    obtain ⟨target, hlookup⟩ := WebSocketServer.exists_lookup_of_dispatch hdispatch
    have hcalls := calls_of_handle (.inr (ofWebSocket_of_lookup hlookup data connection)) hhandle
    exact hcalls

theorem calls_of_callback {n : Node T} {clock : Clock} {connection : Except String Unit}
    {text : String} {callback : Callback} {reply : Reply T}
    (h : n.callback clock connection text callback = some reply) : n.Calls reply.node := by
  rw [callback_eq] at h
  cases hcall : (callback.call connection text : Option (Call T)) with
  | none =>
    rw [hcall] at h
    cases h
    exact .inl rfl
  | some call =>
    rw [hcall] at h
    obtain ⟨reply', hhandle, rfl⟩ := Option.map_eq_some_iff.mp h
    have hcalls := calls_of_handle (.inr (Callback.ofWebSocket_of_call hcall)) hhandle
    exact hcalls

end Node

namespace Deployment

variable {ι : Type} [DecidableEq ι]

omit [JsonParser] in
theorem Calls.after {d : Deployment ι T} {i : ι} {node : Node T} (h : (d.nodes i).Calls node)
    (tasks : List Task) (j : ι) : (d.nodes j).Calls ((d.after i node tasks).nodes j) := by
  by_cases hj : j = i
  · subst hj
    simpa only [Deployment.after, Function.update_self] using h
  · simp only [Deployment.after, Function.update_of_ne hj]
    exact .inl rfl

/-- One thing that happens in a deployment is at most one call of a handler at each node. -/
theorem Step.calls {d d' : Deployment ι T} (h : Step d d') (j : ι) :
    (d.nodes j).Calls (d'.nodes j) := by
  cases h with
  | http handling answered =>
    exact Calls.after (d := d.record _) (Node.calls_of_handleRequest handling) _ j
  | ask detached asked => exact .inl rfl
  | @serve i _ text callback clock connection served response sent read answered =>
    exact Calls.after (Node.calls_of_onRead read) served.tasks j
  | receive sent called => exact Calls.after (Node.calls_of_callback called) _ j

/-- Whatever clients and texts do to a deployment, each of its nodes is at the end of a run
    of handlers that it has registered: what holds along all such runs of one node holds of
    all nodes of all deployments. -/
theorem Reachable.runs_handlers {d : Deployment ι T} (hd : Reachable d) (i : ι) :
    ∃ host port inputs, (∀ input ∈ inputs, input.2.Registered) ∧
      Runs.run Node.step (Node.new host port : Node T) inputs = some (d.nodes i) := by
  obtain ⟨host, port, hrun⟩ := hd
  refine ⟨host i, port i, ?_⟩
  induction hrun with
  | refl => exact ⟨[], fun _ h => absurd h List.not_mem_nil, rfl⟩
  | tail _ hlast ih =>
    obtain ⟨inputs, hinputs, hrun⟩ := ih
    obtain hsame | ⟨clock, call, hcall, hstep⟩ := hlast.calls i
    · rw [hsame]
      exact ⟨inputs, hinputs, hrun⟩
    · refine ⟨inputs ++ [(clock, call)], ?_, Runs.run_concat hrun hstep⟩
      rw [List.forall_mem_append, List.forall_mem_singleton]
      exact ⟨hinputs, hcall⟩

end Deployment

end

-- ---------------------------------------------------------------------------
-- Clients that post, and nodes that are told
-- ---------------------------------------------------------------------------

namespace Deployment

section

variable {ι T : Type} [NodeData T] [DecidableEq ι]

/-- After a client's request to node `i` that was answered. -/
def posted (d : Deployment ι T) (i : ι) (request : HttpRequest) (response : HttpResponse)
    (node : Node T) (tasks : List Task) : Deployment ι T :=
  (d.record ⟨request, response, d.nodes i, node⟩).after i node tasks

/-- After a request of node `i` to node `j` that it has answered with null. -/
def served [Env] (d : Deployment ι T) (i j : ι) (request : Json) (node : Node T) :
    Deployment ι T :=
  ((d.sendRequest (request.dump, i, .log)).after j node []).sendResponse
    ((WebSocketServer.ok .null).dump, i, .log)

variable [LookupData T] [EndpointData T] [RestData T] [Env] [JsonParser]

theorem step_posted {d : Deployment ι T} {i : ι} {request : HttpRequest} {response : HttpResponse}
    {node : Node T} {tasks : List Task}
    (h : (d.nodes i).handleRequest .epoch ⟨0, .ok (), .ok ()⟩ request =
      some ⟨node, .ok response, tasks⟩) : Step d (d.posted i request response node tasks) :=
  .http h rfl

theorem steps_served {d : Deployment ι T} {i j : ι} {task : Task} {request : Json} {node : Node T}
    (htask : (i, task) ∈ d.tasks) (hasks : (d.nodes i).asks task = some (request, .log))
    (hread : (d.nodes j).onRead .epoch (.ok ()) request.dump =
      some ⟨node, .ok (WebSocketServer.ok .null), []⟩) :
    ReflTransGen Step d (d.served i j request node) := by
  have hask : Step d (d.sendRequest (request.dump, i, .log)) := .ask htask hasks
  have hsent : (request.dump, i, Node.Callback.log) ∈
      (d.sendRequest (request.dump, i, .log)).requests := .inl rfl
  have hserve : Step (d.sendRequest (request.dump, i, .log)) (d.served i j request node) :=
    .serve hsent hread rfl
  exact (ReflTransGen.single hask).tail hserve

end

end Deployment

/-- The broadcast of a latest block is read as it was sent. -/
theorem Node.onRead_latestBlock {T : Type} [NodeData T] [LookupData T] [EndpointData T] [Env]
    [JsonParser] (hparse : ReadsDumps) {n node : Node T} {data : Json}
    (hdata : Wire.HoldsBlock T data)
    (hhandle : n.handle .epoch (.receiveLatestBlock data (.ok ())) = some ⟨node, .ok .null, []⟩) :
    n.onRead .epoch (.ok ())
      (WebSocketServer.request "/receive-latest-block" (some data)).dump =
      some ⟨node, .ok (WebSocketServer.ok .null), []⟩ := by
  have hwritten : ∀ j ∈ some data, j.Written := by
    rintro _ ⟨⟩
    exact hdata.written
  rw [onRead_request hparse _ _ _ hwritten (lookup_common rfl)]
  exact congrArg (Option.map _) hhandle

/-! ## A block that is posted at one node, and a number that is refused there -/

/-- A client has posted a block to the first of two nodes. -/
def postedToFirst : Deployment Bool Text :=
  letI := plainBuild
  (Deployment.init (fun _ => "localhost") fun _ => 8332).posted true postFirst nullResponse
    postedFirst.node postedFirst.tasks

/-- The second node has served the broadcast of the first one. -/
def broadcastToSecond : Deployment Bool Text :=
  letI := plainBuild
  postedToFirst.served true false firstRequest afterFirst

theorem Deployment.reachable_broadcastToSecond :
    letI := plainBuild
    letI := dumpReader
    Reachable broadcastToSecond := by
  let env := plainBuild
  let parser := dumpReader
  have hpost : Step (.init (fun _ => "localhost") fun _ => 8332) postedToFirst :=
    step_posted Node.handleRequest_postFirst
  have hbroadcast : ReflTransGen Step postedToFirst broadcastToSecond := by
    refine steps_served (show (true, Task.broadcastLatestBlock) ∈ _ from .inr ⟨rfl, .head _⟩) rfl ?_
    exact Node.onRead_latestBlock readsDumps_dumpReader ⟨_, firstBlock, rfl⟩
      Node.handle_receiveFirst
  exact ⟨_, _, (ReflTransGen.single hpost).trans hbroadcast⟩

/-- Both nodes have the block then, and each has come by it in a way of its own. -/
theorem Deployment.Reachable.runs_handlers_two_nodes :
    letI := plainBuild
    letI := dumpReader
    ∃ d : Deployment Bool Text, Reachable d ∧ (∃ e ∈ d.exchanges, e.response.status = 400) ∧
      (∀ i, (d.nodes i).blockchain.blocks = [firstBlock]) ∧
      ∀ i, ∃ host port inputs,
        (∀ input ∈ inputs, Node.Call.Registered (T := Text) input.2) ∧
        Runs.run Node.step (Node.new host port : Node Text) inputs = some (d.nodes i) := by
  let env := plainBuild
  let parser := dumpReader
  have hrefused : afterFirst.handle .epoch (.blocksPost (.numberUnsigned 1) 0) =
      some { node := afterFirst, answer := .error _ } := rfl
  have hnumber : Step broadcastToSecond (broadcastToSecond.posted false _ _ _ _) :=
    step_posted (Node.handleRequest_postJson (.unsigned 1) Node.find_blocksPost hrefused rfl)
  obtain ⟨host, port, hrun⟩ := reachable_broadcastToSecond
  have hreachable : Reachable _ := ⟨host, port, hrun.tail hnumber⟩
  refine ⟨_, hreachable, ⟨_, Set.mem_insert .., rfl⟩, ?_, hreachable.runs_handlers⟩
  rintro (_ | _) <;> rfl

end BuenzliCoin
