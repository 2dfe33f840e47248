-- SUMMARY: Nodes that exchange the texts of requests and responses, as runs of the network of messages.
import BuenzliCoin.Node.Endpoints

/-!
# Networks on the wire

What is in the medium here are texts. A request stays with the node that has sent
it and with the callback that its task has left behind; any node may serve it, and
its response may reach the callback at any later time, and again.
-/

namespace BuenzliCoin

open NodeData Relation WebSocketServer

structure Wire (ι T : Type) [NodeData T] where
  nodes : ι → Node T
  /-- What the handlers of each node have detached so far. -/
  tasks : Set (ι × Task)
  /-- The texts that have been sent so far, with the sender and its callback. -/
  requests : Set (String × ι × Node.Callback)
  /-- The texts that have been sent back so far. -/
  responses : Set (String × ι × Node.Callback)

namespace Wire

variable {ι T : Type} [NodeData T]

def init [Env] (host : ι → String) (port : ι → UInt16) : Wire ι T where
  nodes i := .new (host i) (port i)
  tasks := ∅
  requests := ∅
  responses := ∅

def sendRequest (w : Wire ι T) (request : String × ι × Node.Callback) : Wire ι T :=
  { w with requests := insert request w.requests }

def sendResponse (w : Wire ι T) (response : String × ι × Node.Callback) : Wire ι T :=
  { w with responses := insert response w.responses }

variable [DecidableEq ι]

/-- The nodes and tasks after a handler call or a callback at node `i`. -/
def after (w : Wire ι T) (i : ι) (reply : Reply T) : Wire ι T :=
  { w with
    nodes := Function.update w.nodes i reply.node
    tasks := w.tasks ∪ {task | task.1 = i ∧ task.2 ∈ reply.tasks} }

variable [Env]

-- ---------------------------------------------------------------------------
-- Texts and messages
-- ---------------------------------------------------------------------------

/-- A message with a block, as nodes form it. -/
def HoldsBlock (T : Type) [NodeData T] (data : Json) : Prop :=
  ∃ (n : Node T) (b : Block T), data = .object [("block", b.toJson), ("origin", n.origin)]

/-- A message with a chain, as nodes form it. -/
def HoldsChain (T : Type) [NodeData T] (data : Json) : Prop :=
  ∃ (n : Node T) (bc : Blockchain T),
    data = .object [("blockchain", bc.toJson), ("origin", n.origin)]

/-- The text of a request that stands for a message, with the callback that is left. -/
inductive Asks (T : Type) [NodeData T] (messages : Set Message) :
    String → Node.Callback → Prop where
  | requestLatestBlock (sent : .requestLatestBlock ∈ messages) :
    Asks T messages (request "/request-latest-block" none).dump .receiveLatestBlock
  | requestAllBlocks (sent : .requestAllBlocks ∈ messages) :
    Asks T messages (request "/request-all-blocks" none).dump .receiveAllBlocks
  | receiveLatestBlock {data : Json} (sent : .latestBlock data ∈ messages)
    (holds : HoldsBlock T data) :
    Asks T messages (request "/receive-latest-block" (some data)).dump .log
  | receiveTransaction (t : Transaction) :
    Asks T messages (request "/receive-transaction" (some t.toJson)).dump .log

/-- The text of a response that stands for a message, or for none. -/
inductive Answers (T : Type) [NodeData T] (messages : Set Message) :
    String → Node.Callback → Prop where
  | failed (what : String) (callback : Node.Callback) :
      Answers T messages (notOk what).dump callback
  | done {answer : Json} (written : answer.Written) : Answers T messages (ok answer).dump .log
  | latestBlock {data : Json} (sent : .latestBlock data ∈ messages) (holds : HoldsBlock T data) :
    Answers T messages (ok data).dump .receiveLatestBlock
  | allBlocks {data : Json} (sent : .allBlocks data ∈ messages) (holds : HoldsChain T data) :
    Answers T messages (ok data).dump .receiveAllBlocks

/-- The wire carries the messages of the network. -/
structure Carries (w : Wire ι T) (net : Network ι T) : Prop where
  nodes : w.nodes = net.nodes
  tasks : w.tasks = net.tasks
  requests : ∀ text i callback, (text, i, callback) ∈ w.requests →
    Asks T net.messages text callback
  responses : ∀ text i callback, (text, i, callback) ∈ w.responses →
    Answers T net.messages text callback

omit [DecidableEq ι] in
theorem carries_init (host : ι → String) (port : ι → UInt16) :
    Carries (init host port : Wire ι T) (Network.init host port) where
  nodes := rfl
  tasks := rfl
  requests _ _ _ h := absurd h (Set.notMem_empty _)
  responses _ _ _ h := absurd h (Set.notMem_empty _)

variable {w w' : Wire ι T} {net : Network ι T} {messages messages' : Set Message} {text : String}
  {callback : Node.Callback}

theorem Asks.mono (h : Asks T messages text callback) (hsub : messages ⊆ messages') :
    Asks T messages' text callback := by
  cases h with
  | requestLatestBlock sent => exact .requestLatestBlock (hsub sent)
  | requestAllBlocks sent => exact .requestAllBlocks (hsub sent)
  | receiveLatestBlock sent holds => exact .receiveLatestBlock (hsub sent) holds
  | receiveTransaction t => exact .receiveTransaction t

theorem Answers.mono (h : Answers T messages text callback) (hsub : messages ⊆ messages') :
    Answers T messages' text callback := by
  cases h with
  | failed what => exact .failed what callback
  | done written => exact .done written
  | latestBlock sent holds => exact .latestBlock (hsub sent) holds
  | allBlocks sent holds => exact .allBlocks (hsub sent) holds

namespace Carries

omit [DecidableEq ι] in
theorem send (h : Carries w net) (message : Message) : Carries w (net.send message) where
  nodes := h.nodes
  tasks := h.tasks
  requests _ _ _ hmem := (h.requests _ _ _ hmem).mono (Set.subset_insert ..)
  responses _ _ _ hmem := (h.responses _ _ _ hmem).mono (Set.subset_insert ..)

omit [DecidableEq ι] in
theorem sendRequest (h : Carries w net) (i : ι) (hasks : Asks T net.messages text callback) :
    Carries (w.sendRequest (text, i, callback)) net := by
  refine ⟨h.nodes, h.tasks, ?_, h.responses⟩
  intro text' i' callback' hmem
  rcases Set.mem_insert_iff.mp hmem with heq | hmem
  · cases heq
    exact hasks
  · exact h.requests _ _ _ hmem

omit [DecidableEq ι] in
theorem sendResponse (h : Carries w net) (i : ι) (hanswers : Answers T net.messages text callback) :
    Carries (w.sendResponse (text, i, callback)) net := by
  refine ⟨h.nodes, h.tasks, h.requests, ?_⟩
  intro text' i' callback' hmem
  rcases Set.mem_insert_iff.mp hmem with heq | hmem
  · cases heq
    exact hanswers
  · exact h.responses _ _ _ hmem

theorem after (h : Carries w net) (i : ι) {reply reply' : Reply T}
    (hnode : reply.node = reply'.node)
    (htasks : reply.tasks = reply'.tasks) : Carries (w.after i reply) (net.after i reply') where
  nodes := by simp only [Wire.after, Network.after, h.nodes, hnode]
  tasks := by simp only [Wire.after, Network.after, h.tasks, htasks]
  requests := h.requests
  responses := h.responses

/-- A call that leaves everything as it is. -/
theorem after_idle (h : Carries w net) {i : ι} {reply : Reply T} (hnode : reply.node = w.nodes i)
    (htasks : reply.tasks = []) : Carries (w.after i reply) net where
  nodes := by simp only [Wire.after, hnode, Function.update_eq_self, h.nodes]
  tasks := by simp [Wire.after, htasks, h.tasks]
  requests := h.requests
  responses := h.responses

end Carries

-- ---------------------------------------------------------------------------
-- Steps
-- ---------------------------------------------------------------------------

variable [LookupData T] [EndpointData T]

omit [Env] in
theorem HoldsBlock.written {data : Json} (h : HoldsBlock T data) : data.Written := by
  obtain ⟨n, b, rfl⟩ := h
  exact .object (by simp) (by simp [Block.written_toJson, Node.written_origin])

omit [Env] in
theorem HoldsChain.written {data : Json} (h : HoldsChain T data) : data.Written := by
  obtain ⟨n, bc, rfl⟩ := h
  exact .object (by simp) (by simp [Blockchain.written_toJson, Node.written_origin])

variable [JsonParser]

/-- One thing that happens on the wire: a call from outside, a detached task that sends
    its request, a request that is served, or a response that reaches its callback. -/
inductive Step (writer : ι) (w : Wire ι T) : Wire ι T → Prop where
  | call {i : ι} {clock : Clock} {call : Node.Call T} {reply : Reply T}
      (handled : (w.nodes i).handle clock call = some reply)
      (outside : call.Outside (i = writer)) : Step writer w (w.after i reply)
  | ask {i : ι} {task : Task} {request : Json} {callback : Node.Callback}
      (detached : (i, task) ∈ w.tasks) (asked : (w.nodes i).asks task = some (request, callback)) :
      Step writer w (w.sendRequest (request.dump, i, callback))
  | serve {i j : ι} {text : String} {callback : Node.Callback} {clock : Clock}
      {connection : Except String Unit} {served : Reply T} {response : Json}
      (sent : (text, i, callback) ∈ w.requests)
      (read : (w.nodes j).onRead clock connection text = some served)
      (answered : served.answer = .ok response) :
      Step writer w ((w.after j served).sendResponse (response.dump, i, callback))
  | receive {i : ι} {text : String} {callback : Node.Callback} {clock : Clock}
      {connection : Except String Unit} {reply : Reply T} (sent : (text, i, callback) ∈ w.responses)
      (called : (w.nodes i).callback clock connection text callback = some reply) :
      Step writer w (w.after i reply)

/-- What can come about when all nodes start with empty chains. -/
def Reachable (writer : ι) (w : Wire ι T) : Prop :=
  ∃ host port, ReflTransGen (Step writer) (init host port) w

/-- Some steps of the network, possibly none, that lead to what the wire then carries. -/
def Matches (writer : ι) (net : Network ι T) (w : Wire ι T) : Prop :=
  ∃ net', ReflTransGen (Network.Step writer) net net' ∧ Carries w net'

omit [LookupData T] [EndpointData T] [JsonParser] in
/-- A task that sends its request. -/
theorem Carries.ask (h : Carries w net) (writer : ι) {i : ι} {task : Task} {request : Json}
    (hdetached : (i, task) ∈ w.tasks)
    (hasked : (w.nodes i).asks task = some (request, callback)) :
    Matches writer net (w.sendRequest (request.dump, i, callback)) := by
  rw [h.tasks] at hdetached
  rw [h.nodes] at hasked
  cases task with
  | broadcastLatestBlock =>
    obtain ⟨data, hformed, heq⟩ := Option.map_eq_some_iff.mp hasked
    cases heq
    obtain ⟨b, -, rfl⟩ := Option.map_eq_some_iff.mp hformed
    refine ⟨_, .single (.broadcastLatestBlock hdetached hformed), (h.send _).sendRequest i ?_⟩
    exact .receiveLatestBlock (Set.mem_insert ..) ⟨_, b, rfl⟩
  | requestLatestBlock peerId =>
    cases hasked
    refine ⟨_, .single (.requestLatestBlock hdetached), (h.send _).sendRequest i ?_⟩
    exact .requestLatestBlock (Set.mem_insert ..)
  | requestAllBlocks peerId =>
    cases hasked
    refine ⟨_, .single (.requestAllBlocks hdetached), (h.send _).sendRequest i ?_⟩
    exact .requestAllBlocks (Set.mem_insert ..)
  | broadcastTransaction t =>
    cases hasked
    exact ⟨net, .refl, h.sendRequest i (.receiveTransaction t)⟩

omit [LookupData T] [EndpointData T] [JsonParser] in
/-- A response that only tells whether the request has succeeded. -/
theorem answers_log {answer : Except Error Json} {response : Json}
    (hwritten : ∀ j, answer = .ok j → j.Written) (h : respond answer = .ok response) :
    Answers T messages response.dump .log := by
  cases answer with
  | ok j =>
    cases h
    exact .done (hwritten j rfl)
  | error e =>
    obtain ⟨what, rfl⟩ := exists_what_of_respond_error h
    exact .failed what .log

omit [DecidableEq ι] [LookupData T] [EndpointData T] [Env] [JsonParser] in
theorem holdsBlock_of_answer {n : Node T} {data : Json}
    (h : n.handleRequestLatestBlock.answer = .ok data) : HoldsBlock T data := by
  simp only [Node.handleRequestLatestBlock] at h
  split at h <;> cases h
  exact ⟨n, _, rfl⟩

/-- A request that is served. -/
theorem Carries.serve (hparse : ReadsDumps) (h : Carries w net) (writer : ι) {i j : ι}
    {clock : Clock} {connection : Except String Unit} {served : Reply T} {response : Json}
    (hsent : (text, i, callback) ∈ w.requests)
    (hread : (w.nodes j).onRead clock connection text = some served)
    (hanswered : served.answer = .ok response) :
    Matches writer net ((w.after j served).sendResponse (response.dump, i, callback)) := by
  have hasks := h.requests text i callback hsent
  rw [h.nodes] at hread
  cases hasks with
  | requestLatestBlock sent =>
    rw [Node.onRead_request hparse _ _ _ (by simp) (Node.lookup_common rfl)] at hread
    obtain ⟨reply, hhandle, rfl⟩ := Option.map_eq_some_iff.mp hread
    cases hhandle
    cases hanswer : (net.nodes j).handleRequestLatestBlock.answer with
    | ok data =>
      rw [hanswer] at hanswered
      cases hanswered
      refine ⟨_, .single (.serveLatestBlock (i := j) sent hanswer),
        ((h.after_idle (congrFun h.nodes j).symm rfl).send _).sendResponse i ?_⟩
      exact .latestBlock (Set.mem_insert ..) (holdsBlock_of_answer hanswer)
    | error e =>
      rw [hanswer] at hanswered
      obtain ⟨what, rfl⟩ := exists_what_of_respond_error hanswered
      exact ⟨net, .refl,
        (h.after_idle (congrFun h.nodes j).symm rfl).sendResponse i (.failed what _)⟩
  | requestAllBlocks sent =>
    rw [Node.onRead_request hparse _ _ _ (by simp) (Node.lookup_common rfl)] at hread
    obtain ⟨reply, hhandle, rfl⟩ := Option.map_eq_some_iff.mp hread
    cases hhandle
    cases hanswered
    refine ⟨_, .single (.serveAllBlocks (i := j) sent rfl),
      ((h.after_idle (congrFun h.nodes j).symm rfl).send _).sendResponse i ?_⟩
    exact .allBlocks (Set.mem_insert ..) ⟨_, _, rfl⟩
  | @receiveLatestBlock data sent holds =>
    have hwritten : ∀ j ∈ some data, j.Written := by
      rintro _ ⟨⟩
      exact holds.written
    rw [Node.onRead_request hparse _ _ _ hwritten (Node.lookup_common rfl)] at hread
    obtain ⟨reply, hhandle, rfl⟩ := Option.map_eq_some_iff.mp hread
    refine ⟨_, .single (.receiveLatestBlock sent hhandle), (h.after j rfl rfl).sendResponse i ?_⟩
    exact answers_log
      (fun _ => (Node.Call.OfWebSocket.receiveLatestBlock _ _).written_answer hhandle) hanswered
  | receiveTransaction t =>
    obtain hdispatch | ⟨own, hmem, hdispatch⟩ := Node.dispatch_receiveTransaction (T := T) hparse t
    · rw [Node.onRead, hdispatch] at hread
      cases hread
      cases hanswered
      exact ⟨net, .refl, (h.after_idle (congrFun h.nodes j).symm rfl).sendResponse i (.failed _ _)⟩
    · rw [Node.onRead, hdispatch] at hread
      obtain ⟨reply, hhandle, rfl⟩ := Option.map_eq_some_iff.mp hread
      refine ⟨_, .single (.call hhandle trivial), (h.after j rfl rfl).sendResponse i ?_⟩
      exact answers_log
        (fun _ => (Node.Call.OfWebSocket.other hmem _).written_answer hhandle) hanswered

/-- A response that reaches its callback. -/
theorem Carries.receive (hparse : ReadsDumps) (h : Carries w net) (writer : ι) {i : ι}
    {clock : Clock} {connection : Except String Unit} {reply : Reply T}
    (hsent : (text, i, callback) ∈ w.responses)
    (hcalled : (w.nodes i).callback clock connection text callback = some reply) :
    Matches writer net (w.after i reply) := by
  rw [Node.callback_eq] at hcalled
  cases h.responses text i callback hsent with
  | failed what =>
    refine ⟨net, .refl, ?_⟩
    cases callback <;>
      (simp only [Node.Callback.call, Node.broughtBack_notOk hparse, Option.map_none] at hcalled
       cases hcalled
       exact h.after_idle rfl rfl)
  | done written =>
    cases hcalled
    exact ⟨net, .refl, h.after_idle rfl rfl⟩
  | @latestBlock data sent holds =>
    simp only [Node.Callback.call, Node.broughtBack_ok hparse holds.written, Option.map_some,
      h.nodes] at hcalled
    obtain ⟨reply', hhandle, rfl⟩ := Option.map_eq_some_iff.mp hcalled
    exact ⟨_, .single (.receiveLatestBlock sent hhandle), h.after i rfl rfl⟩
  | @allBlocks data sent holds =>
    simp only [Node.Callback.call, Node.broughtBack_ok hparse holds.written, Option.map_some,
      h.nodes] at hcalled
    obtain ⟨reply', hhandle, rfl⟩ := Option.map_eq_some_iff.mp hcalled
    exact ⟨_, .single (.receiveAllBlocks sent hhandle), h.after i rfl rfl⟩

/-- What happens on the wire happens in the network. -/
theorem Carries.step (hparse : ReadsDumps) (h : Carries w net) {writer : ι}
    (hstep : Step writer w w') : Matches writer net w' := by
  cases hstep with
  | call handled outside =>
    rw [h.nodes] at handled
    exact ⟨_, .single (.call handled outside), h.after _ rfl rfl⟩
  | ask detached asked => exact h.ask writer detached asked
  | serve sent read answered => exact h.serve hparse writer sent read answered
  | receive sent called => exact h.receive hparse writer sent called

/-- Every run on the wire is a run of the network of messages. -/
theorem Reachable.carries (hparse : ReadsDumps) {writer : ι} (hw : Reachable writer w) :
    ∃ net, Network.Reachable writer net ∧ Carries w net := by
  obtain ⟨host, port, hrun⟩ := hw
  induction hrun with
  | refl => exact ⟨_, ⟨host, port, .refl⟩, carries_init host port⟩
  | tail _ hlast ih =>
    obtain ⟨net, ⟨host', port', hnet⟩, hcarries⟩ := ih
    obtain ⟨net', hsteps, hcarries'⟩ := hcarries.step hparse hlast
    exact ⟨net', ⟨host', port', hnet.trans hsteps⟩, hcarries'⟩

/-- The texts that nodes exchange do what the messages they stand for do, and without
    `PROOF_OF_WORK` the chain of every node is a prefix of the writer's. -/
theorem Reachable.refines [ReplicatedData T] (hparse : ReadsDumps) {writer : ι}
    (hw : Reachable writer w) :
    (∃ net, Network.Reachable writer net ∧ w.nodes = net.nodes ∧ w.tasks = net.tasks) ∧
    (¬ Env.proofOfWork → ∀ i, (w.nodes i).blockchain.blocks.map Block.stored <+:
      (w.nodes writer).blockchain.blocks.map Block.stored) := by
  obtain ⟨net, hnet, hcarries⟩ := hw.carries hparse
  refine ⟨⟨net, hnet, hcarries.nodes, hcarries.tasks⟩, fun hpow i => ?_⟩
  obtain ⟨sys, hlogs, hsys⟩ := hnet.represents hpow
  rw [hcarries.nodes, ← hsys.replicas, ← hsys.replicas]
  exact LogReplication.replicas_prefix hlogs i

-- ---------------------------------------------------------------------------
-- Nothing is undefined
-- ---------------------------------------------------------------------------

end Wire

/-! ## One block on its way as a text -/

/-- The text of the request that brings the other node the block of the writer. -/
def firstRequest : Json := request "/receive-latest-block" (some firstMessage)

def afterFirstBroadcast : Wire Bool Text :=
  letI := plainBuild
  let start : Wire Bool Text := Wire.init (fun _ => "localhost") fun _ => 8332
  (start.after true ⟨afterFirst, .ok .null, [.broadcastLatestBlock]⟩).sendRequest
    (firstRequest.dump, true, .log)

theorem Wire.reachable_afterFirstBroadcast :
    letI := plainBuild
    letI := dumpReader
    Wire.Reachable true afterFirstBroadcast := by
  let env := plainBuild
  let parser := dumpReader
  let start : Wire Bool Text := Wire.init (fun _ => "localhost") fun _ => 8332
  have hpost : Wire.Step true start
      (start.after true ⟨afterFirst, .ok .null, [.broadcastLatestBlock]⟩) :=
    .call Node.handle_postFirst rfl
  have hask : Wire.Step true (start.after true ⟨afterFirst, .ok .null, [.broadcastLatestBlock]⟩)
      afterFirstBroadcast :=
    .ask (show (true, Task.broadcastLatestBlock) ∈ _ from .inr ⟨rfl, List.mem_singleton_self _⟩) rfl
  exact ⟨_, _, (ReflTransGen.single hpost).tail hask⟩

/-- The other node reads the text, and has the block of the writer then. -/
theorem Wire.Reachable.refines_two_nodes :
    letI := plainBuild
    letI := dumpReader
    ∃ w : Wire Bool Text, Wire.Reachable true w ∧ (∀ i, (w.nodes i).blockchain.length = 1) ∧
      (∃ net, Network.Reachable true net ∧ w.nodes = net.nodes ∧ w.tasks = net.tasks) ∧
      ∀ i, (w.nodes i).blockchain.blocks.map Block.stored <+:
        (w.nodes true).blockchain.blocks.map Block.stored := by
  let env := plainBuild
  let parser := dumpReader
  have hread : (afterFirstBroadcast.nodes false).onRead .epoch (.ok ()) firstRequest.dump =
      some ⟨afterFirst, .ok (ok .null), []⟩ := by
    rw [firstRequest, Node.onRead_request readsDumps_dumpReader _ _ _
      (by simpa using written_firstMessage) (Node.lookup_common rfl)]
    exact congrArg (Option.map _) Node.handle_receiveFirst
  have hserve : Wire.Step true afterFirstBroadcast _ :=
    .serve (i := true) (j := false) (.inl rfl) hread rfl
  obtain ⟨host, port, hrun⟩ := Wire.reachable_afterFirstBroadcast
  have hreachable : Wire.Reachable true _ := ⟨host, port, hrun.tail hserve⟩
  obtain ⟨hrefines, hprefix⟩ := Wire.Reachable.refines readsDumps_dumpReader hreachable
  refine ⟨_, hreachable, ?_, hrefines, hprefix (by decide)⟩
  rintro (_ | _) <;> rfl

end BuenzliCoin
