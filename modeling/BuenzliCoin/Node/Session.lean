-- SUMMARY: The connection of one node to another: requests are served in order and each answer finds its callback.
import BuenzliCoin.Node.Endpoints
import BuenzliCoin.Web.WebSocketClient

/-!
# Sessions

A connection to a peer from both of its ends. The server reads one request after
the other and answers each before it reads the next. Between two requests anything
may happen to its node: it serves other sessions, and its REST API. No callback of
a node sends a request itself.
-/

namespace BuenzliCoin

open Relation

-- ---------------------------------------------------------------------------
-- What the client leaves alone
-- ---------------------------------------------------------------------------

namespace WebSocketClient

variable {R C A : Type} {c c' : Connection R C A} {serve serve' : R → A}

/-- The answer that a callback gets depends only on that to its own request. -/
theorem step_readDone_congr {i : Nat}
    (h : ∀ request, c.written[c.answered.length]? = some request → serve request = serve' request) :
    step serve c (.readDone i []) = step serve' c (.readDone i []) := by
  simp only [step]
  split
  · refine congrArg _ (funext fun callback => ?_)
    cases hnext : c.written[c.answered.length]? with
    | none => rfl
    | some request =>
      simp only [bind, Option.bind_some, h request hnext]
  · rfl

theorem write_frame (c : Connection R C A) :
    c.write.sent = c.sent ∧ c.write.answered = c.answered := by
  unfold Connection.write
  split <;> exact ⟨rfl, rfl⟩

theorem send_frame (c : Connection R C A) (request : R × C) :
    (c.send request).sent = c.sent ++ [request] ∧ (c.send request).answered = c.answered := by
  simp only [Connection.send]
  split_ifs
  · exact ⟨rfl, rfl⟩
  · exact write_frame _

theorem onRead_frame (c : Connection R C A) (callback : C) (answer : A) :
    (c.onRead callback answer []).sent = c.sent ∧
      (c.onRead callback answer []).answered = c.answered ++ [(callback, answer)] := by
  have hnext : ∀ c : Connection R C A,
      (if c.sendQueue ≠ [] then c.write else c).sent = c.sent ∧
        (if c.sendQueue ≠ [] then c.write else c).answered = c.answered := by
    intro c
    by_cases hqueue : c.sendQueue ≠ []
    · rw [if_pos hqueue]
      exact write_frame c
    · rw [if_neg hqueue]
      exact ⟨rfl, rfl⟩
  exact hnext { c with answered := c.answered ++ [(callback, answer)] }

theorem step_run_frame (h : step serve c .run = some c') :
    c'.sent = c.sent ∧ c'.answered = c.answered := by
  simp only [step] at h
  split_ifs at h
  cases h
  exact ⟨rfl, rfl⟩

theorem step_writeDone_frame {i : Nat} (h : step serve c (.writeDone i) = some c') :
    c'.sent = c.sent ∧ c'.answered = c.answered := by
  simp only [step] at h
  split_ifs at h
  obtain ⟨callback, -, h⟩ := Option.bind_eq_some_iff.mp h
  obtain ⟨c₁, hwrite, h⟩ := Option.bind_eq_some_iff.mp h
  cases h
  unfold Connection.onWrite at hwrite
  split at hwrite
  · cases hwrite
  · cases hwrite
    exact ⟨rfl, rfl⟩

theorem step_readDone_frame {i : Nat} (h : step serve c (.readDone i []) = some c') :
    c'.sent = c.sent ∧ c'.answered.length = c.answered.length + 1 := by
  simp only [step] at h
  split_ifs at h
  obtain ⟨callback, -, h⟩ := Option.bind_eq_some_iff.mp h
  obtain ⟨request, -, h⟩ := Option.bind_eq_some_iff.mp h
  cases h
  obtain ⟨hsent, hanswered⟩ := onRead_frame
    { c with reads := c.reads.eraseIdx i, completed := c.completed + 1 } callback (serve request)
  refine ⟨hsent, ?_⟩
  simp only [Connection.poll, hanswered, List.length_append, List.length_singleton]

end WebSocketClient

-- ---------------------------------------------------------------------------
-- Sessions
-- ---------------------------------------------------------------------------

section

open WebSocketClient

variable {T : Type} [NodeData T] [LookupData T] [EndpointData T] [Env] [JsonParser]

/-- A request that has been served, and the node as the request found it. -/
structure Exchange (T : Type) [NodeData T] [LookupData T] [EndpointData T] [Env] [JsonParser] where
  node : Node T
  clock : Clock
  connection : Except String Unit
  request : Json
  served : Reply T
  response : Json
  read : node.onRead clock connection request.dump = some served
  answered : served.answer = .ok response

/-- What the client decodes of the response. -/
def Exchange.result (e : Exchange T) : Bool × String := decode e.response.dump

structure Session (C T : Type) [NodeData T] [LookupData T] [EndpointData T] [Env]
    [JsonParser] where
  /-- Each request carries its number among those that were sent. -/
  client : Connection (Nat × Json) C (Bool × String) := {}
  server : Node T
  log : List (Exchange T) := []

namespace Session

variable {C : Type}

/-- The result of a request that has been served. -/
def resultOf (log : List (Exchange T)) (number : Nat) : Bool × String :=
  (log[number]?.map Exchange.result).getD (false, "")

/-- What the client is served, given the result of each request. -/
def serving (results : Nat → Bool × String) (request : Nat × Json) : Bool × String :=
  results request.1

/-- One thing that happens in a session. -/
inductive Step (s : Session C T) : Session C T → Prop where
  | send (request : Json) (callback : C) (idle : s.client.running = false) :
    Step s { s with client := s.client.send ((s.client.sent.length, request), callback) }
  | run {client : Connection (Nat × Json) C (Bool × String)}
      (step : WebSocketClient.step (serving (resultOf s.log)) s.client .run = some client) :
      Step s { s with client }
  | writeDone {i : Nat} {client : Connection (Nat × Json) C (Bool × String)}
      (step : WebSocketClient.step (serving (resultOf s.log)) s.client (.writeDone i) =
        some client) :
      Step s { s with client }
  /-- The server reads the next request. -/
  | serve {number : Nat} (e : Exchange T) (node : e.node = s.server)
      (next : s.client.written[s.log.length]? = some (number, e.request)) :
      Step s { s with server := e.served.node, log := s.log ++ [e] }
  /-- The next response reaches the client. -/
  | readDone {i : Nat} {client : Connection (Nat × Json) C (Bool × String)}
      (arrived : s.client.answered.length < s.log.length)
      (step : WebSocketClient.step (serving (resultOf s.log)) s.client (.readDone i []) =
        some client) :
      Step s { s with client }
  /-- The node serves someone else. -/
  | elsewhere {clock : Clock} {call : Node.Call T} {reply : Reply T}
      (handled : s.server.handle clock call = some reply) : Step s { s with server := reply.node }

/-- The states of sessions with the node. -/
def Reachable (server : Node T) (s : Session C T) : Prop := ReflTransGen Step { server } s

-- ---------------------------------------------------------------------------
-- The client
-- ---------------------------------------------------------------------------

/-- The results agree with the requests that have been served. -/
def Agrees (results : Nat → Bool × String) (log : List (Exchange T)) : Prop :=
  ∀ k e, log[k]? = some e → results k = e.result

theorem agrees_resultOf (log : List (Exchange T)) : Agrees (resultOf log) log := by
  intro k e he
  simp only [resultOf, he, Option.map_some, Option.getD_some]

theorem Agrees.of_append {results : Nat → Bool × String} {log : List (Exchange T)} {e : Exchange T}
    (h : Agrees results (log ++ [e])) : Agrees results log := by
  intro k e' he
  refine h k e' ?_
  rw [List.getElem?_append_left (List.getElem?_eq_some_iff.mp he).1, he]

-- ---------------------------------------------------------------------------
-- The invariant
-- ---------------------------------------------------------------------------

/-- The client is in a phase of its pipeline, whatever the requests result in that have
    not been served yet; the server has read requests in the order of their numbers, and
    no answer arrives before it is given. -/
structure Ordered (s : Session C T) : Prop where
  phase : ∀ results, Agrees results s.log → Phase (serving results) s.client
  numbered : ∀ (k : Nat) (request : (Nat × Json) × C),
    s.client.sent[k]? = some request → request.1.1 = k
  logged : ∀ (k : Nat) (e : Exchange T), s.log[k]? = some e →
    ∃ callback, s.client.sent[k]? = some ((k, e.request), callback)
  answered : s.client.answered.length ≤ s.log.length

variable {s s' : Session C T}

theorem ordered_new (server : Node T) : Ordered ({ server } : Session C T) where
  phase results _ := phase_new _
  numbered _ _ h := by cases h
  logged _ _ h := by cases h
  answered := Nat.le_refl 0

/-- A written request was sent with the number at which it was written. -/
theorem Ordered.exists_sent (h : Ordered s) {k : Nat} {request : Nat × Json}
    (hwritten : s.client.written[k]? = some request) :
    request.1 = k ∧ ∃ callback, s.client.sent[k]? = some (request, callback) := by
  have hprefix := (h.phase _ (agrees_resultOf s.log)).pipelined.written
  obtain ⟨rest, hrest⟩ := hprefix
  have hmap : (s.client.sent.map Prod.fst)[k]? = some request := by
    rw [← hrest, List.getElem?_append_left (List.getElem?_eq_some_iff.mp hwritten).1, hwritten]
  obtain ⟨sent, hsent, rfl⟩ := Option.map_eq_some_iff.mp ((List.getElem?_map ..).symm.trans hmap)
  exact ⟨h.numbered k sent hsent, sent.2, hsent⟩

/-- A step of the client alone, in which nothing is sent. -/
theorem Ordered.client {c : Connection (Nat × Json) C (Bool × String)} (h : Ordered s)
    (hphase : ∀ results, Agrees results s.log → Phase (serving results) c)
    (hsent : c.sent = s.client.sent) (hanswered : c.answered.length ≤ s.log.length) :
    Ordered { s with client := c } where
  phase := hphase
  numbered := hsent ▸ h.numbered
  logged := hsent ▸ h.logged
  answered := hanswered

theorem Ordered.send (h : Ordered s) (request : Json) (callback : C)
    (hidle : s.client.running = false) :
    Ordered { s with client := s.client.send ((s.client.sent.length, request), callback) } := by
  obtain ⟨hsent, hanswered⟩ := send_frame s.client ((s.client.sent.length, request), callback)
  refine ⟨fun results hagrees => (h.phase results hagrees).send hidle _, ?_, ?_, ?_⟩
  · intro k sent hk
    rw [hsent, List.getElem?_append] at hk
    split_ifs at hk with hlt
    · exact h.numbered k sent hk
    · obtain ⟨hzero, rfl⟩ := List.getElem?_eq_some_iff.mp hk
      simp only [List.length_singleton] at hzero
      simp only [List.getElem_singleton]
      omega
  · intro k e he
    obtain ⟨callback', hk⟩ := h.logged k e he
    refine ⟨callback', ?_⟩
    rw [hsent, List.getElem?_append_left (List.getElem?_eq_some_iff.mp hk).1, hk]
  · rw [hanswered]
    exact h.answered

theorem Ordered.serve (h : Ordered s) {number : Nat} {e : Exchange T}
    (hnext : s.client.written[s.log.length]? = some (number, e.request)) (server : Node T) :
    Ordered { s with server, log := s.log ++ [e] } := by
  refine ⟨fun results hagrees => h.phase results hagrees.of_append, h.numbered, ?_, ?_⟩
  · intro k e' he'
    rw [List.getElem?_append] at he'
    split_ifs at he' with hlt
    · exact h.logged k e' he'
    · obtain ⟨hzero, rfl⟩ := List.getElem?_eq_some_iff.mp he'
      simp only [List.length_singleton] at hzero
      obtain rfl : k = s.log.length := by omega
      obtain ⟨hnumber, callback, hsent⟩ := h.exists_sent hnext
      cases hnumber
      exact ⟨callback, by simpa using hsent⟩
  · rw [List.length_append]
    exact Nat.le_add_right_of_le h.answered

/-- The answer that arrives is that to the request next in turn. -/
theorem Ordered.readDone (h : Ordered s) {i : Nat}
    {c : Connection (Nat × Json) C (Bool × String)}
    (harrived : s.client.answered.length < s.log.length)
    (hstep : step (serving (resultOf s.log)) s.client (.readDone i []) = some c) :
    Ordered { s with client := c } := by
  obtain ⟨hsent, hanswered⟩ := step_readDone_frame hstep
  refine h.client (fun results hagrees => ?_) hsent (by omega)
  have hsame : step (serving results) s.client (.readDone i []) = some c := by
    rw [← hstep]
    refine step_readDone_congr fun request hrequest => ?_
    obtain ⟨hnumber, -⟩ := h.exists_sent hrequest
    have hlogged := List.getElem?_eq_getElem harrived
    simp only [serving, hnumber]
    rw [hagrees _ _ hlogged, agrees_resultOf s.log _ _ hlogged]
  exact (h.phase results hagrees).step hsame (.inl rfl)

theorem Ordered.step (h : Ordered s) (hstep : Step s s') : Ordered s' := by
  cases hstep with
  | send request callback idle => exact h.send request callback idle
  | @run c step =>
    obtain ⟨hsent, hanswered⟩ := step_run_frame step
    refine h.client (fun results hagrees => ?_) hsent (hanswered ▸ h.answered)
    have hsame : WebSocketClient.step (serving results) s.client .run = some c := step
    exact (h.phase results hagrees).step hsame trivial
  | @writeDone i c step =>
    obtain ⟨hsent, hanswered⟩ := step_writeDone_frame step
    refine h.client (fun results hagrees => ?_) hsent (hanswered ▸ h.answered)
    have hsame : WebSocketClient.step (serving results) s.client (.writeDone i) = some c := step
    exact (h.phase results hagrees).step hsame trivial
  | serve e node next => exact h.serve next e.served.node
  | readDone arrived step => exact h.readDone arrived step
  | elsewhere handled => exact ⟨h.phase, h.numbered, h.logged, h.answered⟩

theorem Reachable.ordered {server : Node T} (h : Reachable server s) : Ordered s := by
  induction h with
  | refl => exact ordered_new server
  | tail _ hlast ih => exact ih.step hlast

/-- The results that have arrived are those of the requests that were sent first. -/
theorem Ordered.exists_exchange (h : Ordered s) {k : Nat} {callback : C} {result : Bool × String}
    (hanswered : s.client.answered[k]? = some (callback, result)) :
    ∃ e : Exchange T, s.log[k]? = some e ∧
      s.client.sent[k]? = some ((k, e.request), callback) ∧ result = e.result := by
  have hk := (List.getElem?_eq_some_iff.mp hanswered).1
  have hlogged := List.getElem?_eq_getElem (Nat.lt_of_lt_of_le hk h.answered)
  obtain ⟨callback', hsent⟩ := h.logged k _ hlogged
  obtain ⟨rest, hrest⟩ := (h.phase _ (agrees_resultOf s.log)).pipelined.answered
  have hmap := congrArg (fun answers => answers[k]?) hrest
  simp only [List.getElem?_append_left hk, hanswered, List.getElem?_map, hsent, Option.map_some,
    Option.some.injEq, Prod.mk.injEq] at hmap
  obtain ⟨rfl, rfl⟩ := hmap
  exact ⟨_, hlogged, hsent, agrees_resultOf s.log k _ hlogged⟩

/-- However the two ends and the other users of the server take turns, the requests are
    served once each and in order, and the answer to each reaches its own callback: what
    the handler has returned, or its error, in the state that it found. If nothing is in
    flight, every request has been answered. -/
theorem Reachable.exchanges (hparse : ReadsDumps) {server : Node T} (h : Reachable server s) :
    s.log.map Exchange.request <+: s.client.sent.map (fun request => request.1.2) ∧
    (∀ (k : Nat) callback result, s.client.answered[k]? = some (callback, result) →
      ∃ e : Exchange T, s.log[k]? = some e ∧
        s.client.sent[k]? = some ((k, e.request), callback) ∧ ∀ handler data,
          (Node.websocketSetup T).dispatch e.request.dump = .ok (handler, data) →
          ∃ reply, e.node.handle e.clock (handler data e.connection) = some reply ∧
            e.served.node = reply.node ∧ result = Node.outcome reply.answer) ∧
    (s.client.writes = [] → s.client.reads = [] →
      s.client.answered.length = s.client.sent.length) := by
  have hordered := h.ordered
  refine ⟨?_, ?_, ?_⟩
  · rw [List.prefix_iff_getElem?]
    intro k hk
    rw [List.length_map] at hk
    obtain ⟨callback, hsent⟩ := hordered.logged k _ (List.getElem?_eq_getElem hk)
    simp [hsent]
  · intro k callback result hanswered
    obtain ⟨e, hlogged, hsent, rfl⟩ := hordered.exists_exchange hanswered
    refine ⟨e, hlogged, hsent, fun handler data hdispatch => ?_⟩
    obtain ⟨reply, hhandle, hnode, -, hdecode⟩ :=
      Node.exists_reply_of_onRead hparse hdispatch e.read e.answered
    exact ⟨reply, hhandle, hnode, hdecode⟩
  · intro hwrites hreads
    have hfinished := (hordered.phase _ (agrees_resultOf s.log)).pipelined.finished hwrites hreads
    rw [hfinished.2, List.length_map]

end Session

end

/-! ## A node is asked for its latest block before and after it has one -/

/-- The node is asked, whatever it answers with. -/
def latestBlockExchange (node : Node Text) (response : Json)
    (answered : letI := plainBuild; WebSocketServer.respond node.handleRequestLatestBlock.answer =
      .ok response) :
    letI := plainBuild
    letI := dumpReader
    Exchange Text :=
  letI := plainBuild
  letI := dumpReader
  { node
    clock := .epoch
    connection := .ok ()
    request := WebSocketServer.request "/request-latest-block" none
    served := ⟨node, .ok response, []⟩
    response
    read := by
      rw [Node.onRead_request readsDumps_dumpReader _ _ _ (by simp) (Node.lookup_common rfl),
        ← answered]
      rfl
    answered := rfl }

/-- Two requests are sent at once. The first one fails; then someone else has a block
    mined, which the second one brings back. -/
theorem Session.Reachable.exchanges_latestBlock :
    letI := plainBuild
    letI := dumpReader
    ∃ s : Session Unit Text, Session.Reachable (.new "localhost" 8332) s ∧
      s.client.writes = [] ∧ s.client.reads = [] ∧ s.client.sent.length = 2 ∧
      s.client.answered.length = s.client.sent.length ∧
      s.client.answered[0]? = some ((), false, "Blockchain is empty") ∧
      s.client.answered[1]? = some ((), true, firstMessage.dump) := by
  let env := plainBuild
  let parser := dumpReader
  let first := latestBlockExchange (.new "localhost" 8332)
    (WebSocketServer.notOk "Blockchain is empty") rfl
  let second := latestBlockExchange afterFirst (WebSocketServer.ok firstMessage) rfl
  have hsent : Session.Reachable (C := Unit) (T := Text) (.new "localhost" 8332) _ :=
    (ReflTransGen.single (.send first.request () rfl)).tail (.send second.request () rfl)
  have hfirst : Session.Reachable (C := Unit) (T := Text) (.new "localhost" 8332) _ :=
    (((hsent.tail (.run rfl)).tail (.serve first rfl rfl)).tail (.writeDone (i := 0) rfl)).tail
      (.readDone (i := 0) (by exact Nat.zero_lt_one) rfl)
  have hposted : Session.Reachable (C := Unit) (T := Text) (.new "localhost" 8332) _ :=
    hfirst.tail (.elsewhere Node.handle_postFirst)
  have hreachable : Session.Reachable (C := Unit) (T := Text) (.new "localhost" 8332) _ :=
    ((hposted.tail (.serve second rfl rfl)).tail (.writeDone (i := 0) rfl)).tail
      (.readDone (i := 0) (by exact Nat.one_lt_two) rfl)
  obtain ⟨s, hreachable, hlog, hwrites, hreads, hlength⟩ :
      ∃ s, Session.Reachable (C := Unit) (.new "localhost" 8332) s ∧ s.log = [first, second] ∧
        s.client.writes = [] ∧ s.client.reads = [] ∧ s.client.sent.length = 2 :=
    ⟨_, hreachable, rfl, rfl, rfl, rfl⟩
  have hanswered :=
    (Session.Reachable.exchanges readsDumps_dumpReader hreachable).2.2 hwrites hreads
  have hresult : ∀ (k : Nat) e, s.log[k]? = some e → k < 2 →
      s.client.answered[k]? = some ((), e.result) := by
    intro k e he hk
    have hfound := List.getElem?_eq_getElem (hanswered.trans hlength ▸ hk)
    obtain ⟨e', he', -, hdecoded⟩ := hreachable.ordered.exists_exchange hfound
    cases he.symm.trans he'
    exact hfound.trans (congrArg (fun result => some ((), result)) hdecoded)
  have hfailed : first.result = (false, "Blockchain is empty") :=
    WebSocketServer.decode_notOk readsDumps_dumpReader _
  have hbrought : second.result = (true, firstMessage.dump) :=
    WebSocketServer.decode_ok readsDumps_dumpReader written_firstMessage
  refine ⟨s, hreachable, hwrites, hreads, hlength, hanswered, ?_, ?_⟩
  · rw [← hfailed]
    exact hresult 0 first (by rw [hlog]; rfl) (by decide)
  · rw [← hbrought]
    exact hresult 1 second (by rw [hlog]; rfl) (by decide)

end BuenzliCoin
