-- SUMMARY: The WebSocket endpoint of a node: its targets, the requests it sends to peers, and its callbacks.
import BuenzliCoin.Node.Malformed
import BuenzliCoin.Node.Network
import BuenzliCoin.Web.WebSocketServer

/-!
# WebSocket endpoints

A text that arrives reaches a handler through the table of `websocket_setup`. A
task writes the text of its request to a peer and leaves a callback, which is
called with what the client decodes of the response.
-/

namespace BuenzliCoin

open NodeData Except

/-- The targets of a build that only handlers under `#ifdef TRANSACTIONS` serve, and that
    the JSON forms of its data can be read back from their texts. -/
class EndpointData (T : Type) [NodeData T] [LookupData T] where
  webSocketTargets : List (String × (Json → Request T))
  /-- None of the targets is one that every build serves. -/
  targets_fresh : ∀ target ∈ webSocketTargets, target.1 ≠ "/request-latest-block" ∧
    target.1 ≠ "/request-all-blocks" ∧ target.1 ≠ "/receive-latest-block" ∧
    target.1 ≠ "/receive-all-blocks"
  isWebSocket_of_ownError : ∀ target ∈ webSocketTargets, ∀ (data : Json) (e : Error),
    LookupData.OwnError (target.2 data) e → e.IsWebSocket
  written_toJson : ∀ d : T, (BlockData.toJson d).Written
  written_serve : ∀ [Env] {m : Members T} {data : List T} {request : Request T} {answer : Json},
    (serve m data request).2.1 = .ok answer → answer.Written

-- ---------------------------------------------------------------------------
-- JSON forms
-- ---------------------------------------------------------------------------

open Json (Written)

theorem Block.written_toJson {T : Type} [NodeData T] [LookupData T] [EndpointData T] (b : Block T) :
    b.toJson.Written := by
  unfold toJson
  refine .object ?_ ?_ <;> cases b.hashPrev <;>
    simp [EndpointData.written_toJson, Written.string, Written.unsigned]

theorem Blockchain.written_toJson {T : Type} [NodeData T] [LookupData T] [EndpointData T]
    (bc : Blockchain T) :
    bc.toJson.Written := by
  refine .array fun j hj => ?_
  obtain ⟨b, -, rfl⟩ := List.mem_map.mp hj
  exact b.written_toJson

theorem Transaction.written_toJson (t : Transaction) : t.toJson.Written := by
  have hinput : ∀ txi : TxI, txi.toJson.Written := by
    intro txi
    exact .object (by simp) (by simp [Written.string, Written.unsigned])
  have houtput : ∀ txo : TxO, txo.toJson.Written := by
    intro txo
    exact .object (by simp) (by simp [Written.string, Written.unsigned])
  have hinputs : (Json.array (t.inputs.map TxI.toJson)).Written := by
    refine .array fun j hj => ?_
    obtain ⟨txi, -, rfl⟩ := List.mem_map.mp hj
    exact hinput txi
  have houtputs : (Json.array (t.outputs.map TxO.toJson)).Written := by
    refine .array fun j hj => ?_
    obtain ⟨txo, -, rfl⟩ := List.mem_map.mp hj
    exact houtput txo
  have htype : t.type.toJson.Written := by
    cases t.type <;> exact .string _
  refine .object (by simp) ?_
  simp [Written.string, Written.unsigned, hinputs, houtputs, htype]

theorem written_transactions (ts : List Transaction) :
    (Json.array (ts.map Transaction.toJson)).Written := by
  refine .array fun j hj => ?_
  obtain ⟨t, -, rfl⟩ := List.mem_map.mp hj
  exact t.written_toJson

theorem UTxO.written_toJson (utxo : UTxO) : utxo.toJson.Written := by
  have houtput : utxo.output.toJson.Written :=
    .object (by simp) (by simp [Written.string, Written.unsigned])
  exact .object (by simp) (by simp [Written.string, Written.unsigned, houtput])

instance : EndpointData Text where
  webSocketTargets := []
  targets_fresh _ h := nomatch h
  isWebSocket_of_ownError _ h := nomatch h
  written_toJson d := .string d.text
  written_serve {_ _ _ request _} := nomatch request

/-- What the handlers of transactions answer with. -/
theorem TransactionMembers.written_serve [Env] {m : TransactionMembers}
    {data : List TransactionList} {request : TransactionRequest} {answer : Json}
    (h : (m.serve data request).2.1 = .ok answer) : answer.Written := by
  cases request with
  | transactionsLatestGet =>
    cases h
    split
    · exact written_transactions _
    · exact .null
  | transactionsUnconfirmedGet =>
    cases h
    exact written_transactions _
  | transactionsUnspentGet =>
    cases h
    refine .array fun j hj => ?_
    obtain ⟨utxo, -, rfl⟩ := List.mem_map.mp hj
    exact utxo.written_toJson
  | transactionsPost json =>
    simp only [serve, handleTransactionsPost] at h
    split at h <;> cases h
    exact .null
  | receiveTransaction json =>
    simp only [serve, handleReceiveTransaction] at h
    split at h
    · cases h
    · split at h <;> cases h <;> exact .null

instance : EndpointData TransactionList where
  webSocketTargets := [("/receive-transaction", .receiveTransaction)]
  targets_fresh := by
    intro target h
    cases List.mem_singleton.mp h
    decide
  isWebSocket_of_ownError := by
    intro target h data e he
    cases List.mem_singleton.mp h
    exact he
  written_toJson ts := written_transactions ts.transactions
  written_serve := TransactionMembers.written_serve

namespace Node

variable {T : Type} [NodeData T]

theorem written_origin (n : Node T) : n.origin.Written :=
  .object (by simp) (by simp [Written.string, Written.unsigned])

variable [LookupData T] [EndpointData T]

-- ---------------------------------------------------------------------------
-- Serving
-- ---------------------------------------------------------------------------

/-- What a handler of `websocket_setup` is called with: the data of the request, and how
    opening a connection goes, should it need one. -/
abbrev Handler (T : Type) [NodeData T] := Json → Except String Unit → Call T

/-- `websocket_setup()` -/
def websocketSetup (T : Type) [NodeData T] [LookupData T] [EndpointData T] :
    WebSocketServer (Handler T) :=
  let server : WebSocketServer (Handler T) := {}
  let server := server.support "/request-latest-block" fun _ _ => .requestLatestBlock
  let server := server.support "/request-all-blocks" fun _ _ => .requestAllBlocks
  let server := server.support "/receive-latest-block" .receiveLatestBlock
  let server := server.support "/receive-all-blocks" fun data _ => .receiveAllBlocks data
  EndpointData.webSocketTargets.foldl
    (fun server target => server.support target.1 fun data _ => .other (target.2 data)) server

-- ---------------------------------------------------------------------------
-- The table of targets
-- ---------------------------------------------------------------------------

omit [LookupData T] [EndpointData T] in
theorem foldl_support_handlers (targets : List (String × (Json → Request T)))
    (server : WebSocketServer (Handler T)) :
    (targets.foldl (fun server target =>
      server.support target.1 fun data _ => .other (target.2 data)) server).handlers =
    (targets.map fun target => (target.1, fun data _ => .other (target.2 data))).reverse ++
      server.handlers := by
  induction targets generalizing server with
  | nil => rfl
  | cons target targets ih =>
    rw [List.foldl_cons, ih]
    simp [WebSocketServer.support]

/-- The handlers of this build, and those of every build. -/
def ownHandlers (T : Type) [NodeData T] [LookupData T] [EndpointData T] :
    List (String × Handler T) :=
  (EndpointData.webSocketTargets.map fun target =>
    (target.1, fun data _ => .other (target.2 data))).reverse

def commonHandlers (T : Type) [NodeData T] : List (String × Handler T) :=
  [("/receive-all-blocks", fun data _ => .receiveAllBlocks data),
    ("/receive-latest-block", .receiveLatestBlock),
    ("/request-all-blocks", fun _ _ => .requestAllBlocks),
    ("/request-latest-block", fun _ _ => .requestLatestBlock)]

theorem lookup_websocketSetup (target : String) :
    (websocketSetup T).handlers.lookup target =
      ((ownHandlers T).lookup target).or ((commonHandlers T).lookup target) := by
  rw [websocketSetup, foldl_support_handlers, List.lookup_append]
  rfl

theorem exists_of_lookup_ownHandlers {target : String} {handler : Handler T}
    (h : (ownHandlers T).lookup target = some handler) :
    ∃ own ∈ EndpointData.webSocketTargets (T := T),
      own.1 = target ∧ handler = fun data _ => .other (own.2 data) := by
  obtain ⟨before, after, hsplit, -⟩ := List.lookup_eq_some_iff.mp h
  have hmem : (target, handler) ∈ ownHandlers T := by
    rw [hsplit]
    simp
  obtain ⟨own, hown, heq⟩ := List.mem_map.mp (List.mem_reverse.mp hmem)
  exact ⟨own, hown, congrArg Prod.fst heq, (congrArg Prod.snd heq).symm⟩

/-- A target that every build serves has the same handler in every build. -/
theorem lookup_common {target : String} {handler : Handler T}
    (h : (commonHandlers T).lookup target = some handler) :
    (websocketSetup T).handlers.lookup target = some handler := by
  have hown : (ownHandlers T).lookup target = none := by
    cases hlookup : (ownHandlers T).lookup target with
    | none => rfl
    | some handler' =>
      obtain ⟨own, hmem, rfl, -⟩ := exists_of_lookup_ownHandlers hlookup
      obtain ⟨hlatest, hall, hreceive, hreceiveAll⟩ := EndpointData.targets_fresh own hmem
      have hnone : (commonHandlers T).lookup own.1 = none := by
        simp [commonHandlers, List.lookup_cons, beq_eq_false_iff_ne.mpr hlatest,
          beq_eq_false_iff_ne.mpr hall, beq_eq_false_iff_ne.mpr hreceive,
          beq_eq_false_iff_ne.mpr hreceiveAll]
      rw [hnone] at h
      cases h
  rw [lookup_websocketSetup, hown, h]
  rfl

/-- The calls that requests of peers make. -/
inductive Call.OfWebSocket : Call T → Prop where
  | requestLatestBlock : OfWebSocket .requestLatestBlock
  | requestAllBlocks : OfWebSocket .requestAllBlocks
  | receiveLatestBlock (data : Json) (connection : Except String Unit) :
    OfWebSocket (.receiveLatestBlock data connection)
  | receiveAllBlocks (data : Json) : OfWebSocket (.receiveAllBlocks data)
  | other {own : String × (Json → Request T)} (mem : own ∈ EndpointData.webSocketTargets (T := T))
    (data : Json) : OfWebSocket (.other (own.2 data))

theorem ofWebSocket_of_lookup {target : String} {handler : Handler T}
    (h : (websocketSetup T).handlers.lookup target = some handler) (data : Json)
    (connection : Except String Unit) : (handler data connection).OfWebSocket := by
  rw [lookup_websocketSetup] at h
  rcases Option.or_eq_some_iff.mp h with hown | ⟨-, hcommon⟩
  · obtain ⟨own, hmem, -, rfl⟩ := exists_of_lookup_ownHandlers hown
    exact .other hmem data
  · obtain ⟨before, after, hsplit, -⟩ := List.lookup_eq_some_iff.mp hcommon
    have hmem : (target, handler) ∈ commonHandlers T := by
      rw [hsplit]
      simp
    simp only [commonHandlers, List.mem_cons, Prod.mk.injEq, List.not_mem_nil, or_false] at hmem
    obtain ⟨-, rfl⟩ | ⟨-, rfl⟩ | ⟨-, rfl⟩ | ⟨-, rfl⟩ := hmem
    · exact .receiveAllBlocks data
    · exact .receiveLatestBlock data connection
    · exact .requestAllBlocks
    · exact .requestLatestBlock

-- ---------------------------------------------------------------------------
-- Answers
-- ---------------------------------------------------------------------------

variable [Env]

omit [LookupData T] [EndpointData T] in
/-- Messages with blocks are answered with null. -/
theorem answer_of_handleReceiveLatestBlock {n : Node T} {data : Json} {clock : Clock}
    {connection : Except String Unit} {reply : Reply T} {answer : Json}
    (hhandle : n.handleReceiveLatestBlock data clock connection = some reply)
    (h : reply.answer = .ok answer) : answer = .null := by
  obtain ⟨-, -, hanswer | ⟨e, hanswer⟩⟩ | ⟨-, -, -, -, hanswer⟩ :=
    handleReceiveLatestBlock_cases hhandle
  · exact Except.ok.inj (h.symm.trans hanswer)
  · cases h.symm.trans hanswer
  · exact Except.ok.inj (h.symm.trans hanswer)

omit [LookupData T] [EndpointData T] in
theorem answer_of_handleReceiveAllBlocks {n : Node T} {data : Json} {clock : Clock}
    {reply : Reply T} {answer : Json} (hhandle : n.handleReceiveAllBlocks data clock = some reply)
    (h : reply.answer = .ok answer) : answer = .null := by
  obtain ⟨-, -, hanswer | ⟨e, hanswer⟩⟩ := handleReceiveAllBlocks_cases hhandle
  · exact Except.ok.inj (h.symm.trans hanswer)
  · cases h.symm.trans hanswer

/-- What is answered is written in a way that can be read back. -/
theorem Call.OfWebSocket.written_answer {n : Node T} {clock : Clock} {call : Call T}
    (h : call.OfWebSocket) {reply : Reply T} (hhandle : n.handle clock call = some reply)
    {answer : Json} (hanswer : reply.answer = .ok answer) : answer.Written := by
  cases h with
  | requestLatestBlock =>
    cases hhandle
    simp only [handleRequestLatestBlock] at hanswer
    split at hanswer <;> cases hanswer
    exact .object (by simp) (by simp [Block.written_toJson, written_origin])
  | requestAllBlocks =>
    cases hhandle
    cases hanswer
    exact .object (by simp) (by simp [Blockchain.written_toJson, written_origin])
  | receiveLatestBlock data connection =>
    rw [answer_of_handleReceiveLatestBlock hhandle hanswer]
    exact .null
  | receiveAllBlocks data =>
    rw [answer_of_handleReceiveAllBlocks hhandle hanswer]
    exact .null
  | other mem data =>
    cases hhandle
    exact EndpointData.written_serve hanswer

-- ---------------------------------------------------------------------------
-- Texts
-- ---------------------------------------------------------------------------

variable [JsonParser]

/-- `on_read` of the server of the node. The answer of the reply is the response, unless
    something is not caught. -/
def onRead (n : Node T) (clock : Clock) (connection : Except String Unit) (text : String) :
    Option (Reply T) :=
  match (websocketSetup T).dispatch text with
  | .error response => some { node := n, answer := .ok response }
  | .ok (handler, data) =>
    (n.handle clock (handler data connection)).map fun reply =>
      { reply with answer := WebSocketServer.respond reply.answer }

-- ---------------------------------------------------------------------------
-- Asking
-- ---------------------------------------------------------------------------

/-- What is left behind for the answer to a request. -/
inductive Callback where
  /-- Only failures are logged. -/
  | log
  | receiveLatestBlock
  | receiveAllBlocks

/-- The request that a task sends, and its callback. Without a latest block there is
    nothing to broadcast. -/
def asks (n : Node T) : Task → Option (Json × Callback)
  | .broadcastLatestBlock =>
    n.latestBlockMessage.map fun data =>
      (WebSocketServer.request "/receive-latest-block" (some data), .log)
  | .requestLatestBlock _ =>
    some (WebSocketServer.request "/request-latest-block" none, .receiveLatestBlock)
  | .requestAllBlocks _ =>
    some (WebSocketServer.request "/request-all-blocks" none, .receiveAllBlocks)
  | .broadcastTransaction t =>
    some (WebSocketServer.request "/receive-transaction" (some t.toJson), .log)

/-- `catch (...)` -/
def swallow : Except Error Json → Except Error Json
  | .error (.undefined what) => .error (.undefined what)
  | .error .crash => .error .crash
  | _ => .ok .null

/-- The call of a callback with the text of the response. -/
def callback (n : Node T) (clock : Clock) (connection : Except String Unit) (text : String) :
    Callback → Option (Reply T)
  | .log => some { node := n, answer := .ok .null }
  | .receiveLatestBlock =>
    let (success, answer) := WebSocketClient.decode text
    match success, Json.parse answer with
    | true, .ok data =>
      (n.handleReceiveLatestBlock data clock connection).map fun reply =>
        { reply with answer := swallow reply.answer }
    | _, _ => some { node := n, answer := .ok .null }
  | .receiveAllBlocks =>
    let (success, answer) := WebSocketClient.decode text
    match success, Json.parse answer with
    | true, .ok data =>
      (n.handleReceiveAllBlocks data clock).map fun reply =>
        { reply with answer := swallow reply.answer }
    | _, _ => some { node := n, answer := .ok .null }

/-- The data that a text brings its callback, if the request has succeeded. -/
def broughtBack (text : String) : Option Json :=
  match WebSocketClient.decode text with
  | (true, answer) => (Json.parse answer).toOption
  | _ => none

/-- The call that a callback makes of the text of a response, if it makes any. -/
def Callback.call (connection : Except String Unit) (text : String) : Callback → Option (Call T)
  | .log => none
  | .receiveLatestBlock => (broughtBack text).map fun data => .receiveLatestBlock data connection
  | .receiveAllBlocks => (broughtBack text).map fun data => .receiveAllBlocks data

omit [LookupData T] [EndpointData T] in
/-- A callback that makes no call does nothing. -/
theorem callback_eq (n : Node T) (clock : Clock) (connection : Except String Unit) (text : String)
    (callback : Callback) :
    n.callback clock connection text callback =
      match callback.call connection text with
      | none => some { node := n, answer := .ok .null }
      | some call => (n.handle clock call).map fun reply =>
          { reply with answer := swallow reply.answer } := by
  cases callback with
  | log => rfl
  | receiveLatestBlock | receiveAllBlocks =>
    simp only [Node.callback, Callback.call, broughtBack]
    rcases WebSocketClient.decode text with ⟨_ | _, answer⟩
    · rfl
    · dsimp only
      cases Json.parse answer <;> rfl

theorem Callback.ofWebSocket_of_call {connection : Except String Unit} {text : String}
    {callback : Callback} {call : Call T} (h : callback.call connection text = some call) :
    call.OfWebSocket := by
  cases callback with
  | log => cases h
  | receiveLatestBlock =>
    obtain ⟨data, -, rfl⟩ := Option.map_eq_some_iff.mp h
    exact .receiveLatestBlock data connection
  | receiveAllBlocks =>
    obtain ⟨data, -, rfl⟩ := Option.map_eq_some_iff.mp h
    exact .receiveAllBlocks data

theorem broughtBack_ok (hparse : ReadsDumps) {data : Json} (hdata : data.Written) :
    broughtBack (WebSocketServer.ok data).dump = some data := by
  simp only [broughtBack, WebSocketServer.decode_ok hparse hdata, Json.parse_dump hparse hdata,
    Except.toOption]

theorem broughtBack_notOk (hparse : ReadsDumps) (what : String) :
    broughtBack (WebSocketServer.notOk what).dump = none := by
  simp only [broughtBack, WebSocketServer.decode_notOk hparse]

-- ---------------------------------------------------------------------------
-- From a text to what its sender makes of the response
-- ---------------------------------------------------------------------------

/-- What a callback gets to see of what a handler did. -/
def outcome : Except Error Json → Bool × String
  | .ok answer => (true, answer.dump)
  | .error e => (false, e.what)

theorem decode_respond (hparse : ReadsDumps) {answer : Except Error Json} {response : Json}
    (hwritten : ∀ j, answer = .ok j → j.Written)
    (h : WebSocketServer.respond answer = .ok response) :
    WebSocketClient.decode response.dump = outcome answer := by
  cases answer with
  | ok j =>
    cases h
    exact WebSocketServer.decode_ok hparse (hwritten j rfl)
  | error e =>
    cases e with
    | webSocket what =>
      cases h
      exact WebSocketServer.decode_notOk hparse what
    | _ => cases h

/-- The text of a request with a known target makes the call of its handler. -/
theorem onRead_request (hparse : ReadsDumps) (n : Node T) (clock : Clock)
    (connection : Except String Unit) {target : String} {data : Option Json}
    (hwritten : ∀ j ∈ data, j.Written) {handler : Handler T}
    (hhandler : (websocketSetup T).handlers.lookup target = some handler) :
    n.onRead clock connection (WebSocketServer.request target data).dump =
      (n.handle clock (handler (data.getD .null) connection)).map fun reply =>
        { reply with answer := WebSocketServer.respond reply.answer } := by
  rw [onRead, WebSocketServer.dispatch_request hparse _ hwritten hhandler]

/-- A transaction that a peer sends is not found, or is taken by a handler that the build has
    of its own. -/
theorem dispatch_receiveTransaction (hparse : ReadsDumps) (t : Transaction) :
    let text := (WebSocketServer.request "/receive-transaction" (some t.toJson)).dump
    (websocketSetup T).dispatch text = .error (WebSocketServer.notOk "Not found") ∨
    ∃ own ∈ EndpointData.webSocketTargets (T := T),
      (websocketSetup T).dispatch text = .ok (fun data _ => .other (own.2 data), t.toJson) := by
  have hwritten : ∀ j ∈ some t.toJson, j.Written := by
    rintro _ ⟨⟩
    exact t.written_toJson
  cases hlookup : (websocketSetup T).handlers.lookup "/receive-transaction" with
  | none => exact .inl (WebSocketServer.dispatch_request_of_none hparse _ hwritten hlookup)
  | some handler =>
    have hdispatch := WebSocketServer.dispatch_request hparse _ hwritten hlookup
    rw [lookup_websocketSetup] at hlookup
    obtain hown | ⟨-, hcommon⟩ := Option.or_eq_some_iff.mp hlookup
    · obtain ⟨own, hmem, -, rfl⟩ := exists_of_lookup_ownHandlers hown
      exact .inr ⟨own, hmem, hdispatch⟩
    · cases hcommon

theorem onRead_of_dispatch {n : Node T} {clock : Clock} {connection : Except String Unit}
    {text : String} {handler : Handler T} {data : Json}
    (hdispatch : (websocketSetup T).dispatch text = .ok (handler, data)) :
    n.onRead clock connection text =
      (n.handle clock (handler data connection)).map fun reply =>
        { reply with answer := WebSocketServer.respond reply.answer } := by
  simp only [onRead, hdispatch]

/-- What the sender of a request makes of the response. -/
theorem exists_reply_of_onRead (hparse : ReadsDumps) {n : Node T} {clock : Clock}
    {connection : Except String Unit} {text : String} {handler : Handler T} {data : Json}
    (hdispatch : (websocketSetup T).dispatch text = .ok (handler, data)) {served : Reply T}
    {response : Json} (hserved : n.onRead clock connection text = some served)
    (hresponse : served.answer = .ok response) :
    ∃ reply, n.handle clock (handler data connection) = some reply ∧ served.node = reply.node ∧
      served.tasks = reply.tasks ∧
      WebSocketClient.decode response.dump = outcome reply.answer := by
  obtain ⟨target, hlookup⟩ := WebSocketServer.exists_lookup_of_dispatch hdispatch
  have hcall := ofWebSocket_of_lookup hlookup data connection
  rw [onRead_of_dispatch hdispatch] at hserved
  obtain ⟨reply, hhandle, rfl⟩ := Option.map_eq_some_iff.mp hserved
  exact ⟨reply, hhandle, rfl, rfl,
    decode_respond hparse (fun j hj => hcall.written_answer hhandle hj) hresponse⟩

end Node

theorem written_firstMessage : firstMessage.Written :=
  .object (by simp) (by simp [Block.written_toJson, Node.written_origin])

end BuenzliCoin
