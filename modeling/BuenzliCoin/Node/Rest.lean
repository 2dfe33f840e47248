-- SUMMARY: The REST API of a node: its targets, the status of every response, and runs of requests.
import BuenzliCoin.Node.Endpoints
import BuenzliCoin.Web.HttpServer

namespace BuenzliCoin

open NodeData Except

/-- The targets of `http_setup` under `#ifdef TRANSACTIONS`. -/
class RestData (T : Type) [NodeData T] [LookupData T] where
  httpTargets : List (String × Verb × (Json → Request T))
  isBadRequest_of_ownError : ∀ target ∈ httpTargets, ∀ (data : Json) (e : Error),
    LookupData.OwnError (target.2.2 data) e → e.IsBadRequest

instance : RestData Text where
  httpTargets := []
  isBadRequest_of_ownError _ h := nomatch h

instance : RestData TransactionList where
  httpTargets := [
    ("/transactions/latest", .get, fun _ => .transactionsLatestGet),
    ("/transactions", .post, .transactionsPost),
    ("/transactions/unconfirmed", .get, fun _ => .transactionsUnconfirmedGet),
    ("/transactions/unspent", .get, fun _ => .transactionsUnspentGet)]
  isBadRequest_of_ownError := by
    intro target h data e he
    simp only [List.mem_cons, List.not_mem_nil, or_false] at h
    obtain rfl | rfl | rfl | rfl := h
    · exact he.elim
    · exact he
    · exact he.elim
    · exact he.elim

/-- How the operations that leave the process go while a request is handled: for how many
    rounds mining is followed, a file is written, and a connection is opened. -/
structure Surroundings where
  fuel : Nat
  file : Except String Unit
  connection : Except String Unit

namespace Node

variable {T : Type} [NodeData T]

/-- What a handler of `http_setup` is called with. -/
abbrev RestHandler (T : Type) [NodeData T] := Json → Surroundings → Call T

variable [LookupData T] [RestData T]

/-- `http_setup()` -/
def httpSetup (T : Type) [NodeData T] [LookupData T] [RestData T] : HttpServer (RestHandler T) :=
  let server : HttpServer (RestHandler T) := {}
  let server := server.support "/blocks" .get fun _ _ => .blocksGet
  let server := server.support "/blocks/latest" .get fun _ _ => .blocksLatestGet
  let server := server.support "/blocks" .post fun data around => .blocksPost data around.fuel
  let server := server.support "/blocks/persist" .post fun data around =>
    .blocksPersistPost data around.file
  let server := server.support "/peers" .get fun _ _ => .peersGet
  let server := server.support "/peers" .post fun data around =>
    .peersPost data around.connection
  RestData.httpTargets.foldl
    (fun server target =>
      server.support target.1 target.2.1 fun data _ => .other (target.2.2 data)) server

/-- The handlers of every build, and those of this one. -/
def commonRestHandlers (T : Type) [NodeData T] : List (String × Verb × RestHandler T) :=
  [("/blocks", .get, fun _ _ => .blocksGet), ("/blocks/latest", .get, fun _ _ => .blocksLatestGet),
    ("/blocks", .post, fun data around => .blocksPost data around.fuel),
    ("/blocks/persist", .post, fun data around => .blocksPersistPost data around.file),
    ("/peers", .get, fun _ _ => .peersGet),
    ("/peers", .post, fun data around => .peersPost data around.connection)]

def ownRestHandlers (T : Type) [NodeData T] [LookupData T] [RestData T] :
    List (String × Verb × RestHandler T) :=
  RestData.httpTargets.map fun target =>
    (target.1, target.2.1, fun data _ => .other (target.2.2 data))

theorem httpSetup_handlers :
    (httpSetup T).handlers = commonRestHandlers T ++ ownRestHandlers T := by
  have hfold : ∀ (targets : List (String × Verb × (Json → Request T)))
      (server : HttpServer (RestHandler T)),
      (targets.foldl (fun server target =>
        server.support target.1 target.2.1 fun data _ => .other (target.2.2 data))
          server).handlers =
      server.handlers ++ targets.map fun target =>
        (target.1, target.2.1, fun data _ => .other (target.2.2 data)) := by
    intro targets
    induction targets with
    | nil => exact fun server => (List.append_nil _).symm
    | cons target targets ih =>
      intro server
      rw [List.foldl_cons, ih]
      simp [HttpServer.support]
  exact hfold RestData.httpTargets _

/-- The calls that requests to the REST API make. -/
inductive Call.OfHttp : Call T → Prop where
  | blocksGet : OfHttp .blocksGet
  | blocksLatestGet : OfHttp .blocksLatestGet
  | blocksPost (data : Json) (fuel : Nat) : OfHttp (.blocksPost data fuel)
  | blocksPersistPost (data : Json) (file : Except String Unit) :
    OfHttp (.blocksPersistPost data file)
  | peersGet : OfHttp .peersGet
  | peersPost (data : Json) (connection : Except String Unit) : OfHttp (.peersPost data connection)
  | other {own : String × Verb × (Json → Request T)} (mem : own ∈ RestData.httpTargets (T := T))
    (data : Json) : OfHttp (.other (own.2.2 data))

theorem ofHttp_of_mem {target : String} {method : Verb} {handler : RestHandler T}
    (h : (target, method, handler) ∈ (httpSetup T).handlers) (data : Json)
    (around : Surroundings) : (handler data around).OfHttp := by
  rw [httpSetup_handlers, List.mem_append] at h
  rcases h with hcommon | hown
  · simp only [commonRestHandlers, List.mem_cons, Prod.mk.injEq, List.not_mem_nil, or_false]
      at hcommon
    obtain ⟨-, -, rfl⟩ | ⟨-, -, rfl⟩ | ⟨-, -, rfl⟩ | ⟨-, -, rfl⟩ | ⟨-, -, rfl⟩ | ⟨-, -, rfl⟩ :=
      hcommon
    · exact .blocksGet
    · exact .blocksLatestGet
    · exact .blocksPost data around.fuel
    · exact .blocksPersistPost data around.file
    · exact .peersGet
    · exact .peersPost data around.connection
  · obtain ⟨own, hmem, heq⟩ := List.mem_map.mp hown
    cases heq
    exact .other hmem data

-- ---------------------------------------------------------------------------
-- Errors
-- ---------------------------------------------------------------------------

theorem error_of_rethrow {α : Type} {text : String → String} {x : Except Error α} {e : Error}
    (h : Error.rethrow (fun what => .http 400 (text what)) x = .error e) :
    ¬ e.IsException ∨ ∃ what, e = .http 400 what := by
  cases x with
  | ok a => cases h
  | error e' =>
    cases e' with
    | undefined | crash =>
      cases h
      exact .inl id
    | _ => exact .inr ⟨_, (Except.error.inj h).symm⟩

variable [Env]

/-- A handler of `http_setup` throws an `HTTPError` with the status 400, or what opening a
    connection throws, unless a lookup is undefined. -/
theorem Call.OfHttp.error_cases {n : Node T} {clock : Clock} {call : Call T} (h : call.OfHttp)
    {reply : Reply T} (hhandle : n.handle clock call = some reply) {e : Error}
    (he : reply.answer = .error e) :
    ¬ e.IsException ∨ (∃ what, e = .http 400 what) ∨
      ∃ data what, call = .peersPost data (.error what) ∧ e = .exception what := by
  cases h with
  | blocksGet =>
    cases hhandle
    cases he
  | blocksLatestGet =>
    cases hhandle
    cases he
  | peersGet =>
    cases hhandle
    cases he
  | blocksPost data fuel =>
    simp only [handle, handleBlocksPost] at hhandle
    split at hhandle
    · cases hhandle
      exact (error_of_rethrow he).imp_right .inl
    · split at hhandle
      · cases hhandle
      · cases hhandle
        exact (error_of_rethrow he).imp_right .inl
      · obtain ⟨members, -, hreply⟩ := Option.bind_eq_some_iff.mp hhandle
        cases hreply
        cases he
  | blocksPersistPost data file =>
    cases hhandle
    exact (error_of_rethrow he).imp_right .inl
  | peersPost data connection =>
    cases hhandle
    simp only [handlePeersPost] at he
    cases hrequested : requestedPeer data with
    | error e' =>
      rw [hrequested] at he
      cases he
      exact (error_of_rethrow hrequested).imp_right .inl
    | ok peer =>
      rw [hrequested] at he
      cases connection with
      | error what =>
        cases he
        exact .inr (.inr ⟨data, what, rfl, rfl⟩)
      | ok _ => cases he
  | @other own mem data =>
    have hanswered := (n.answered_iff_lookupsDefined clock (.other (own.2.2 data))).mpr trivial
    have hbad := RestData.isBadRequest_of_ownError own mem data e (hanswered reply hhandle e he)
    cases e with
    | http status what =>
      cases hbad
      exact .inr (.inl ⟨what, rfl⟩)
    | _ => exact hbad.elim

/-- A request that has been handled: the node it leaves, and the response, unless something
    was not caught. -/
structure Handled (T : Type) [NodeData T] where
  node : Node T
  response : Except Error HttpResponse
  tasks : List Task := []

variable [JsonParser]

/-- `handle_request` of the server of the node; `none` if the call of the handler does not
    come to an end. -/
def handleRequest (n : Node T) (clock : Clock) (around : Surroundings) (request : HttpRequest) :
    Option (Handled T) :=
  match (httpSetup T).dispatch request with
  | .error response => some { node := n, response }
  | .ok (handler, data) =>
    (n.handle clock (handler data around)).map fun reply =>
      { node := reply.node
        response := HttpServer.respond request.method reply.answer
        tasks := reply.tasks }

-- ---------------------------------------------------------------------------
-- Statuses
-- ---------------------------------------------------------------------------

/-- What the response to a call tells of its answer. -/
inductive Tells (method : Verb) (response : HttpResponse) : Except Error Json → Prop where
  | ok {answer : Json} (status : response.status = 200)
      (type : response.contentType = "application/json") (body : response.body = answer.dump) :
    Tells method response (.ok answer)
  | badRequest {what : String} (status : response.status = 400)
      (type : response.contentType = "text/plain")
      (body : response.body = what ++ s!"Invalid request method '{method.toString}'") :
    Tells method response (.error (.http 400 what))

omit [LookupData T] [RestData T] [JsonParser] in
theorem tells_ok (method : Verb) (answer : Json) :
    Tells method (HttpServer.finish method 200 "" answer) (.ok answer) :=
  .ok rfl rfl (String.empty_append ..)

theorem handleRequest_of_dispatch (n : Node T) (clock : Clock) (around : Surroundings)
    {request : HttpRequest} {handler : RestHandler T} {data : Json}
    (hdispatch : (httpSetup T).dispatch request = .ok (handler, data)) :
    n.handleRequest clock around request =
      (n.handle clock (handler data around)).map fun reply =>
        { node := reply.node
          response := HttpServer.respond request.method reply.answer
          tasks := reply.tasks } := by
  simp only [handleRequest, hdispatch]

omit [JsonParser] in
/-- A response tells what the handler has answered, whether it has thrown or not. -/
theorem Call.OfHttp.tells {n : Node T} {clock : Clock} {call : Call T} (h : call.OfHttp)
    {reply : Reply T} (hhandle : n.handle clock call = some reply) {method : Verb}
    {response : HttpResponse} (hresponse : HttpServer.respond method reply.answer = .ok response) :
    Tells method response reply.answer := by
  cases hanswer : reply.answer with
  | ok answer =>
    rw [hanswer] at hresponse
    cases hresponse
    exact tells_ok method answer
  | error e =>
    rw [hanswer] at hresponse
    obtain huncaught | ⟨what, rfl⟩ | ⟨data, what, -, rfl⟩ := h.error_cases hhandle hanswer
    · cases e with
      | undefined | crash => cases hresponse
      | _ => exact absurd trivial huncaught
    · cases hresponse
      exact .badRequest rfl rfl rfl
    · cases hresponse

omit [Env] [LookupData T] [RestData T] [JsonParser] in
/-- A request that was answered, with the node as the request has found it and as it has
    left it. -/
structure RestExchange (T : Type) [NodeData T] where
  request : HttpRequest
  response : HttpResponse
  found : Node T
  left : Node T

/-- A run of requests, each of which is answered. -/
inductive RestRun : Node T → List (RestExchange T) → Node T → Prop where
  | nil (n : Node T) : RestRun n [] n
  | cons {n n' : Node T} {clock : Clock} {around : Surroundings} {request : HttpRequest}
      {handled : Handled T} {response : HttpResponse} {rest : List (RestExchange T)}
      (handling : n.handleRequest clock around request = some handled)
      (answered : handled.response = .ok response) (later : RestRun handled.node rest n') :
      RestRun n (⟨request, response, n, handled.node⟩ :: rest) n'

namespace RestExchange

omit [Env] [LookupData T] [RestData T] [JsonParser] in
/-- The client was told that a block has been added. -/
def Accepted (exchange : RestExchange T) : Prop :=
  exchange.request.target = "/blocks" ∧ exchange.request.method = .post ∧
    exchange.response.status = 200

instance (exchange : RestExchange T) : Decidable (Accepted exchange) :=
  inferInstanceAs (Decidable (_ ∧ _ ∧ _))

/-- The block is what the exchange has added to the chain, and its data are what the node
    has put together for the request out of what it had. -/
structure Adds (exchange : RestExchange T) (b : Block T) : Prop where
  blocks : exchange.left.blockchain.blocks = exchange.found.blockchain.blocks ++ [b]
  assembled : ∃ data members, HttpServer.readData exchange.request = .ok data ∧
    assemble exchange.found.members exchange.found.blockchain.length data = (.ok b.data, members)

end RestExchange

omit [LookupData T] [RestData T] [JsonParser] in
/-- `POST /blocks` answers with null exactly if it has a block to broadcast. -/
theorem handleBlocksPost_answer {n : Node T} {data : Json} {clock : Clock} {fuel : Nat}
    {reply : Reply T} (h : n.handleBlocksPost data clock fuel = some reply) :
    (reply.tasks = [] ∧ ∃ e, reply.answer = .error e) ∨
      (reply.tasks = [.broadcastLatestBlock] ∧ reply.answer = .ok .null) := by
  have hthrown := Error.exists_rethrow_eq_error (α := Json)
    fun what => .http 400 (malformed "POST /blocks" data what)
  unfold handleBlocksPost at h
  split at h
  · next e _ _ =>
    cases h
    exact .inl ⟨rfl, hthrown e⟩
  · split at h
    · cases h
    · next e _ _ =>
      cases h
      exact .inl ⟨rfl, hthrown e⟩
    · obtain ⟨members, -, hreply⟩ := Option.bind_eq_some_iff.mp h
      cases hreply
      exact .inr ⟨rfl, rfl⟩

omit [LookupData T] [RestData T] [JsonParser] in
/-- What `POST /blocks` does to the blocks. -/
theorem handleBlocksPost_blocks {n : Node T} {data : Json} {clock : Clock} {fuel : Nat}
    {reply : Reply T} (h : n.handleBlocksPost data clock fuel = some reply) :
    ((∃ e, reply.answer = .error e) ∧ reply.node.blockchain.blocks = n.blockchain.blocks) ∨
      (reply.answer = .ok .null ∧ ∃ b m', assemble n.members n.blockchain.length data =
        (.ok b.data, m') ∧ reply.node.blockchain.blocks = n.blockchain.blocks ++ [b]) := by
  obtain ⟨hnone, hanswer⟩ | ⟨hsome, hanswer⟩ := handleBlocksPost_answer h
  · obtain ⟨-, hblocks, -⟩ | ⟨htasks, -⟩ := handleBlocksPost_cases h
    · exact .inl ⟨hanswer, hblocks⟩
    · rw [hnone] at htasks
      cases htasks
  · obtain ⟨htasks, -⟩ | ⟨-, d, m, b, hassemble, -, hstep, -⟩ := handleBlocksPost_cases h
    · rw [hsome] at htasks
      cases htasks
    · refine .inr ⟨hanswer, b, m, ?_, hstep.blocks⟩
      rw [hassemble, hstep.data]

omit [JsonParser] [Env] in
theorem find_blocksPost :
    (httpSetup T).find "/blocks" .post = .ok fun data around => .blocksPost data around.fuel := by
  have hfilter : (httpSetup T).handlers.filter (fun entry => entry.1 = "/blocks") =
      ("/blocks", .get, fun _ _ => .blocksGet) ::
      ("/blocks", .post, fun data around => .blocksPost data around.fuel) ::
        (ownRestHandlers T).filter (fun entry => entry.1 = "/blocks") := by
    rw [httpSetup_handlers, List.filter_append]
    rfl
  rw [HttpServer.find, hfilter]
  rfl

omit [JsonParser] [Env] in
/-- No other request constructs a block. -/
theorem blocksPost_of_mem {target : String} {method : Verb} {handler : RestHandler T}
    (h : (target, method, handler) ∈ (httpSetup T).handlers) {data : Json} {around : Surroundings}
    {data' : Json} {fuel : Nat} (hcall : handler data around = .blocksPost data' fuel) :
    target = "/blocks" ∧ method = .post := by
  rw [httpSetup_handlers, List.mem_append] at h
  rcases h with hcommon | hown
  · simp only [commonRestHandlers, List.mem_cons, Prod.mk.injEq, List.not_mem_nil, or_false]
      at hcommon
    obtain ⟨-, -, rfl⟩ | ⟨-, -, rfl⟩ | ⟨rfl, rfl, rfl⟩ | ⟨-, -, rfl⟩ | ⟨-, -, rfl⟩ | ⟨-, -, rfl⟩ :=
      hcommon
    · cases hcall
    · cases hcall
    · exact ⟨rfl, rfl⟩
    · cases hcall
    · cases hcall
    · cases hcall
  · obtain ⟨own, -, heq⟩ := List.mem_map.mp hown
    cases heq
    cases hcall

omit [JsonParser] in
theorem Call.OfHttp.blocks_kept {n : Node T} {clock : Clock} {call : Call T} (h : call.OfHttp)
    {reply : Reply T} (hhandle : n.handle clock call = some reply)
    (hcall : ∀ data fuel, call ≠ .blocksPost data fuel) :
    reply.node.blockchain.blocks = n.blockchain.blocks := by
  have hstep := handle_chainStep hhandle
  generalize hbc : reply.node.blockchain = bc at hstep
  cases hstep with
  | kept hblocks hsame => exact hblocks
  | constructed hstep => exact absurd rfl (hcall _ _)
  | appended hjudged hstep => cases h
  | replaced hreceived hkey => cases h

/-- What one request does to the blocks, as far as its response tells. -/
theorem handleRequest_blocks {n : Node T} {clock : Clock} {around : Surroundings}
    {request : HttpRequest} {handled : Handled T} {response : HttpResponse}
    (h : n.handleRequest clock around request = some handled)
    (hresponse : handled.response = .ok response) :
    let exchange : RestExchange T := ⟨request, response, n, handled.node⟩
    if exchange.Accepted then ∃ b, exchange.Adds b
    else handled.node.blockchain.blocks = n.blockchain.blocks := by
  dsimp only
  cases hdispatch : (httpSetup T).dispatch request with
  | error refusal =>
    simp only [handleRequest, hdispatch, Option.some.injEq] at h
    subst h
    cases hresponse
    have hrefused := HttpServer.refused_of_dispatch hdispatch
    rw [if_neg]
    rintro ⟨-, -, hstatus⟩
    rw [hstatus] at hrefused
    cases hrefused
  | ok route =>
    obtain ⟨handler, data⟩ := route
    obtain ⟨hread, hfind⟩ := HttpServer.of_dispatch hdispatch
    have hmem := HttpServer.mem_of_find hfind
    have hcall := ofHttp_of_mem hmem data around
    rw [n.handleRequest_of_dispatch clock around hdispatch] at h
    obtain ⟨reply, hhandle, rfl⟩ := Option.map_eq_some_iff.mp h
    have htells := hcall.tells hhandle hresponse
    by_cases hpost : request.target = "/blocks" ∧ request.method = .post
    · rw [hpost.1, hpost.2, find_blocksPost] at hfind
      cases hfind
      obtain ⟨⟨e, he⟩, hblocks⟩ | ⟨hok, b, members, hassemble, hblocks⟩ :=
        handleBlocksPost_blocks hhandle
      · rw [he] at htells
        cases htells with
        | badRequest hstatus htype hbody =>
          rw [if_neg]
          · exact hblocks
          · rintro ⟨-, -, htwo⟩
            exact absurd (hstatus.symm.trans htwo) (by decide)
      · rw [hok] at htells
        cases htells with
        | ok hstatus htype hbody =>
          rw [if_pos ⟨hpost.1, hpost.2, hstatus⟩]
          exact ⟨b, hblocks, data, members, hread, hassemble⟩
    · rw [if_neg fun haccepted => hpost ⟨haccepted.1, haccepted.2.1⟩]
      refine hcall.blocks_kept hhandle fun data' fuel heq => ?_
      exact hpost (blocksPost_of_mem hmem heq)

/-- Whatever is requested, and however it goes, the chain is extended by one block for each
    request that is told so, in their order: the one that the request has added, with the
    data that its node has put together for it. -/
theorem RestRun.blocks {n n' : Node T} {exchanges : List (RestExchange T)}
    (h : RestRun n exchanges n') :
    ∃ new, n'.blockchain.blocks = n.blockchain.blocks ++ new ∧
      List.Forall₂ RestExchange.Adds (exchanges.filter fun exchange => exchange.Accepted) new := by
  induction h with
  | nil n => exact ⟨[], (List.append_nil _).symm, .nil⟩
  | cons handling answered later ih =>
    obtain ⟨new, hblocks, hadds⟩ := ih
    have hstep := handleRequest_blocks handling answered
    dsimp only at hstep
    split_ifs at hstep with haccepted
    · obtain ⟨b, hb⟩ := hstep
      refine ⟨b :: new, ?_, ?_⟩
      · rw [hblocks, hb.blocks, List.append_assoc, List.singleton_append]
      · rw [List.filter_cons_of_pos (by simpa using haccepted)]
        exact .cons hb hadds
    · refine ⟨new, ?_, ?_⟩
      · rw [hblocks, hstep]
      · rw [List.filter_cons_of_neg (by simpa using haccepted)]
        exact hadds

end Node

/-! ## Blocks are posted -/

/-- `POST` with a JSON body. -/
def postJson (target : String) (data : Json) : HttpRequest where
  target := target
  method := .post
  contentType := "application/json"
  body :=
    letI := plainBuild
    data.dump

/-- A request with a body that the parser reads is passed to the handler of its target. -/
theorem Node.handleRequest_postJson {T : Type} [NodeData T] [LookupData T] [RestData T]
    {n : Node T} {target : String} {data : Json} {handler : RestHandler T} {reply : Reply T}
    {response : HttpResponse} (hwritten : data.Written)
    (hfind : (httpSetup T).find target .post = .ok handler) :
    letI := plainBuild
    letI := dumpReader
    n.handle .epoch (handler data ⟨0, .ok (), .ok ()⟩) = some reply →
    HttpServer.respond .post reply.answer = .ok response →
    n.handleRequest .epoch ⟨0, .ok (), .ok ()⟩ (postJson target data) =
      some ⟨reply.node, .ok response, reply.tasks⟩ := by
  let env := plainBuild
  let parser := dumpReader
  intro hhandle hresponse
  have hparse : JsonParser.parse (postJson target data).body = .ok data :=
    Json.readDump_dump hwritten
  have hbody : (postJson target data).body ≠ "" := by
    intro hempty
    rw [hempty] at hparse
    cases hparse
  have hread : HttpServer.readData (postJson target data) = .ok data := by
    simp only [HttpServer.readData, if_neg hbody, hparse]
    rfl
  have hdispatch : (httpSetup T).dispatch (postJson target data) = .ok (handler, data) := by
    rw [HttpServer.dispatch, hread]
    simp only [postJson, hfind]
  rw [Node.handleRequest_of_dispatch _ _ _ hdispatch, hhandle]
  simp only [Option.map_some, postJson, hresponse]

/-- The response to a request that is answered with null. -/
def nullResponse : HttpResponse := ⟨200, "application/json", "null"⟩

theorem respond_null :
    letI := plainBuild
    HttpServer.respond .post (.ok .null) = .ok nullResponse := by
  simp [HttpServer.respond, HttpServer.finish, Json.dump, nullResponse]

/-- `POST /blocks` with the text "first". -/
def postFirst : HttpRequest := postJson "/blocks" (.string "first")

def postedFirst : Node.Handled Text where
  node := afterFirst
  response := .ok nullResponse
  tasks := [.broadcastLatestBlock]

theorem Node.handleRequest_postFirst :
    letI := plainBuild
    letI := dumpReader
    (Node.new "localhost" 8332 : Node Text).handleRequest .epoch ⟨0, .ok (), .ok ()⟩ postFirst =
      some postedFirst :=
  Node.handleRequest_postJson (.string "first") Node.find_blocksPost Node.handle_postFirst
    respond_null

/-- A text is posted, a number, which is refused, and another text. -/
theorem Node.RestRun.blocks_three_posts :
    letI := plainBuild
    letI := dumpReader
    ∃ (exchanges : List (RestExchange Text)) (n : Node Text) (new : List (Block Text)),
      RestRun (.new "localhost" 8332) exchanges n ∧
      exchanges.map (fun exchange => exchange.response.status) = [200, 400, 200] ∧
      n.blockchain.blocks = new ∧ new.length = 2 ∧
      List.Forall₂ RestExchange.Adds (exchanges.filter fun exchange => exchange.Accepted) new := by
  let env := plainBuild
  let parser := dumpReader
  have hrefused : afterFirst.handle .epoch (.blocksPost (.numberUnsigned 1) 0) =
      some { node := afterFirst, answer := .error _ } := rfl
  have hsecond : afterFirst.handle .epoch (.blocksPost (.string "second") 0) = some _ :=
    handleBlocksPost_of_valid (by decide) rfl rfl rfl (by decide) (show 1 < 2 ^ 32 by decide)
  have hrun : RestRun (.new "localhost" 8332) _ _ :=
    .cons handleRequest_postFirst rfl <|
    .cons (handleRequest_postJson (.unsigned 1) find_blocksPost hrefused rfl) rfl <|
    .cons (handleRequest_postJson (.string "second") find_blocksPost hsecond respond_null) rfl <|
    .nil _
  obtain ⟨new, hblocks, hadds⟩ := hrun.blocks
  refine ⟨_, _, new, hrun, rfl, hblocks, ?_, hadds⟩
  rw [← hadds.length_eq]
  rfl

end BuenzliCoin
