-- SUMMARY: WebSocket servers and the texts of requests and responses, from either side.
import BuenzliCoin.Base.JsonReader
import BuenzliCoin.Lib.Except

/-!
# WebSocket servers

A request is an object with a target and, where the handler takes any, data. The
response is an object with a status, and with what the handler returned or an
error text as its data.
-/

namespace BuenzliCoin

namespace Json

/-- `json::parse(text)` where all of its exceptions are caught. -/
def parse [JsonParser] (text : String) : Except Error Json :=
  match JsonParser.parse text with
  | .error e => .error (.exception e.what)
  | .ok j => .ok j

/-- `j[key]` on a value that is not constant: null becomes an object, and a key that
    is missing is inserted with null. -/
def index (j : Json) (key : String) : Except Error Json :=
  match j with
  | null => .ok null
  | object members => .ok ((members.lookup key).getD null)
  | j => .error (typeError 305 s!"cannot use operator[] with a string argument with {j.typeName}")

theorem parse_dump [Env] [JsonParser] (hparse : ReadsDumps) {j : Json} (hj : j.Written) :
    parse j.dump = .ok j := by
  rw [parse, hparse j hj]

end Json

-- ---------------------------------------------------------------------------
-- The server
-- ---------------------------------------------------------------------------

/-- The handlers that a server supports, for each target the last one given for it. -/
structure WebSocketServer (H : Type) where
  handlers : List (String × H) := []

namespace WebSocketServer

variable {H : Type}

def support (server : WebSocketServer H) (target : String) (handler : H) : WebSocketServer H :=
  ⟨(target, handler) :: server.handlers⟩

/-- A response with the status "ok". -/
def ok (answer : Json) : Json := .object [("data", answer), ("status", .string "ok")]

def notOk (what : String) : Json := .object [("data", .string what), ("status", .string "not ok")]

/-- The request with the given target, and with data if there are any. -/
def request (target : String) (data : Option Json) : Json :=
  .object ((data.map fun data => ("data", data)).toList ++ [("target", .string target)])

/-- The target and the data in the text of a request. -/
def readRequest [JsonParser] (text : String) : Except Error (String × Json) := do
  let request ← Json.parse text
  let target ← (← request.index "target").getString
  let data ← request.index "data"
  return (target, data)

/-- `on_read` up to the call of the handler: the handler with its data, or the response
    if there is none. -/
def dispatch [JsonParser] (server : WebSocketServer H) (text : String) : Except Json (H × Json) :=
  match readRequest text with
  | .error _ => .error (notOk "Bad request")
  | .ok (target, data) =>
    match server.handlers.lookup target with
    | none => .error (notOk "Not found")
    | some handler => .ok (handler, data)

/-- `on_read` after the call of the handler. Whatever the handler throws besides a
    `WebSocketError` is not caught. -/
def respond : Except Error Json → Except Error Json
  | .ok answer => .ok (ok answer)
  | .error (.webSocket what) => .ok (notOk what)
  | .error e => .error e

theorem exists_what_of_respond_error {e : Error} {response : Json}
    (h : respond (.error e) = .ok response) : ∃ what, response = notOk what := by
  cases e with
  | webSocket what =>
    cases h
    exact ⟨what, rfl⟩
  | _ => cases h

end WebSocketServer

-- ---------------------------------------------------------------------------
-- The client
-- ---------------------------------------------------------------------------

/-- `on_read` up to the call of the callback: whether the request succeeded, and the
    text of the answer or an error text. -/
def WebSocketClient.decode [Env] [JsonParser] (text : String) : Bool × String :=
  let decoded : Except Error (Bool × String) := do
    let response ← Json.parse text
    let status ← (← response.index "status").getString
    if status = "ok" then return (true, (← response.index "data").dump)
    else return (false, ← (← response.index "data").getString)
  match decoded with
  | .ok answer => answer
  | .error _ => (false, s!"Malformed response + '{text}'")

-- ---------------------------------------------------------------------------
-- From one side to the other
-- ---------------------------------------------------------------------------

namespace WebSocketServer

theorem written_ok {answer : Json} (h : answer.Written) : (ok answer).Written := by
  refine .object (by simp) ?_
  simp [h, Json.Written.string]

theorem written_notOk (what : String) : (notOk what).Written := by
  refine .object (by simp) ?_
  simp [Json.Written.string]

theorem written_request (target : String) {data : Option Json} (h : ∀ j ∈ data, j.Written) :
    (request target data).Written := by
  cases data with
  | none => exact .object (by simp) (by simp [Json.Written.string])
  | some data =>
    refine .object (by simp) ?_
    simp [h data rfl, Json.Written.string]

variable [Env] [JsonParser] {H : Type}

omit [Env] in
theorem exists_lookup_of_dispatch {server : WebSocketServer H} {text : String} {handler : H}
    {data : Json} (h : server.dispatch text = .ok (handler, data)) :
    ∃ target, server.handlers.lookup target = some handler := by
  unfold dispatch at h
  split at h
  · cases h
  · next target _ _ =>
    split at h
    · cases h
    · next hlookup =>
      cases h
      exact ⟨target, hlookup⟩

theorem readRequest_request (hparse : ReadsDumps) (target : String) {data : Option Json}
    (h : ∀ j ∈ data, j.Written) :
    readRequest (request target data).dump = .ok (target, data.getD .null) := by
  rw [readRequest, Json.parse_dump hparse (written_request target h)]
  cases data <;>
    simp [request, Json.index, Json.getString, List.lookup_cons, bind, Except.bind, pure,
      Except.pure]

/-- A request reaches the handler of its target, with null if it has no data. -/
theorem dispatch_request (hparse : ReadsDumps) (server : WebSocketServer H) {target : String}
    {data : Option Json} (h : ∀ j ∈ data, j.Written) {handler : H}
    (hhandler : server.handlers.lookup target = some handler) :
    server.dispatch (request target data).dump = .ok (handler, data.getD .null) := by
  rw [dispatch, readRequest_request hparse target h]
  simp only [hhandler]

theorem dispatch_request_of_none (hparse : ReadsDumps) (server : WebSocketServer H)
    {target : String} {data : Option Json} (h : ∀ j ∈ data, j.Written)
    (hhandler : server.handlers.lookup target = none) :
    server.dispatch (request target data).dump = .error (notOk "Not found") := by
  rw [dispatch, readRequest_request hparse target h]
  simp only [hhandler]

theorem decode_ok (hparse : ReadsDumps) {answer : Json} (h : answer.Written) :
    WebSocketClient.decode (ok answer).dump = (true, answer.dump) := by
  rw [WebSocketClient.decode, Json.parse_dump hparse (written_ok h)]
  simp [ok, Json.index, Json.getString, List.lookup_cons, bind, Except.bind, pure, Except.pure]

theorem decode_notOk (hparse : ReadsDumps) (what : String) :
    WebSocketClient.decode (notOk what).dump = (false, what) := by
  rw [WebSocketClient.decode, Json.parse_dump hparse (written_notOk what)]
  simp [notOk, Json.index, Json.getString, List.lookup_cons, bind, Except.bind, pure, Except.pure]

end WebSocketServer

end BuenzliCoin
