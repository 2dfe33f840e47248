-- SUMMARY: HTTP servers: how a request is read, which handler it reaches, and the response to it.
import BuenzliCoin.Web.WebSocketServer

/-!
# HTTP servers

The body of a request is JSON or empty. A response has JSON for a body if its
status is 200, and otherwise a text.
-/

namespace BuenzliCoin

/-- `boost::beast::http::verb`; the handlers tell only two of them from others. -/
inductive Verb where
  | get
  | post
  | other (name : String)
  deriving DecidableEq

/-- `method_string()` -/
def Verb.toString : Verb → String
  | get => "GET"
  | post => "POST"
  | other name => name

structure HttpRequest where
  target : String
  method : Verb
  contentType : String := ""
  body : String := ""

structure HttpResponse where
  status : Nat
  contentType : String
  body : String
  deriving DecidableEq

/-- The handlers that a server supports, in the order in which they were given. -/
structure HttpServer (H : Type) where
  handlers : List (String × Verb × H) := []

namespace HttpServer

variable {H : Type}

def support (server : HttpServer H) (target : String) (method : Verb) (handler : H) :
    HttpServer H :=
  ⟨server.handlers ++ [(target, method, handler)]⟩

/-- `handle` up to the call of the handler: the first one for the target and the method, or
    a status. -/
def find (server : HttpServer H) (target : String) (method : Verb) : Except Nat H :=
  match server.handlers.filter (fun entry => entry.1 = target) with
  | [] => .error 404
  | entries =>
    match entries.find? fun entry => entry.2.1 = method with
    | none => .error 400
    | some (_, _, handler) => .ok handler

theorem mem_of_find {server : HttpServer H} {target : String} {method : Verb} {handler : H}
    (h : server.find target method = .ok handler) :
    (target, method, handler) ∈ server.handlers := by
  unfold find at h
  split at h
  · cases h
  · split at h
    · cases h
    · next hfound =>
      cases h
      have hmethod := List.find?_some hfound
      have hmem := List.mem_filter.mp (List.mem_of_find?_eq_some hfound)
      obtain ⟨hmem, htarget⟩ := hmem
      simp only [decide_eq_true_eq] at hmethod htarget
      subst hmethod
      subst htarget
      exact hmem

/-- Without a handler, the status tells whether the target has handlers for other methods. -/
theorem find_eq_error {server : HttpServer H} {target : String} {method : Verb} {status : Nat}
    (h : server.find target method = .error status) :
    (∀ entry ∈ server.handlers, entry.1 = target → entry.2.1 ≠ method) ∧
      ((status = 404 ∧ ∀ entry ∈ server.handlers, entry.1 ≠ target) ∨
        (status = 400 ∧ ∃ entry ∈ server.handlers, entry.1 = target)) := by
  unfold find at h
  split at h
  · next hfilter =>
    cases h
    have hnone : ∀ entry ∈ server.handlers, entry.1 ≠ target := by
      intro entry hentry
      simpa using List.filter_eq_nil_iff.mp hfilter entry hentry
    exact ⟨fun entry hentry htarget => absurd htarget (hnone entry hentry), .inl ⟨rfl, hnone⟩⟩
  · next hfilter =>
    split at h
    · next hfound =>
      cases h
      obtain ⟨entry, hentry⟩ := List.exists_mem_of_ne_nil _ hfilter
      obtain ⟨hmem, htarget⟩ := List.mem_filter.mp hentry
      refine ⟨fun entry' hentry' htarget' => ?_, .inr ⟨rfl, entry, hmem, by simpa using htarget⟩⟩
      have hkept : entry' ∈ server.handlers.filter fun entry => entry.1 = target :=
        List.mem_filter.mpr ⟨hentry', decide_eq_true htarget'⟩
      simpa using List.find?_eq_none.mp hfound entry' hkept
    · cases h

variable [Env] [JsonParser]

/-- What the status, the text so far and the answer make of a request that was handled. -/
def finish (method : Verb) (status : Nat) (text : String) (answer : Json) : HttpResponse :=
  if status = 200 then ⟨status, "application/json", text ++ answer.dump⟩
  else if status = 404 then ⟨status, "text/plain", text ++ "File not found"⟩
  else if status = 400 then
    ⟨status, "text/plain", text ++ s!"Invalid request method '{method.toString}'"⟩
  else ⟨status, "text/plain", text⟩

omit [Env] in
/-- The data of a request. If they cannot be read there is a response, or an exception:
    only a `parse_error` is caught. -/
def readData (request : HttpRequest) : Except (Except Error HttpResponse) Json :=
  if request.body = "" then .ok .null
  else if request.contentType = "application/json" then
    match JsonParser.parse request.body with
    | .error (.parseError what) =>
      .error (.ok ⟨400, "text/plain", "Failed to parse JSON: " ++ what⟩)
    | .error (.outOfRange what) => .error (.error (.exception what))
    | .ok data => .ok data
  else .error (.ok ⟨415, "text/plain", s!"Unsupported media type '{request.contentType}'"⟩)

/-- `handle_request` up to the call of the handler: the handler with its data, or what
    there is instead. -/
def dispatch (server : HttpServer H) (request : HttpRequest) :
    Except (Except Error HttpResponse) (H × Json) :=
  match readData request with
  | .error instead => .error instead
  | .ok data =>
    match server.find request.target request.method with
    | .error status => .error (.ok (finish request.method status "" .null))
    | .ok handler => .ok (handler, data)

omit [JsonParser] in
/-- `handle_request` after the call of the handler. Whatever it throws besides an
    `HTTPError` is not caught. -/
def respond (method : Verb) : Except Error Json → Except Error HttpResponse
  | .ok answer => .ok (finish method 200 "" answer)
  | .error (.http status what) => .ok (finish method status what .null)
  | .error e => .error e

-- ---------------------------------------------------------------------------
-- Which requests reach a handler
-- ---------------------------------------------------------------------------

theorem of_dispatch {server : HttpServer H} {request : HttpRequest} {handler : H} {data : Json}
    (h : server.dispatch request = .ok (handler, data)) :
    readData request = .ok data ∧ server.find request.target request.method = .ok handler := by
  unfold dispatch at h
  split at h
  · cases h
  · next hread =>
    split at h
    · cases h
    · next hfind =>
      cases h
      exact ⟨hread, hfind⟩

/-- Why a request does not reach a handler, as far as its status tells. -/
inductive Refused (server : HttpServer H) (request : HttpRequest) : Nat → Prop where
  | mediaType (body : request.body ≠ "") (type : request.contentType ≠ "application/json") :
    Refused server request 415
  | unparsed (body : request.body ≠ "") (what : String)
      (parse : JsonParser.parse request.body = .error (.parseError what)) :
    Refused server request 400
  | notFound (target : ∀ entry ∈ server.handlers, entry.1 ≠ request.target) :
    Refused server request 404
  | method (target : ∃ entry ∈ server.handlers, entry.1 = request.target)
      (method : ∀ entry ∈ server.handlers, entry.1 = request.target →
        entry.2.1 ≠ request.method) : Refused server request 400

omit [JsonParser] in
theorem finish_status (method : Verb) (status : Nat) (text : String) (answer : Json) :
    (finish method status text answer).status = status := by
  unfold finish
  split_ifs <;> simp_all

theorem refused_of_dispatch {server : HttpServer H} {request : HttpRequest}
    {response : HttpResponse} (h : server.dispatch request = .error (.ok response)) :
    Refused server request response.status := by
  unfold dispatch at h
  split at h
  · next hread =>
    cases h
    unfold readData at hread
    split_ifs at hread with hbody htype
    · split at hread
      · next what hparse =>
        cases hread
        exact .unparsed hbody what hparse
      · cases hread
      · cases hread
    · cases hread
      exact .mediaType hbody htype
  · split at h
    · next hfind =>
      cases h
      rw [finish_status]
      obtain ⟨hmethod, ⟨rfl, htarget⟩ | ⟨rfl, htarget⟩⟩ := find_eq_error hfind
      · exact .notFound htarget
      · exact .method htarget hmethod
    · cases h

end HttpServer

end BuenzliCoin
