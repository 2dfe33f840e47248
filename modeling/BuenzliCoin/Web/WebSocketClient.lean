-- SUMMARY: The request pipeline of a WebSocket client: its queue, and the writes and reads in flight.
import BuenzliCoin.Lib.Runs

/-!
# WebSocket clients

A connection writes a request, reads the response, hands it to the callback of
the request, and goes on to the next request in its queue. Writes and reads are
started by one handler and completed by the event loop, which calls the next.
Operations complete without error, and the server answers requests in order. The
text of a response is what the server makes of the request; how `on_read` decodes
it does not depend on the connection.
-/

namespace BuenzliCoin

open Runs

namespace WebSocketClient

variable {R C A : Type}

/-- A `Connection` and its event loop. -/
structure Connection (R C A : Type) where
  /-- `m_send_queue` -/
  sendQueue : List (R × C) := []
  /-- The callbacks that the writes in flight will pass on, and those of the reads. -/
  writes : List C := []
  reads : List C := []
  /-- `run()` has been called and has not returned. -/
  running : Bool := false
  /-- What `send` was called with so far. -/
  sent : List (R × C) := []
  /-- What was written to the stream so far. -/
  written : List R := []
  /-- The callbacks that were invoked so far, and with what. -/
  answered : List (C × A) := []
  /-- The number of operations that have completed. -/
  completed : Nat := 0
  deriving DecidableEq

namespace Connection

/-- Both of its callers have seen that the queue is not empty. -/
def write (c : Connection R C A) : Connection R C A :=
  match c.sendQueue with
  | [] => c
  | (request, callback) :: _ =>
    { c with writes := c.writes ++ [callback], written := c.written ++ [request] }

def send (c : Connection R C A) (request : R × C) : Connection R C A :=
  let c := { c with sendQueue := c.sendQueue ++ [request], sent := c.sent ++ [request] }
  if c.sendQueue.length > 1 then c else c.write

/-- `on_write` and `read`. To pop an empty queue is undefined. -/
def onWrite (c : Connection R C A) (callback : C) : Option (Connection R C A) :=
  match c.sendQueue with
  | [] => none
  | _ :: sendQueue => some { c with sendQueue, reads := c.reads ++ [callback] }

/-- `on_read`, whose callback calls `send` with each of `requests`. -/
def onRead (c : Connection R C A) (callback : C) (answer : A) (requests : List (R × C)) :
    Connection R C A :=
  let c := requests.foldl send { c with answered := c.answered ++ [(callback, answer)] }
  if c.sendQueue ≠ [] then c.write else c

/-- The event loop returns when nothing is in flight any more. -/
def poll (c : Connection R C A) : Connection R C A :=
  { c with running := !(c.writes.isEmpty && c.reads.isEmpty) }

end Connection

inductive Event (R C : Type) where
  /-- `send`, other than by a callback. -/
  | send (request : R × C)
  | run
  /-- One of the writes in flight has completed. -/
  | writeDone (i : Nat)
  /-- One of the reads in flight has completed; its callback sends the requests. -/
  | readDone (i : Nat) (requests : List (R × C))

variable (serve : R → A)

/-- The `n`-th response that is read is that to the `n`-th request that was written. -/
def step (c : Connection R C A) : Event R C → Option (Connection R C A)
  | .send request => if c.running then none else some (c.send request)
  | .run => if c.running then none else some c.poll
  | .writeDone i =>
    if c.running then do
      let callback ← c.writes[i]?
      let c := { c with writes := c.writes.eraseIdx i, completed := c.completed + 1 }
      let c ← c.onWrite callback
      return c.poll
    else none
  | .readDone i requests =>
    if c.running then do
      let callback ← c.reads[i]?
      let request ← c.written[c.answered.length]?
      let c := { c with reads := c.reads.eraseIdx i, completed := c.completed + 1 }
      return (c.onRead callback (serve request) requests).poll
    else none

-- ---------------------------------------------------------------------------
-- The pipeline
-- ---------------------------------------------------------------------------

/-- One operation of each kind is in flight at most. The requests are written once
    and in order, and the callbacks invoked once, each with the response to its own
    request. Every second completion answers a request, and there is an operation to
    complete as long as a request is not answered. -/
structure Pipelined (c : Connection R C A) : Prop where
  writes_le : c.writes.length ≤ 1
  reads_le : c.reads.length ≤ 1
  written : c.written <+: c.sent.map Prod.fst
  answered : c.answered <+: c.sent.map fun request => (request.2, serve request.1)
  completed : c.completed = 2 * c.answered.length + c.reads.length
  finished : c.writes = [] → c.reads = [] →
    c.written = c.sent.map Prod.fst ∧
      c.answered = c.sent.map fun request => (request.2, serve request.1)

/-- A callback that sends does so while requests are waiting: `on_read` writes the
    first of the queue in any case. -/
def SendsBehind (c : Connection R C A) : Event R C → Prop
  | .readDone _ requests => requests = [] ∨ c.sendQueue ≠ []
  | _ => True

/-- The states of a connection that is used well: nothing is in flight and nothing
    waits, or the first of the queue is being written, or the response to a request
    that has left the queue is being read. -/
inductive Phase (c : Connection R C A) : Prop where
  | idle (queue : c.sendQueue = []) (writes : c.writes = []) (reads : c.reads = [])
      (written : c.written = c.sent.map Prod.fst)
      (answered : c.answered = c.sent.map fun request => (request.2, serve request.1))
      (completed : c.completed = 2 * c.answered.length)
  | writing (done : List (R × C)) (request : R × C) (waiting : List (R × C))
      (queue : c.sendQueue = request :: waiting) (writes : c.writes = [request.2])
      (reads : c.reads = []) (sent : c.sent = done ++ request :: waiting)
      (written : c.written = (done ++ [request]).map Prod.fst)
      (answered : c.answered = done.map fun request => (request.2, serve request.1))
      (completed : c.completed = 2 * c.answered.length)
  | reading (done : List (R × C)) (request : R × C) (running : c.running = true)
      (writes : c.writes = []) (reads : c.reads = [request.2])
      (sent : c.sent = done ++ request :: c.sendQueue)
      (written : c.written = (done ++ [request]).map Prod.fst)
      (answered : c.answered = done.map fun request => (request.2, serve request.1))
      (completed : c.completed = 2 * c.answered.length + 1)

theorem phase_new : Phase serve ({} : Connection R C A) := .idle rfl rfl rfl rfl rfl rfl

variable {serve} {c c' : Connection R C A}

theorem prefix_of_sent {done waiting : List (R × C)} {request : R × C}
    (hsent : c.sent = done ++ request :: waiting)
    (hwritten : c.written = (done ++ [request]).map Prod.fst)
    (hanswered : c.answered = done.map fun request => (request.2, serve request.1)) :
    c.written <+: c.sent.map Prod.fst ∧
      c.answered <+: c.sent.map fun request => (request.2, serve request.1) := by
  constructor
  · have hsplit : c.sent = (done ++ [request]) ++ waiting := by rw [hsent, List.append_cons]
    rw [hwritten, hsplit]
    exact (List.prefix_append ..).map Prod.fst
  · rw [hanswered, hsent]
    exact (List.prefix_append ..).map _

theorem Phase.pipelined (h : Phase serve c) : Pipelined serve c := by
  cases h with
  | idle queue writes reads written answered completed =>
    refine ⟨by simp [writes], by simp [reads], ?_, ?_, by simp [reads, completed], ?_⟩
    · exact written ▸ List.prefix_refl _
    · exact answered ▸ List.prefix_refl _
    · exact fun _ _ => ⟨written, answered⟩
  | writing done request waiting queue writes reads sent written answered completed =>
    obtain ⟨hwritten, hanswered⟩ := prefix_of_sent sent written answered
    refine ⟨by simp [writes], by simp [reads], hwritten, hanswered, by simp [reads, completed], ?_⟩
    intro hnone
    rw [writes] at hnone
    cases hnone
  | reading done request running writes reads sent written answered completed =>
    obtain ⟨hwritten, hanswered⟩ := prefix_of_sent sent written answered
    refine ⟨by simp [writes], by simp [reads], hwritten, hanswered, by simp [reads, completed], ?_⟩
    intro _ hnone
    rw [reads] at hnone
    cases hnone

theorem Phase.poll (h : Phase serve c) : Phase serve c.poll := by
  cases h with
  | idle queue writes reads written answered completed =>
    exact .idle queue writes reads written answered completed
  | writing done request waiting queue writes reads sent written answered completed =>
    exact .writing done request waiting queue writes reads sent written answered completed
  | reading done request running writes reads sent written answered completed =>
    refine .reading done request ?_ writes reads sent written answered completed
    simp [Connection.poll, reads]

-- ---------------------------------------------------------------------------
-- Sending
-- ---------------------------------------------------------------------------

/-- A request that is sent behind others waits. -/
theorem send_of_waiting (h : c.sendQueue ≠ []) (request : R × C) :
    c.send request =
      { c with sendQueue := c.sendQueue ++ [request], sent := c.sent ++ [request] } := by
  have hlength : (c.sendQueue ++ [request]).length > 1 := by
    have hpos := List.length_pos_iff.mpr h
    rw [List.length_append, List.length_singleton]
    omega
  simp only [Connection.send, if_pos hlength]

/-- A request that is sent to an empty queue is written at once. -/
theorem send_of_empty (h : c.sendQueue = []) (request : R × C) :
    c.send request =
      { c with
        sendQueue := [request]
        sent := c.sent ++ [request]
        writes := c.writes ++ [request.2]
        written := c.written ++ [request.1] } := by
  simp [Connection.send, Connection.write, h]

theorem foldl_send_of_waiting {requests : List (R × C)} (h : requests = [] ∨ c.sendQueue ≠ []) :
    requests.foldl Connection.send c =
      { c with sendQueue := c.sendQueue ++ requests, sent := c.sent ++ requests } := by
  induction requests generalizing c with
  | nil => simp
  | cons request requests ih =>
    have hwaiting : c.sendQueue ≠ [] := h.resolve_left (List.cons_ne_nil _ _)
    rw [List.foldl_cons, send_of_waiting hwaiting, ih (.inr (by simp))]
    simp

theorem Phase.send (h : Phase serve c) (hrunning : c.running = false) (request : R × C) :
    Phase serve (c.send request) := by
  cases h with
  | idle queue writes reads written answered completed =>
    rw [send_of_empty queue]
    refine .writing c.sent request [] rfl (by simp [writes]) reads rfl ?_ answered completed
    simp [written]
  | writing done first waiting queue writes reads sent written answered completed =>
    rw [send_of_waiting (by simp [queue])]
    refine .writing done first (waiting ++ [request]) ?_ writes reads ?_ written answered completed
    · simp [queue]
    · simp [sent]
  | reading done first running =>
    rw [running] at hrunning
    cases hrunning

-- ---------------------------------------------------------------------------
-- Completions
-- ---------------------------------------------------------------------------

theorem Phase.writeDone {i : Nat} (h : Phase serve c)
    (hstep : step serve c (.writeDone i) = some c') : Phase serve c' := by
  simp only [step] at hstep
  split at hstep
  · next hrunning =>
    obtain ⟨callback, hcallback, hrest⟩ := Option.bind_eq_some_iff.mp hstep
    cases h with
    | idle queue writes => simp [writes] at hcallback
    | reading done request running writes => simp [writes] at hcallback
    | writing done request waiting queue writes reads sent written answered completed =>
      obtain ⟨hi, rfl⟩ : i = 0 ∧ request.2 = callback := by
        simpa [writes, List.getElem?_singleton] using hcallback
      simp only [Connection.onWrite, queue] at hrest
      cases hrest
      refine Phase.poll (.reading done request hrunning ?_ ?_ sent written answered ?_)
      · simp [writes, hi]
      · simp [reads]
      · simp [completed]
  · cases hstep

/-- Nothing is in flight: the requests `done` have been answered, and the others wait. -/
structure Settled (serve : R → A) (done : List (R × C)) (c : Connection R C A) : Prop where
  writes : c.writes = []
  reads : c.reads = []
  sent : c.sent = done ++ c.sendQueue
  written : c.written = done.map Prod.fst
  answered : c.answered = done.map fun request => (request.2, serve request.1)
  completed : c.completed = 2 * c.answered.length

/-- How `on_read` goes on after the callback. -/
theorem Settled.phase {done : List (R × C)} (h : Settled serve done c) :
    Phase serve (if c.sendQueue ≠ [] then c.write else c) := by
  obtain ⟨hwrites, hreads, hsent, hwritten, hanswered, hcompleted⟩ := h
  by_cases hqueue : c.sendQueue = []
  · rw [if_neg (not_not_intro hqueue)]
    rw [hqueue, List.append_nil] at hsent
    exact .idle hqueue hwrites hreads (hsent ▸ hwritten) (hsent ▸ hanswered) hcompleted
  · rw [if_pos hqueue]
    obtain ⟨request, waiting, hqueue⟩ := List.exists_cons_of_ne_nil hqueue
    simp only [Connection.write, hqueue]
    refine .writing done request waiting rfl ?_ hreads ?_ ?_ hanswered hcompleted
    · simp [hwrites]
    · rw [hsent, hqueue]
    · simp [hwritten]

/-- A callback that sends behind other requests. -/
theorem Settled.foldl_send {done requests : List (R × C)} (h : Settled serve done c)
    (hbehind : requests = [] ∨ c.sendQueue ≠ []) :
    Settled serve done (requests.foldl Connection.send c) := by
  rw [foldl_send_of_waiting hbehind]
  refine ⟨h.writes, h.reads, ?_, h.written, h.answered, h.completed⟩
  simp [h.sent]

/-- A callback that sends to an empty queue starts a write, and `on_read` another. -/
theorem Settled.length_writes {done requests : List (R × C)} (h : Settled serve done c)
    (hqueue : c.sendQueue = []) (hrequests : requests ≠ []) :
    (requests.foldl Connection.send c).sendQueue ≠ [] ∧
      (requests.foldl Connection.send c).write.writes.length = 2 := by
  obtain ⟨request, requests, rfl⟩ := List.exists_cons_of_ne_nil hrequests
  rw [List.foldl_cons, send_of_empty hqueue, foldl_send_of_waiting (.inr (List.cons_ne_nil _ _))]
  simp [Connection.write, h.writes]

/-- When a read completes, the callback is called in a state in which the requests up to
    its own have been answered. -/
theorem Phase.readDone {i : Nat} {requests : List (R × C)} (h : Phase serve c)
    (hstep : step serve c (.readDone i requests) = some c') :
    ∃ done c₁, c₁.sendQueue = c.sendQueue ∧ Settled serve done c₁ ∧
      c' = (if (requests.foldl Connection.send c₁).sendQueue ≠ [] then
        (requests.foldl Connection.send c₁).write
        else requests.foldl Connection.send c₁).poll := by
  simp only [step] at hstep
  split at hstep
  · obtain ⟨callback, hcallback, hrest⟩ := Option.bind_eq_some_iff.mp hstep
    obtain ⟨answering, hanswering, hrest⟩ := Option.bind_eq_some_iff.mp hrest
    cases h with
    | idle queue writes reads => simp [reads] at hcallback
    | writing done request waiting queue writes reads => simp [reads] at hcallback
    | reading done request running writes reads sent written answered completed =>
      obtain ⟨hi, rfl⟩ : i = 0 ∧ request.2 = callback := by
        simpa [reads, List.getElem?_singleton] using hcallback
      have hown : request.1 = answering := by simpa [answered, written] using hanswering
      cases hrest
      refine ⟨done ++ [request], {
        c with
        reads := c.reads.eraseIdx i
        completed := c.completed + 1
        answered := c.answered ++ [(request.2, serve answering)] },
        rfl, ⟨writes, ?_, ?_, written, ?_, ?_⟩, rfl⟩
      · simp [reads, hi]
      · simp [sent]
      · simp [answered, hown]
      · simp only [List.length_append, List.length_singleton]
        omega
  · cases hstep

theorem Phase.readDone_iff {i : Nat} {requests : List (R × C)} (h : Phase serve c)
    (hstep : step serve c (.readDone i requests) = some c') :
    (SendsBehind c (.readDone i requests) → Phase serve c') ∧
      (Pipelined serve c' → SendsBehind c (.readDone i requests)) := by
  obtain ⟨done, c₁, hqueue, hsettled, rfl⟩ := h.readDone hstep
  rw [SendsBehind, ← hqueue]
  constructor
  · intro hbehind
    exact (hsettled.foldl_send hbehind).phase.poll
  · intro hpipelined
    refine Classical.byContradiction fun hbehind => ?_
    obtain ⟨hrequests, hempty⟩ := not_or.mp hbehind
    obtain ⟨hne, htwo⟩ := hsettled.length_writes (Classical.not_not.mp hempty) hrequests
    rw [if_pos hne] at hpipelined
    have hle := hpipelined.writes_le
    simp only [Connection.poll, htwo] at hle
    omega

theorem Phase.step {event : Event R C} (h : Phase serve c)
    (hstep : WebSocketClient.step serve c event = some c') (hbehind : SendsBehind c event) :
    Phase serve c' := by
  cases event with
  | send request =>
    simp only [WebSocketClient.step] at hstep
    split at hstep
    · cases hstep
    · next hrunning =>
      cases hstep
      exact h.send (Bool.eq_false_iff.mpr hrunning) request
  | run =>
    simp only [WebSocketClient.step] at hstep
    split at hstep
    · cases hstep
    · cases hstep
      exact h.poll
  | writeDone i => exact h.writeDone hstep
  | readDone i requests => exact (h.readDone_iff hstep).1 hbehind

/-- Requests go through the pipeline one by one, in every state of a run, exactly if no
    callback sends while the queue is empty. -/
theorem everyState_pipelined_iff (serve : R → A) (events : List (Event R C)) :
    EveryState (WebSocketClient.step serve) (Pipelined serve) {} events ↔
      EveryStep (WebSocketClient.step serve) SendsBehind {} events := by
  refine everyState_iff_everyStep_of_strengthening (fun _ h => h.pipelined)
    (fun _ _ _ h hstep hbehind => h.step hstep hbehind) ?_ (phase_new serve)
  intro c event c' h hstep hpipelined
  cases event with
  | readDone i requests => exact (h.readDone_iff hstep).2 hpipelined
  | _ => trivial

/-- The callback of the only request sends another one. -/
def followingUp : List (Event Nat Nat) :=
  [.send (0, 0), .run, .writeDone 0, .readDone 0 [(1, 1)]]

/-- The second request is written twice at the same time, and when both writes have
    completed the empty queue is popped. -/
theorem not_pipelined_followingUp :
    ∃ c : Connection Nat Nat Nat, run (step id) {} followingUp = some c ∧
      c.sent = [(0, 0), (1, 1)] ∧ c.written = [0, 1, 1] ∧ c.writes = [1, 1] ∧
      run (step id) {} (followingUp ++ [.writeDone 0, .writeDone 0]) =
        (none : Option (Connection Nat Nat Nat)) :=
  ⟨_, rfl, rfl, rfl, rfl, rfl⟩

end WebSocketClient

end BuenzliCoin
