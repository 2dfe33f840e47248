-- SUMMARY: What handlers detach finds what it needs, however much later it runs.
import BuenzliCoin.Lib.Runs
import BuenzliCoin.Node.Announcement

/-!
# Detached tasks

A task runs at any time after the handler that has detached it, in whatever state the
node is by then. It looks at the latest block, or names a peer by a number, and checks
neither of them.
-/

namespace BuenzliCoin

open NodeData Runs

/-- A build in which the handlers under `#ifdef TRANSACTIONS` detach nothing but broadcasts
    of transactions. -/
class DetachingData (T : Type) [NodeData T] : Prop where
  serve_tasks : ∀ [Env] {m : Members T} {data : List T} {request : Request T},
    ∀ task ∈ (serve m data request).2.2, ∃ t, task = .broadcastTransaction t

instance : DetachingData Text where
  serve_tasks {_ _ _ request} := nomatch request

instance : DetachingData TransactionList where
  serve_tasks := by
    intro env m data request task htask
    cases request with
    | transactionsLatestGet => cases htask
    | transactionsUnconfirmedGet => cases htask
    | transactionsUnspentGet => cases htask
    | transactionsPost json =>
      simp only [serve, TransactionMembers.serve, TransactionMembers.handleTransactionsPost]
        at htask
      split at htask
      · cases htask
      · exact ⟨_, List.mem_singleton.mp htask⟩
    | receiveTransaction json =>
      simp only [serve, TransactionMembers.serve, TransactionMembers.handleReceiveTransaction]
        at htask
      split at htask
      · cases htask
      · split at htask <;> cases htask

/-- The peer that a task sends its request to, if there is only one. -/
def Task.peerId? : Task → Option Nat
  | .requestLatestBlock peerId | .requestAllBlocks peerId => some peerId
  | .broadcastLatestBlock | .broadcastTransaction _ => none

namespace WebSocketPeers

theorem get?_append {peers : WebSocketPeers} {peerId : Nat} {peer : WebSocketPeer}
    (h : peers.get? peerId = some peer) (more : WebSocketPeers) :
    WebSocketPeers.get? (peers ++ more) peerId = some peer := by
  unfold get? at h ⊢
  split_ifs at h ⊢
  rw [List.getElem?_append_left]
  · exact h
  · exact (List.getElem?_eq_some_iff.mp h).1

/-- Each peer has one number, which is the one that looking for it finds. -/
def Numbered (peers : WebSocketPeers) : Prop :=
  ∀ peerId peer, peers.get? peerId = some peer ↔
    peerId ≠ 0 ∧ peers.find peer.host peer.port = peerId

theorem not_mem_of_find {peers : WebSocketPeers} {peer : WebSocketPeer}
    (h : peers.find peer.host peer.port = 0) : peer ∉ peers := by
  unfold find at h
  cases hfound : peers.findIdx? (· = ⟨peer.host, peer.port⟩) with
  | some i =>
    rw [hfound] at h
    cases h
  | none =>
    rw [List.findIdx?_eq_none_iff] at hfound
    intro hmem
    exact absurd (hfound peer hmem) (by simp)

theorem numbered_iff {peers : WebSocketPeers} : peers.Numbered ↔ peers.Nodup := by
  constructor
  · intro h
    rw [List.nodup_iff_injective_get]
    intro i j hij
    have hget : ∀ k : Fin peers.length, peers.get? (k + 1) = some (peers.get k) := by
      intro k
      simp [get?]
    have hi := ((h _ _).mp (hget i)).2
    have hj := ((h _ _).mp (hget j)).2
    rw [hij] at hi
    exact Fin.ext (Nat.succ_inj.mp (hi.symm.trans hj))
  · intro hnodup peerId peer
    constructor
    · intro hget
      unfold get? at hget
      split_ifs at hget with hzero
      obtain ⟨hlt, hpeer⟩ := List.getElem?_eq_some_iff.mp hget
      refine ⟨hzero, ?_⟩
      have hfound : peers.findIdx? (· = ⟨peer.host, peer.port⟩) = some (peerId - 1) := by
        refine List.findIdx?_eq_some_iff_getElem.mpr ⟨hlt, by simp [hpeer], ?_⟩
        intro k hk
        have hne : peers[k] ≠ peer := by
          rw [← hpeer]
          exact fun heq => hk.ne (hnodup.getElem_inj_iff.mp heq)
        simpa using hne
      simp only [find, hfound]
      omega
    · rintro ⟨hzero, rfl⟩
      exact get?_find hzero

end WebSocketPeers

namespace Node

variable {T : Type} [NodeData T] [Env]

omit [Env] in
/-- The origin that a message names. -/
def originOf (data : Json) : Except Error (String × UInt16) := do
  let host ← (← (← data.atKey "origin").atKey "host").getString
  let port ← (← (← data.atKey "origin").atKey "port").getUInt16
  return (host, port)

/-- The peer that a call names. -/
def Call.peer? : Call T → Option WebSocketPeer
  | .peersPost data _ => (requestedPeer data).toOption.map fun named => ⟨named.1, named.2⟩
  | .receiveLatestBlock data _ => (originOf data).toOption.map fun named => ⟨named.1, named.2⟩
  | _ => none

/-- What a task relies on, if `call` has detached it. -/
structure Ready (n : Node T) (call : Call T) (task : Task) : Prop where
  peer : ∀ peerId, task.peerId? = some peerId →
    ∃ peer, call.peer? = some peer ∧ n.peers.get? peerId = some peer
  latestBlock : task = .broadcastLatestBlock → n.blockchain.blocks ≠ []

-- ---------------------------------------------------------------------------
-- What a call does to the peers
-- ---------------------------------------------------------------------------

/-- Peers are only added, at the end, and by calls that name them. Messages look them up
    first. -/
inductive PeersStep (n : Node T) (call : Call T) (reply : Reply T) : Prop where
  | kept (peers : reply.node.peers = n.peers) (tasks : ∀ task ∈ reply.tasks, task.peerId? = none)
      (grown : .broadcastLatestBlock ∈ reply.tasks → reply.node.blockchain.blocks ≠ [])
  | found {peer : WebSocketPeer} (named : call.peer? = some peer)
      (peers : reply.node.peers = n.peers)
      (tasks : ∀ task ∈ reply.tasks, task.peerId? = some (n.peers.find peer.host peer.port))
      (known : n.peers.find peer.host peer.port ≠ 0)
  | added {peer : WebSocketPeer} (named : call.peer? = some peer)
      (peers : reply.node.peers = n.peers ++ [peer])
      (tasks : ∀ task ∈ reply.tasks, task.peerId? = some (n.peers.length + 1))
      (unknown : (∀ data, call ≠ .peersPost data (.ok ())) → n.peers.find peer.host peer.port = 0)

theorem PeersStep.idle {n : Node T} {call : Call T} {reply : Reply T}
    (hpeers : reply.node.peers = n.peers) (htasks : reply.tasks = []) :
    n.PeersStep call reply := by
  refine .kept hpeers ?_ ?_
  · rw [htasks]
    exact List.forall_mem_nil _
  · rw [htasks]
    exact fun h => absurd h List.not_mem_nil

theorem peersPost_peersStep (n : Node T) (data : Json) (connection : Except String Unit) :
    n.PeersStep (.peersPost data connection) (n.handlePeersPost data connection) := by
  unfold handlePeersPost
  cases hnamed : requestedPeer data with
  | error e => exact .idle rfl rfl
  | ok named =>
    cases connection with
    | error e => exact .idle rfl rfl
    | ok _ =>
      have hpeer : Call.peer? (.peersPost data (.ok ()) : Call T) =
          some ⟨named.1, named.2⟩ := by
        rw [Call.peer?, hnamed]
        rfl
      exact .added hpeer rfl (List.forall_mem_singleton.mpr rfl)
        fun hnone => absurd rfl (hnone _)

theorem handleBlocksPost_peers {n : Node T} {data : Json} {clock : Clock} {fuel : Nat}
    {reply : Reply T} (h : n.handleBlocksPost data clock fuel = some reply) :
    reply.node.peers = n.peers := by
  unfold handleBlocksPost at h
  dsimp only at h
  split at h
  · cases h
    rfl
  · split at h
    · cases h
    · cases h
      rfl
    · obtain ⟨members, -, h⟩ := Option.bind_eq_some_iff.mp h
      cases h
      rfl

/-- A message that asks for the whole chain has named its origin. -/
theorem requestFrom_cases {n : Node T} {data : Json} {connection : Except String Unit}
    {peerId : Nat} {peers : WebSocketPeers}
    (h : n.requestFrom data connection = .ok (peerId, peers)) :
    ∃ host port, originOf data = .ok (host, port) ∧
      ((n.peers.find host port ≠ 0 ∧ peerId = n.peers.find host port ∧ peers = n.peers) ∨
        (n.peers.find host port = 0 ∧ peerId = n.peers.length + 1 ∧
          peers = n.peers ++ [⟨host, port⟩])) := by
  have hread : n.requestFrom data connection =
      (Error.rethrow (fun what => .webSocket
        s!"Malformed 'receive_latest_block' request: '{data.dump}'{what}") (originOf data)).bind
        fun named => if n.peers.find named.1 named.2 = 0
          then n.peers.add named.1 named.2 connection
          else .ok (n.peers.find named.1 named.2, n.peers) := rfl
  rw [hread] at h
  obtain ⟨⟨host, port⟩, hnamed, h⟩ := Except.bind_eq_ok_iff.mp h
  refine ⟨host, port, Error.rethrow_eq_ok.mp hnamed, ?_⟩
  by_cases hfind : n.peers.find host port = 0
  · rw [if_pos hfind] at h
    cases connection with
    | error e => cases h
    | ok _ =>
      cases h
      exact .inr ⟨hfind, rfl, rfl⟩
  · rw [if_neg hfind] at h
    cases h
    exact .inl ⟨hfind, rfl, rfl⟩

theorem receiveLatestBlock_peersStep {n : Node T} {data : Json} {clock : Clock}
    {connection : Except String Unit} {reply : Reply T}
    (h : n.handleReceiveLatestBlock data clock connection = some reply) :
    n.PeersStep (.receiveLatestBlock data connection) reply := by
  obtain ⟨hpeers, htasks, -⟩ | ⟨b, peerId, hjudge, htasks, -⟩ := handleReceiveLatestBlock_cases h
  · exact .idle hpeers htasks
  · obtain ⟨-, -, -, hrequest⟩ := judge_requestAll hjudge
    obtain ⟨host, port, horigin, hcases⟩ := requestFrom_cases hrequest
    have hpeer : Call.peer? (.receiveLatestBlock data connection : Call T) =
        some ⟨host, port⟩ := by
      rw [Call.peer?, horigin]
      rfl
    obtain ⟨hfind, rfl, hpeers⟩ | ⟨hfind, rfl, hpeers⟩ := hcases
    · refine .found hpeer hpeers ?_ hfind
      rw [htasks]
      exact List.forall_mem_singleton.mpr rfl
    · refine .added hpeer hpeers ?_ fun _ => hfind
      rw [htasks]
      exact List.forall_mem_singleton.mpr rfl

theorem handle_peersStep [DetachingData T] {n : Node T} {clock : Clock} {call : Call T}
    {reply : Reply T} (h : n.handle clock call = some reply) : n.PeersStep call reply := by
  cases call with
  | blocksPost data fuel =>
    obtain ⟨htasks, -⟩ | ⟨htasks, d, m, b, -, -, hstep, -⟩ := handleBlocksPost_cases h
    · exact .idle (handleBlocksPost_peers h) htasks
    · refine .kept (handleBlocksPost_peers h) ?_ fun _ => ?_
      · rw [htasks]
        exact List.forall_mem_singleton.mpr rfl
      · rw [hstep.blocks]
        exact List.append_ne_nil_of_right_ne_nil _ (List.cons_ne_nil _ _)
  | peersPost data connection =>
    cases h
    exact peersPost_peersStep n data connection
  | receiveLatestBlock data connection => exact receiveLatestBlock_peersStep h
  | receiveAllBlocks data =>
    obtain ⟨hpeers, htasks, -⟩ := handleReceiveAllBlocks_cases h
    exact .idle hpeers htasks
  | other request =>
    cases h
    have htasks : ∀ task ∈ (serve n.members (n.blockchain.blocks.map Block.data) request).2.2,
        ∃ t, task = .broadcastTransaction t := DetachingData.serve_tasks
    refine .kept rfl (fun task htask => ?_) fun htask => ?_
    · obtain ⟨t, rfl⟩ := htasks task htask
      rfl
    · obtain ⟨t, ht⟩ := htasks _ htask
      cases ht
  | _ =>
    cases h
    exact .idle rfl rfl

-- ---------------------------------------------------------------------------
-- Whenever a task runs
-- ---------------------------------------------------------------------------

theorem PeersStep.get? {n : Node T} {call : Call T} {reply : Reply T}
    (hstep : n.PeersStep call reply) {peerId : Nat} {peer : WebSocketPeer}
    (h : n.peers.get? peerId = some peer) : reply.node.peers.get? peerId = some peer := by
  cases hstep with
  | kept hpeers _ _ | found _ hpeers _ _ => rw [hpeers, h]
  | added _ hpeers _ _ =>
    rw [hpeers]
    exact WebSocketPeers.get?_append h _

/-- A task names the peer that its call has named. -/
theorem PeersStep.named {n : Node T} {call : Call T} {reply : Reply T}
    (hstep : n.PeersStep call reply) {task : Task} (htask : task ∈ reply.tasks) {peerId : Nat}
    (hpeer : task.peerId? = some peerId) :
    ∃ peer, call.peer? = some peer ∧ reply.node.peers.get? peerId = some peer := by
  cases hstep with
  | kept _ htasks _ =>
    rw [htasks task htask] at hpeer
    cases hpeer
  | @found peer hnamed hpeers htasks hknown =>
    rw [htasks task htask] at hpeer
    cases hpeer
    refine ⟨peer, hnamed, ?_⟩
    rw [hpeers]
    exact WebSocketPeers.get?_find hknown
  | @added peer hnamed hpeers htasks _ =>
    rw [htasks task htask] at hpeer
    cases hpeer
    refine ⟨peer, hnamed, ?_⟩
    rw [hpeers]
    simp [WebSocketPeers.get?]

/-- No call empties the chain. -/
theorem ChainStep.blocks_ne_nil {n : Node T} {clock : Clock} {call : Call T} {bc : Blockchain T}
    (hstep : ChainStep n clock call bc) (h : n.blockchain.blocks ≠ []) : bc.blocks ≠ [] := by
  cases hstep with
  | kept hblocks _ => exact hblocks ▸ h
  | constructed hstep =>
    rw [hstep.blocks]
    exact List.append_ne_nil_of_right_ne_nil _ (List.cons_ne_nil _ _)
  | appended _ hstep =>
    rw [hstep.blocks]
    exact List.append_ne_nil_of_right_ne_nil _ (List.cons_ne_nil _ _)
  | replaced hreceived _ =>
    obtain ⟨_, -, -, hvalid⟩ := receivedChain_eq_ok.mp hreceived
    intro hempty
    rw [Blockchain.valid, hempty] at hvalid
    cases hvalid

/-- A call that sets a broadcast of the latest block going has added a block. -/
theorem PeersStep.blocks_ne_nil {n : Node T} {call : Call T} {reply : Reply T}
    (hstep : n.PeersStep call reply) (htask : .broadcastLatestBlock ∈ reply.tasks) :
    reply.node.blockchain.blocks ≠ [] := by
  cases hstep with
  | kept _ _ hgrown => exact hgrown htask
  | found _ _ htasks _ | added _ _ htasks _ => cases htasks _ htask

theorem Ready.step [DetachingData T] {n n' : Node T} {call : Call T} {task : Task}
    (h : n.Ready call task) {input : Clock × Call T} (hstep : n.step input = some n') :
    n'.Ready call task := by
  obtain ⟨reply, hhandle, rfl⟩ := step_eq_some.mp hstep
  refine ⟨fun peerId hpeer => ?_, fun hlatest => ?_⟩
  · obtain ⟨peer, hnamed, hget⟩ := h.peer peerId hpeer
    exact ⟨peer, hnamed, (handle_peersStep hhandle).get? hget⟩
  · exact (handle_chainStep hhandle).blocks_ne_nil (h.latestBlock hlatest)

/-- Whatever calls follow: a task that a call has detached finds a latest block if it needs
    one, and the number that it holds stands for the peer that the call has named. -/
theorem everyState_ready [DetachingData T] {n : Node T} {clock : Clock} {call : Call T}
    {reply : Reply T} (h : n.handle clock call = some reply) {task : Task}
    (htask : task ∈ reply.tasks) (inputs : List (Clock × Call T)) :
    EveryState step (fun n' => n'.Ready call task) reply.node inputs := by
  refine EveryState.of_invariant (fun n' input n'' hn hstep => hn.step hstep) ⟨?_, ?_⟩
  · exact fun peerId hpeer => (handle_peersStep h).named htask hpeer
  · rintro rfl
    exact (handle_peersStep h).blocks_ne_nil htask

-- ---------------------------------------------------------------------------
-- Numbers of peers
-- ---------------------------------------------------------------------------

/-- `POST /peers` does not look for the peer that it adds, so it had better be new. -/
def AddsNew (n : Node T) (input : Clock × Call T) : Prop :=
  ∀ data peer, input.2 = .peersPost data (.ok ()) → input.2.peer? = some peer → peer ∉ n.peers

theorem nodup_peers_iff {n n' : Node T} [DetachingData T] {input : Clock × Call T}
    (hn : n.peers.Nodup) (hstep : n.step input = some n') :
    n'.peers.Nodup ↔ n.AddsNew input := by
  obtain ⟨clock, call⟩ := input
  obtain ⟨reply, hhandle, rfl⟩ := step_eq_some.mp hstep
  constructor
  · rintro hnodup data peer rfl hpeer
    obtain ⟨named, hnamed, rfl⟩ := Option.map_eq_some_iff.mp hpeer
    have hrequested : requestedPeer data = .ok named := by
      cases hread : requestedPeer data with
      | error e =>
        rw [hread] at hnamed
        cases hnamed
      | ok _ =>
        rw [hread] at hnamed
        cases hnamed
        rfl
    have hpeers : reply.node.peers = n.peers ++ [⟨named.1, named.2⟩] := by
      cases hhandle
      simp only [handlePeersPost, hrequested, bind, Except.bind, WebSocketPeers.add]
    rw [hpeers] at hnodup
    exact fun hmem => (List.nodup_append.mp hnodup).2.2 _ hmem _ (List.mem_singleton_self _) rfl
  · intro hnew
    cases handle_peersStep hhandle with
    | kept hpeers _ _ | found _ hpeers _ _ => rwa [hpeers]
    | @added peer hnamed hpeers _ hunknown =>
      have hnot : peer ∉ n.peers := by
        by_cases hpost : ∃ data, call = .peersPost data (.ok ())
        · obtain ⟨data, rfl⟩ := hpost
          exact hnew data peer rfl hnamed
        · exact WebSocketPeers.not_mem_of_find (hunknown fun data h => hpost ⟨data, h⟩)
      rw [hpeers]
      exact hn.append (List.nodup_singleton peer) (List.disjoint_singleton.mpr hnot)

/-- Peers keep one number each throughout exactly the runs that ask only for new ones to be
    added; otherwise a peer gets two, and broadcasts reach it twice. -/
theorem everyState_numbered_iff [DetachingData T] (host : String) (port : UInt16)
    (inputs : List (Clock × Call T)) :
    EveryState step (fun n => n.peers.Numbered) (new host port) inputs ↔
      EveryStep step AddsNew (new host port) inputs := by
  simp only [WebSocketPeers.numbered_iff]
  exact everyState_iff_everyStep (fun _ _ _ hn hstep => nodup_peers_iff hn hstep) List.nodup_nil

end Node

/-! ## A peer that is added twice -/

def addBob : Json := .object [("host", .string "bob"), ("port", .numberUnsigned 8333)]

/-- The request that adding Bob sets going still reaches him when he has been added once
    more, and a block has been mined. -/
theorem Node.everyState_ready_addBob :
    letI := plainBuild
    ∃ reply : Reply Text,
      (new "localhost" 8332).handle .epoch (.peersPost addBob (.ok ())) = some reply ∧
      reply.tasks = [.requestLatestBlock 1] ∧
      EveryState step (fun n => n.Ready (.peersPost addBob (.ok ())) (.requestLatestBlock 1))
        reply.node [(.epoch, .peersPost addBob (.ok ())),
          (.epoch, .blocksPost (.string "first") 0)] := by
  let env := plainBuild
  have hhandle : (new "localhost" 8332 : Node Text).handle .epoch
      (.peersPost addBob (.ok ())) = some _ := rfl
  exact ⟨_, hhandle, rfl, everyState_ready hhandle (List.mem_singleton_self _) _⟩

theorem Node.everyState_numbered_iff_addBob :
    letI := plainBuild
    EveryState step (fun n : Node Text => n.peers.Numbered) (new "localhost" 8332)
        [(.epoch, .peersPost addBob (.ok ()))] ∧
      ¬ EveryState step (fun n : Node Text => n.peers.Numbered) (new "localhost" 8332)
        [(.epoch, .peersPost addBob (.ok ())), (.epoch, .peersPost addBob (.ok ()))] := by
  let env := plainBuild
  refine ⟨(everyState_numbered_iff "localhost" 8332 _).mpr ?_, ?_⟩
  · exact fun n _ => ⟨fun _ _ _ _ => List.not_mem_nil, trivial⟩
  · intro h
    have hnew := (everyState_numbered_iff "localhost" 8332 _).mp h
    obtain ⟨hsecond, -⟩ := (hnew _ rfl).2 _ rfl
    exact hsecond addBob ⟨"bob", 8333⟩ rfl rfl (List.mem_singleton_self _)

end BuenzliCoin
