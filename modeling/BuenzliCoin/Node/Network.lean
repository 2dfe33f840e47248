-- SUMMARY: Nodes that exchange blocks and chains, and the single writer whose chain all others follow.
import BuenzliCoin.Lib.LogReplication
import BuenzliCoin.Node.Validity

/-!
# Networks

Any number of nodes with a medium between them. What has once been sent stays in
the medium, so a message may arrive in any order, any number of times, or never.
The medium knows no addresses: whatever arrives somewhere may arrive anywhere.
Likewise, what a handler has detached may run at any later time, and again.
-/

namespace BuenzliCoin

open NodeData Relation LogReplication

/-- A build in which linking block data leaves its JSON form alone. -/
class ReplicatedData (T : Type) [NodeData T] extends StoredData T where
  stored_link : ∀ (m : NodeData.Members T) (d : T), stored (NodeData.link m d) = stored d

instance : ReplicatedData Text where
  stored_link _ _ := rfl

instance : ReplicatedData TransactionList where
  stored_link m ts := by
    simp only [StoredData.stored, NodeData.link, TransactionMembers.link, List.map_map]
    rfl

/-- What nodes send each other. Broadcasts of the latest block and replies to
    `request_latest_block` are served by the same handler. -/
inductive Message where
  | requestLatestBlock
  | requestAllBlocks
  | latestBlock (data : Json)
  | allBlocks (data : Json)

structure Network (ι T : Type) [NodeData T] where
  nodes : ι → Node T
  /-- What the handlers of each node have detached so far. -/
  tasks : Set (ι × Task)
  /-- What has been sent so far. -/
  messages : Set Message

/-- `request["data"]` in `broadcast_latest_block`. -/
def Node.latestBlockMessage {T : Type} [NodeData T] (n : Node T) : Option Json :=
  n.blockchain.latestBlock?.map fun b => .object [("block", b.toJson), ("origin", n.origin)]

/-- A call that no message of another node brings about. Only the writer gets
    `POST /blocks`. -/
def Node.Call.Outside {T : Type} [NodeData T] (writer : Prop) : Node.Call T → Prop
  | .blocksPost _ _ => writer
  | .receiveLatestBlock _ _ | .receiveAllBlocks _ => False
  | _ => True

/-! ## Messages and what they hold -/

/-- A message with the block that is the latest of the node. -/
def HoldsLatest {T : Type} [NodeData T] (n : Node T) (data : Json) : Prop :=
  ∃ b, n.blockchain.latestBlock? = some b ∧ data.find? "block" = some b.toJson

theorem holdsLatest_of_latestBlockMessage {T : Type} [NodeData T] {n : Node T} {data : Json}
    (h : n.latestBlockMessage = some data) : HoldsLatest n data := by
  obtain ⟨b, hb, rfl⟩ := Option.map_eq_some_iff.mp h
  exact ⟨b, hb, rfl⟩

theorem holdsLatest_of_handleRequestLatestBlock {T : Type} [NodeData T] {n : Node T} {data : Json}
    (h : n.handleRequestLatestBlock.answer = .ok data) : HoldsLatest n data := by
  unfold Node.handleRequestLatestBlock at h
  cases hlatest : n.blockchain.latestBlock? with
  | none =>
    rw [hlatest] at h
    cases h
  | some b =>
    rw [hlatest] at h
    cases h
    exact ⟨b, hlatest, rfl⟩

namespace Network

/-! ## Networks and their steps -/

variable {ι T : Type} [NodeData T]

section

variable [Env]

/-- Nodes that have just started. -/
def init (host : ι → String) (port : ι → UInt16) : Network ι T where
  nodes i := .new (host i) (port i)
  tasks := ∅
  messages := ∅

end

def send (net : Network ι T) (message : Message) : Network ι T :=
  { net with messages := insert message net.messages }

variable [DecidableEq ι]

/-- The network after a call at node `i`. -/
def after (net : Network ι T) (i : ι) (reply : Reply T) : Network ι T :=
  { net with
    nodes := Function.update net.nodes i reply.node
    tasks := net.tasks ∪ {task | task.1 = i ∧ task.2 ∈ reply.tasks} }

@[simp] theorem after_nodes_self (net : Network ι T) (i : ι) (reply : Reply T) :
    (net.after i reply).nodes i = reply.node := Function.update_self ..

theorem after_nodes_of_ne (net : Network ι T) {i j : ι} (h : j ≠ i) (reply : Reply T) :
    (net.after i reply).nodes j = net.nodes j := Function.update_of_ne h ..

variable [Env]

/-- One thing that happens in a network: a call from outside, a detached task, a
    request that is answered, or a message that arrives. -/
inductive Step (writer : ι) (net : Network ι T) : Network ι T → Prop where
  | call {i : ι} {clock : Clock} {call : Node.Call T} {reply : Reply T}
      (handled : (net.nodes i).handle clock call = some reply)
      (outside : call.Outside (i = writer)) :
      Step writer net (net.after i reply)
  | broadcastLatestBlock {i : ι} {data : Json} (task : (i, Task.broadcastLatestBlock) ∈ net.tasks)
      (formed : (net.nodes i).latestBlockMessage = some data) :
      Step writer net (net.send (.latestBlock data))
  | requestLatestBlock {i : ι} {peerId : Nat}
      (task : (i, Task.requestLatestBlock peerId) ∈ net.tasks) :
      Step writer net (net.send .requestLatestBlock)
  | requestAllBlocks {i : ι} {peerId : Nat}
      (task : (i, Task.requestAllBlocks peerId) ∈ net.tasks) :
      Step writer net (net.send .requestAllBlocks)
  | serveLatestBlock {i : ι} {data : Json} (sent : .requestLatestBlock ∈ net.messages)
      (answer : (net.nodes i).handleRequestLatestBlock.answer = .ok data) :
      Step writer net (net.send (.latestBlock data))
  | serveAllBlocks {i : ι} {data : Json} (sent : .requestAllBlocks ∈ net.messages)
      (answer : (net.nodes i).handleRequestAllBlocks.answer = .ok data) :
      Step writer net (net.send (.allBlocks data))
  | receiveLatestBlock {i : ι} {data : Json} {clock : Clock} {connection : Except String Unit}
      {reply : Reply T} (sent : .latestBlock data ∈ net.messages)
      (handled : (net.nodes i).handle clock (.receiveLatestBlock data connection) = some reply) :
      Step writer net (net.after i reply)
  | receiveAllBlocks {i : ι} {data : Json} {clock : Clock} {reply : Reply T}
      (sent : .allBlocks data ∈ net.messages)
      (handled : (net.nodes i).handle clock (.receiveAllBlocks data) = some reply) :
      Step writer net (net.after i reply)

/-- The networks that can come about when all nodes start with empty chains. -/
def Reachable (writer : ι) (net : Network ι T) : Prop :=
  ∃ host port, ReflTransGen (Step writer) (init host port) net

/-! ## Networks as replicated logs -/

variable [ReplicatedData T]

/-- The system of logs that a network amounts to: the log of a node is its chain,
    snapshots aside, and the messages that hold blocks hold published entries
    and replicas. -/
structure Represents (net : Network ι T) (sys : System ι (Block T)) : Prop where
  replicas : ∀ i, sys.replicas i = (net.nodes i).blockchain.blocks.map Block.stored
  numbered : ∀ i, Blockchain.Numbered (net.nodes i).blockchain.blocks
  latestBlock : ∀ data, .latestBlock data ∈ net.messages →
    ∃ b : Block T, data.find? "block" = some b.toJson ∧ (b.index.toNat, b.stored) ∈ sys.entries
  allBlocks : ∀ data, .allBlocks data ∈ net.messages →
    ∃ bs : List (Block T), data.find? "blockchain" = some (.array (bs.map Block.toJson)) ∧
      bs.map Block.stored ∈ sys.snapshots

omit [DecidableEq ι] in
theorem represents_init (host : ι → String) (port : ι → UInt16) :
    Represents (init host port : Network ι T) .empty where
  replicas _ := rfl
  numbered _ := Blockchain.numbered_nil
  latestBlock _ h := absurd h (Set.notMem_empty _)
  allBlocks _ h := absurd h (Set.notMem_empty _)

variable {net net' : Network ι T} {sys : System ι (Block T)}

theorem Represents.after (h : Represents net sys) {i : ι} {reply : Reply T}
    (hnumbered : Blockchain.Numbered reply.node.blockchain.blocks) :
    Represents (net.after i reply)
      (sys.set i (reply.node.blockchain.blocks.map Block.stored)) := by
  refine ⟨?_, ?_, h.latestBlock, h.allBlocks⟩
  · intro j
    by_cases hj : j = i
    · subst hj
      rw [System.set_replicas_self, after_nodes_self]
    · rw [sys.set_replicas_of_ne hj, net.after_nodes_of_ne hj]
      exact h.replicas j
  · intro j
    by_cases hj : j = i
    · subst hj
      rw [after_nodes_self]
      exact hnumbered
    · rw [net.after_nodes_of_ne hj]
      exact h.numbered j

/-- A call that leaves the blocks alone leaves the logs alone. -/
theorem Represents.after_same (h : Represents net sys) {i : ι} {reply : Reply T}
    (hblocks : reply.node.blockchain.blocks = (net.nodes i).blockchain.blocks) :
    Represents (net.after i reply) sys := by
  have hnumbered : Blockchain.Numbered reply.node.blockchain.blocks := hblocks ▸ h.numbered i
  have hafter := h.after (i := i) hnumbered
  rwa [hblocks, ← h.replicas, System.set_self] at hafter

omit [DecidableEq ι] in
theorem Represents.send_request (h : Represents net sys) {message : Message}
    (hlatest : ∀ data, message ≠ .latestBlock data) (hall : ∀ data, message ≠ .allBlocks data) :
    Represents (net.send message) sys := by
  refine ⟨h.replicas, h.numbered, ?_, ?_⟩
  · intro data hdata
    rcases Set.mem_insert_iff.mp hdata with heq | hdata
    · exact absurd heq.symm (hlatest data)
    · exact h.latestBlock data hdata
  · intro data hdata
    rcases Set.mem_insert_iff.mp hdata with heq | hdata
    · exact absurd heq.symm (hall data)
    · exact h.allBlocks data hdata

/-- Sending the latest block publishes the last entry of a log. -/
theorem Represents.send_latestBlock (h : Represents net sys) {w i : ι} {data : Json}
    (hdata : HoldsLatest (net.nodes i) data) :
    ∃ sys', LogReplication.Step w sys sys' ∧ Represents (net.send (.latestBlock data)) sys' := by
  obtain ⟨b, hlatest, hblock⟩ := hdata
  have hentry : (sys.replicas i)[b.index.toNat]? = some b.stored := by
    rw [Blockchain.latestBlock?, List.getLast?_eq_getElem?] at hlatest
    obtain ⟨hk, rfl⟩ := List.getElem?_eq_some_iff.mp hlatest
    rw [(h.numbered i).index _ hk, h.replicas i, List.getElem?_map, List.getElem?_eq_getElem hk]
    rfl
  refine ⟨_, .publishEntry hentry, h.replicas, h.numbered, ?_, ?_⟩
  · intro data' hdata'
    rcases Set.mem_insert_iff.mp hdata' with heq | hdata'
    · cases heq
      exact ⟨b, hblock, Set.mem_insert ..⟩
    · obtain ⟨b', hblock', hpublished⟩ := h.latestBlock data' hdata'
      exact ⟨b', hblock', Set.mem_insert_of_mem _ hpublished⟩
  · intro data' hdata'
    rcases Set.mem_insert_iff.mp hdata' with heq | hdata'
    · cases heq
    · exact h.allBlocks data' hdata'

/-- Sending the chain publishes the replica. -/
theorem Represents.send_allBlocks (h : Represents net sys) {w i : ι} {data : Json}
    (hdata : (net.nodes i).handleRequestAllBlocks.answer = .ok data) :
    ∃ sys', LogReplication.Step w sys sys' ∧ Represents (net.send (.allBlocks data)) sys' := by
  cases hdata
  refine ⟨_, .publishSnapshot i, h.replicas, h.numbered, ?_, ?_⟩
  · intro data' hdata'
    rcases Set.mem_insert_iff.mp hdata' with heq | hdata'
    · cases heq
    · exact h.latestBlock data' hdata'
  · intro data' hdata'
    rcases Set.mem_insert_iff.mp hdata' with heq | hdata'
    · cases heq
      refine ⟨(net.nodes i).blockchain.blocks, rfl, Set.mem_insert_iff.mpr (.inl ?_)⟩
      exact (h.replicas i).symm
    · obtain ⟨bs, hbs, hpublished⟩ := h.allBlocks data' hdata'
      exact ⟨bs, hbs, Set.mem_insert_of_mem _ hpublished⟩

omit [DecidableEq ι] in
/-- A block that arrives was published. -/
theorem Represents.mem_entries (h : Represents net sys) {i : ι} {data : Json} {b : Block T}
    (hsent : .latestBlock data ∈ net.messages) (hb : (net.nodes i).receivedBlock data = .ok b) :
    (b.index.toNat, b.stored) ∈ sys.entries := by
  obtain ⟨sent, hsentBlock, hpublished⟩ := h.latestBlock data hsent
  obtain ⟨j, read, hj, hread, rfl⟩ := Node.receivedBlock_eq_ok.mp hb
  rw [hsentBlock] at hj
  cases hj
  rw [Block.fromJson_toJson] at hread
  cases hread
  have hstored :
      Block.stored { sent.stored with data := link (net.nodes i).members sent.stored.data } =
        sent.stored := by
    unfold Block.stored
    rw [ReplicatedData.stored_link, StoredData.stored_stored]
  rw [hstored]
  exact hpublished

omit [DecidableEq ι] in
/-- A chain that arrives was published. -/
theorem Represents.mem_snapshots (h : Represents net sys) {data : Json} {clock : Clock}
    {bc : Blockchain T} (hsent : .allBlocks data ∈ net.messages)
    (hbc : Node.receivedChain data clock = .ok bc) :
    bc.blocks.map Block.stored ∈ sys.snapshots := by
  obtain ⟨bs, hbs, hpublished⟩ := h.allBlocks data hsent
  obtain ⟨j, hj, hdecoded, -⟩ := Node.receivedChain_eq_ok.mp hbc
  rw [hbs] at hj
  cases hj
  have hblocks : bc.blocks = bs.map Block.stored := by
    have hread := Blockchain.fromJson_blocks hdecoded
    rw [Json.items, Blockchain.mapM_fromJson_toJson] at hread
    exact (Except.ok.inj hread).symm
  have hstored : bc.blocks.map Block.stored = bs.map Block.stored := by
    rw [hblocks, List.map_map]
    exact List.map_congr_left fun b _ => b.stored_stored
  rw [hstored]
  exact hpublished

/-- Every step of a network is a step of the logs, if it changes them at all. -/
theorem Represents.step (h : Represents net sys) {w : ι} (hpow : ¬ Env.proofOfWork)
    (hstep : Step w net net') :
    ∃ sys', ReflTransGen (LogReplication.Step w) sys sys' ∧ Represents net' sys' := by
  cases hstep with
  | @call i clock call reply hhandle houtside =>
    have hchain := Node.handle_chainStep hhandle
    have hnumbered := hchain.numbered (h.numbered i)
    have hafter := h.after (i := i) hnumbered
    generalize hbc : reply.node.blockchain = bc at hchain hafter
    cases hchain with
    | kept hblocks hsame => exact ⟨sys, .refl, h.after_same (hbc ▸ hblocks)⟩
    | @constructed data fuel d b bc hconstructed =>
      cases houtside
      refine ⟨_, .single (.write b.stored), ?_⟩
      rw [hconstructed.blocks, List.map_append, ← h.replicas] at hafter
      exact hafter
    | appended hjudged hstep => exact houtside.elim
    | replaced hreceived hexceeds => exact houtside.elim
  | broadcastLatestBlock htask hformed =>
    obtain ⟨sys', hlog, hsys'⟩ := h.send_latestBlock (holdsLatest_of_latestBlockMessage hformed)
    exact ⟨sys', .single hlog, hsys'⟩
  | requestLatestBlock htask => exact ⟨sys, .refl, h.send_request nofun nofun⟩
  | requestAllBlocks htask => exact ⟨sys, .refl, h.send_request nofun nofun⟩
  | serveLatestBlock hsent hanswer =>
    obtain ⟨sys', hlog, hsys'⟩ :=
      h.send_latestBlock (holdsLatest_of_handleRequestLatestBlock hanswer)
    exact ⟨sys', .single hlog, hsys'⟩
  | serveAllBlocks hsent hanswer =>
    obtain ⟨sys', hlog, hsys'⟩ := h.send_allBlocks hanswer
    exact ⟨sys', .single hlog, hsys'⟩
  | @receiveLatestBlock i data clock connection reply hsent hhandle =>
    have hchain := Node.handle_chainStep hhandle
    have hafter := h.after (i := i) (hchain.numbered (h.numbered i))
    generalize hbc : reply.node.blockchain = bc at hchain hafter
    cases hchain with
    | kept hblocks hsame => exact ⟨sys, .refl, h.after_same (hbc ▸ hblocks)⟩
    | @appended _ _ b bc hjudged happended =>
      obtain ⟨hreceived, -, hindex, -⟩ := Node.judge_append hjudged
      have hentry : ((sys.replicas i).length, b.stored) ∈ sys.entries := by
        rw [h.replicas, List.length_map, ← Blockchain.length, ← hindex]
        exact h.mem_entries hsent hreceived
      refine ⟨_, .single (.append hentry), ?_⟩
      rw [happended.blocks, List.map_append, ← h.replicas] at hafter
      exact hafter
  | @receiveAllBlocks i data clock reply hsent hhandle =>
    have hchain := Node.handle_chainStep hhandle
    have hafter := h.after (i := i) (hchain.numbered (h.numbered i))
    generalize hbc : reply.node.blockchain = bc at hchain hafter
    cases hchain with
    | kept hblocks hsame => exact ⟨sys, .refl, h.after_same (hbc ▸ hblocks)⟩
    | @replaced _ bc hreceived hexceeds =>
      have hlonger : (sys.replicas i).length < (bc.blocks.map Block.stored).length := by
        rw [h.replicas, List.length_map, List.length_map]
        exact Blockchain.length_lt_of_exceeds hpow hexceeds
      exact ⟨_, .single (.adopt (h.mem_snapshots hsent hreceived) hlonger), hafter⟩

theorem Reachable.represents {w : ι} (hpow : ¬ Env.proofOfWork) (hnet : Reachable w net) :
    ∃ sys, ReflTransGen (LogReplication.Step w) .empty sys ∧ Represents net sys := by
  obtain ⟨host, port, hrun⟩ := hnet
  induction hrun with
  | refl => exact ⟨.empty, .refl, represents_init host port⟩
  | tail _ hlast ih =>
    obtain ⟨sys, hlogs, hsys⟩ := ih
    obtain ⟨sys', hlog, hsys'⟩ := hsys.step hpow hlast
    exact ⟨sys', hlogs.trans hlog, hsys'⟩

/-- However messages are reordered, repeated and lost, the chain of every node
    is a prefix of the writer's. -/
theorem Reachable.chain_prefix {w : ι} (hpow : ¬ Env.proofOfWork) (hnet : Reachable w net) (i : ι) :
    (net.nodes i).blockchain.blocks.map Block.stored <+:
      (net.nodes w).blockchain.blocks.map Block.stored := by
  obtain ⟨sys, hlogs, hsys⟩ := hnet.represents hpow
  rw [← hsys.replicas, ← hsys.replicas]
  exact replicas_prefix hlogs i

end Network

/-! ## One block on its way -/

/-- The block of a node that is asked for one with the text "first" at the epoch. -/
def firstBlock : Block Text :=
  letI := plainBuild
  Blockchain.new.nextBlock ⟨"first"⟩ 0

def firstMessage : Json :=
  letI := plainBuild
  .object [("block", firstBlock.toJson), ("origin", (Node.new "localhost" 8332 : Node Text).origin)]

def afterFirst : Node Text where
  host := "localhost"
  port := 8332
  blockchain :=
    letI := plainBuild
    ⟨[firstBlock], .fresh⟩
  members := ()
  peers := []

theorem Node.handle_postFirst :
    letI := plainBuild
    (Node.new "localhost" 8332 : Node Text).handle .epoch
      (.blocksPost (.string "first") 0) =
        some ⟨afterFirst, .ok .null, [.broadcastLatestBlock]⟩ := by
  let env := plainBuild
  have hhandle : (Node.new "localhost" 8332 : Node Text).handle .epoch
      (.blocksPost (.string "first") 0) = some _ :=
    Node.handleBlocksPost_of_valid (by decide) rfl rfl rfl (by decide) (by decide)
  exact hhandle

theorem Node.handle_receiveFirst :
    letI := plainBuild
    (Node.new "localhost" 8332 : Node Text).handle .epoch
      (.receiveLatestBlock firstMessage (.ok ())) = some ⟨afterFirst, .ok .null, []⟩ := by
  let env := plainBuild
  have hreceived : (Node.new "localhost" 8332 : Node Text).receivedBlock firstMessage =
      .ok firstBlock :=
    Node.receivedBlock_eq_ok.mpr ⟨_, _, rfl, firstBlock.fromJson_toJson, rfl⟩
  have hvalid : firstBlock.valid 0 = .ok () :=
    Block.valid_eq_ok.mpr ⟨rfl, by decide, Blockchain.nextBlock_hash ..⟩
  have hadjoins : (Node.new "localhost" 8332 : Node Text).adjoins firstBlock :=
    Node.adjoins_iff.mpr ⟨fun _ => Block.isGenesis_iff.mpr ⟨rfl, rfl⟩, nofun⟩
  have hhandle : (Node.new "localhost" 8332 : Node Text).handle .epoch
      (.receiveLatestBlock firstMessage (.ok ())) = some _ :=
    Node.handleReceiveLatestBlock_of_valid (by decide) hreceived (fun _ => hvalid) rfl hadjoins
      (by decide) rfl
  exact hhandle

/-- A block that the writer broadcasts reaches the other node. -/
theorem Network.Reachable.chain_prefix_two_nodes :
    letI := plainBuild
    ∃ net : Network Bool Text,
      Reachable true net ∧ (∀ i, (net.nodes i).blockchain.length = 1) ∧
      ∀ i, (net.nodes i).blockchain.blocks.map Block.stored <+:
        (net.nodes true).blockchain.blocks.map Block.stored := by
  let env := plainBuild
  let start : Network Bool Text := Network.init (fun _ => "localhost") fun _ => 8332
  let posted := start.after true ⟨afterFirst, .ok .null, [.broadcastLatestBlock]⟩
  have hpost : Network.Step true start posted := .call Node.handle_postFirst rfl
  have hsend : Network.Step true posted (posted.send (.latestBlock firstMessage)) :=
    .broadcastLatestBlock (i := true) (.inr ⟨rfl, List.mem_singleton_self _⟩) rfl
  have hreceive : Network.Step true (posted.send (.latestBlock firstMessage)) _ :=
    .receiveLatestBlock (i := false) (Set.mem_insert ..) Node.handle_receiveFirst
  have hrun : Network.Reachable true _ :=
    ⟨_, _, ((ReflTransGen.single hpost).tail hsend).tail hreceive⟩
  refine ⟨_, hrun, ?_, Network.Reachable.chain_prefix (by decide) hrun⟩
  rintro (_ | _) <;> rfl

end BuenzliCoin
