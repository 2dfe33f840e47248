-- SUMMARY: The node: its state, and its HTTP and WebSocket handlers for any kind of block data.
import BuenzliCoin.Chain.Blockchain
import BuenzliCoin.Ledger.Transaction
import BuenzliCoin.Lib.Except

/-!
# Nodes

A build with `TRANSACTIONS` and one without it share the handlers of this file.
What `#ifdef TRANSACTIONS` adds to them, or puts in place of other code, is
collected in the class `NodeData`, one field for each such piece of code.
-/

namespace BuenzliCoin

structure WebSocketPeer where
  host : String
  port : UInt16
  deriving DecidableEq, Repr

abbrev WebSocketPeers := List WebSocketPeer

namespace WebSocketPeers

/-- The 1-based position of the first such peer, or 0. -/
def find (peers : WebSocketPeers) (host : String) (port : UInt16) : Nat :=
  match peers.findIdx? (· = ⟨host, port⟩) with
  | some i => i + 1
  | none => 0

/-- `add(host, port)`, where `connection` is how opening the connection goes. -/
def add (peers : WebSocketPeers) (host : String) (port : UInt16) (connection : Except String Unit) :
    Except Error (Nat × WebSocketPeers) :=
  match connection with
  | .error e => .error (.exception e)
  | .ok () => .ok (peers.length + 1, peers ++ [⟨host, port⟩])

def toJson : WebSocketPeers → Json
  | [] => .null
  | peers => .array (peers.map fun peer => .string (peer.host ++ ":" ++ toString peer.port))

end WebSocketPeers

/-- What a handler sets going besides its answer. -/
inductive Task where
  | broadcastLatestBlock
  | requestLatestBlock (peerId : Nat)
  | requestAllBlocks (peerId : Nat)
  | broadcastTransaction (t : Transaction)

/-- The parts of the node that depend on `TRANSACTIONS`. -/
class NodeData (T : Type) extends BlockData T where
  /-- The members declared under `#ifdef TRANSACTIONS`. -/
  Members : Type
  /-- The requests that only handlers under `#ifdef TRANSACTIONS` serve. -/
  Request : Type
  /-- These members before `blockchain_setup`. -/
  initial : Members
  /-- `blockchain_setup`, from the data of all blocks. Here and below, `none` if a
      loop is not defined. -/
  setup : List T → Option Members
  /-- `handle_blocks_post` up to `construct_next_block`, for a chain of the given
      length. -/
  assemble : [Env] → Members → Nat → Json → Except Error T × Members
  /-- `handle_blocks_post` after `construct_next_block`. -/
  mined : Members → T → Option Members
  /-- `handle_receive_latest_block` between decoding and validation. -/
  link : Members → T → T
  /-- `handle_receive_latest_block` after its `try` block. -/
  received : Members → T → Option Members
  serve : [Env] → Members → List T → Request → Members × Except Error Json × List Task

open NodeData

structure Node (T : Type) [NodeData T] where
  host : String
  port : UInt16
  blockchain : Blockchain T
  members : Members T
  peers : WebSocketPeers

/-- A handler call that is over: the node it leaves, whether it returned or threw,
    and what it has set going. -/
structure Reply (T : Type) [NodeData T] where
  node : Node T
  answer : Except Error Json
  tasks : List Task := []

namespace Node

variable {T : Type} [NodeData T] [Env]

/-- `Node(...)` with an empty chain, for which `blockchain_setup` does nothing. -/
def new (host : String) (port : UInt16) : Node T where
  host
  port
  blockchain := .new
  members := initial
  peers := []

omit [Env] in
/-- `answer["origin"]` -/
def origin (n : Node T) : Json :=
  .object [("host", .string n.host), ("port", .numberUnsigned n.port.toUInt64)]

/-! ## HTTP -/

omit [Env] in
def handleBlocksGet (n : Node T) : Reply T := { node := n, answer := .ok n.blockchain.toJson }

omit [Env] in
def handleBlocksLatestGet (n : Node T) : Reply T where
  node := n
  answer := .ok <|
    match n.blockchain.latestBlock? with
    | some b => b.toJson
    | none => .null

/-- The error text that the handlers wrap around the one of the exception. -/
def malformed (request : String) (data : Json) (what : String) : String :=
  s!"Malformed '{request}' request: '{data.dump}': {what}"

def handleBlocksPost (n : Node T) (data : Json) (clock : Clock) (fuel : Nat) : Option (Reply T) :=
  let wrap what := Error.http 400 (malformed "POST /blocks" data what)
  match assemble n.members n.blockchain.length data with
  | (.error e, members) =>
    some { node := { n with members }, answer := Error.rethrow wrap (.error e) }
  | (.ok d, members) =>
    match n.blockchain.constructNextBlock d clock fuel with
    | none => none
    | some (.error e, blockchain) =>
      some { node := { n with blockchain, members }, answer := Error.rethrow wrap (.error e) }
    | some (.ok (), blockchain) => do
      return {
        node := { n with blockchain, members := ← mined members d }
        answer := .ok .null
        tasks := [.broadcastLatestBlock] }

/-- `file` is how opening and writing the file goes. -/
def handleBlocksPersistPost (n : Node T) (data : Json) (file : Except String Unit) : Reply T where
  node := n
  answer := Error.rethrow (fun what => .http 400 (malformed "POST /blocks/persist" data what)) do
    let _ ← (← data.atKey "file").getString
    match file with
    | .error e => .error (.exception e)
    | .ok () => .ok .null

omit [Env] in
def handlePeersGet (n : Node T) : Reply T := { node := n, answer := .ok n.peers.toJson }

/-- The host and port in the request. -/
def requestedPeer (data : Json) : Except Error (String × UInt16) :=
  Error.rethrow (fun what => .http 400 (malformed "POST /peers" data what)) do
    let host ← (← data.atKey "host").getString
    let port ← (← data.atKey "port").getUInt16
    return (host, port)

/-- `add` stands outside of the `try` block. -/
def handlePeersPost (n : Node T) (data : Json) (connection : Except String Unit) : Reply T :=
  match requestedPeer data >>= fun (host, port) => n.peers.add host port connection with
  | .error e => { node := n, answer := .error e }
  | .ok (peerId, peers) =>
    { node := { n with peers }, answer := .ok .null, tasks := [.requestLatestBlock peerId] }

/-! ## WebSocket -/

omit [Env] in
def handleRequestLatestBlock (n : Node T) : Reply T where
  node := n
  answer :=
    match n.blockchain.latestBlock? with
    | none => .error (.webSocket "Blockchain is empty")
    | some b => .ok (.object [("block", b.toJson), ("origin", n.origin)])

omit [Env] in
def handleRequestAllBlocks (n : Node T) : Reply T where
  node := n
  answer := .ok (.object [("blockchain", n.blockchain.toJson), ("origin", n.origin)])

/-- How `handle_receive_latest_block` goes on with a block that is valid. -/
inductive Verdict (T : Type) where
  | requestAll (b : Block T) (peerId : Nat) (peers : WebSocketPeers)
  | append (b : Block T)
  | ignore

omit [Env] in
/-- The block in the message, linked to the unspent outputs of the node. -/
def receivedBlock (n : Node T) (data : Json) : Except Error (Block T) := do
  let b ← Block.fromJson (← data.atKey "block")
  return { b with data := link n.members b.data }

/-- The branch for a block that does not stand next to the chain. -/
def requestFrom (n : Node T) (data : Json) (connection : Except String Unit) :
    Except Error (Nat × WebSocketPeers) := do
  let (host, port) ← Error.rethrow
    (fun what => .webSocket s!"Malformed 'receive_latest_block' request: '{data.dump}'{what}") do
      let host ← (← (← data.atKey "origin").atKey "host").getString
      let port ← (← (← data.atKey "origin").atKey "port").getUInt16
      return (host, port)
  let peerId := n.peers.find host port
  if peerId = 0 then n.peers.add host port connection
  else return (peerId, n.peers)

/-- The condition under which a block whose index is the length of the chain is
    appended. -/
def adjoins (n : Node T) (b : Block T) : Bool :=
  match n.blockchain.latestBlock? with
  | none => b.isGenesis
  | some last => b.isSuccessorOf last

/-- The `try` block up to the call of `append_next_block`. -/
def judge (n : Node T) (data : Json) (clock : Clock) (connection : Except String Unit) :
    Except Error (Verdict T) := do
  let b ← n.receivedBlock data
  match b.valid (clock 0) with
  | .error e => .error (.webSocket s!"Invalid block: '{b.toJson.dump}': {e}")
  | .ok () =>
    if b.index.toNat > n.blockchain.length then do
      let (peerId, peers) ← n.requestFrom data connection
      return .requestAll b peerId peers
    else if b.index.toNat = n.blockchain.length then
      .ok (if n.adjoins b then .append b else .ignore)
    else .ok .ignore

/-- The branch that asks for the whole chain does not return: like the branch
    that appends, it goes on to the code after the `try` block. -/
def handleReceiveLatestBlock (n : Node T) (data : Json) (clock : Clock)
    (connection : Except String Unit) : Option (Reply T) :=
  let wrap what := Error.webSocket (malformed "receive_latest_block" data what)
  match n.judge data clock connection with
  | .error e => some { node := n, answer := Error.rethrow wrap (.error e) }
  | .ok .ignore => some { node := n, answer := .ok .null }
  | .ok (.requestAll b peerId peers) => do
    return {
      node := { n with peers, members := ← received n.members b.data }
      answer := .ok .null
      tasks := [.requestAllBlocks peerId] }
  | .ok (.append b) =>
    match n.blockchain.appendNextBlock b (clock 1) with
    | (.error .crash, _) => none
    | (.error e, blockchain) =>
      some { node := { n with blockchain }, answer := Error.rethrow wrap (.error e) }
    | (.ok (), blockchain) => do
      return {
        node := { n with blockchain, members := ← received n.members b.data }
        answer := .ok .null }

/-- The chain in the message, if it decodes and is valid. -/
def receivedChain (data : Json) (clock : Clock) : Except Error (Blockchain T) := do
  let bc ← Blockchain.fromJson (← data.atKey "blockchain") clock
  match bc.valid (clock.drop bc.length) with
  | .error e => .error (.webSocket s!"Invalid blockchain: '{bc.toJson.dump}': {e}")
  | .ok () => .ok bc

def handleReceiveAllBlocks (n : Node T) (data : Json) (clock : Clock) : Option (Reply T) :=
  let wrap what := Error.webSocket (malformed "receive_all_blocks" data what)
  match receivedChain data clock with
  | .error .crash => none
  | .error e => some { node := n, answer := Error.rethrow wrap (.error e) }
  | .ok bc => do
    if ← bc.exceeds n.blockchain then
      return {
        node := { n with blockchain := bc, members := ← setup (bc.blocks.map Block.data) }
        answer := .ok .null }
    else return { node := n, answer := .ok .null }

/-! ## Calls -/

/-- One call of a handler, with what it is passed and how the operations that
    leave the process go. -/
inductive Call (T : Type) [NodeData T] where
  | blocksGet
  | blocksLatestGet
  | blocksPost (data : Json) (fuel : Nat)
  | blocksPersistPost (data : Json) (file : Except String Unit)
  | peersGet
  | peersPost (data : Json) (connection : Except String Unit)
  | requestLatestBlock
  | requestAllBlocks
  | receiveLatestBlock (data : Json) (connection : Except String Unit)
  | receiveAllBlocks (data : Json)
  | other (request : Request T)

/-- `none` if the call is `POST /blocks` and its mining loop has not exited, or if
    something that the call does is not defined: an adjuster traps, a cumulative
    difficulty cannot be cast, or a loop that erases goes wrong. -/
def handle (n : Node T) (clock : Clock) : Call T → Option (Reply T)
  | .blocksGet => some n.handleBlocksGet
  | .blocksLatestGet => some n.handleBlocksLatestGet
  | .blocksPost data fuel => n.handleBlocksPost data clock fuel
  | .blocksPersistPost data file => some (n.handleBlocksPersistPost data file)
  | .peersGet => some n.handlePeersGet
  | .peersPost data connection => some (n.handlePeersPost data connection)
  | .requestLatestBlock => some n.handleRequestLatestBlock
  | .requestAllBlocks => some n.handleRequestAllBlocks
  | .receiveLatestBlock data connection => n.handleReceiveLatestBlock data clock connection
  | .receiveAllBlocks data => n.handleReceiveAllBlocks data clock
  | .other request =>
    let (members, answer, tasks) := serve n.members (n.blockchain.blocks.map Block.data) request
    some { node := { n with members }, answer, tasks }

end Node

end BuenzliCoin
