-- SUMMARY: When a node heeds the latest block of a node with a longer chain.
import BuenzliCoin.Node.Network

namespace BuenzliCoin

open NodeData

-- ---------------------------------------------------------------------------
-- Peers
-- ---------------------------------------------------------------------------

namespace WebSocketPeers

/-- The peer that an identifier stands for. -/
def get? (peers : WebSocketPeers) (peerId : Nat) : Option WebSocketPeer :=
  if peerId = 0 then none else peers[peerId - 1]?

theorem get?_find {peers : WebSocketPeers} {host : String} {port : UInt16}
    (h : peers.find host port ≠ 0) : peers.get? (peers.find host port) = some ⟨host, port⟩ := by
  unfold find at h ⊢
  cases hfound : peers.findIdx? (· = ⟨host, port⟩) with
  | none =>
    rw [hfound] at h
    exact absurd rfl h
  | some i =>
    obtain ⟨hi, hpeer, -⟩ := List.findIdx?_eq_some_iff_getElem.mp hfound
    simp only [get?, Nat.add_sub_cancel, Nat.succ_ne_zero, if_false, List.getElem?_eq_getElem hi]
    exact congrArg some (of_decide_eq_true hpeer)

theorem get?_add {peers peers' : WebSocketPeers} {host : String} {port : UInt16} {peerId : Nat}
    {connection : Except String Unit}
    (h : peers.add host port connection = .ok (peerId, peers')) :
    peers'.get? peerId = some ⟨host, port⟩ := by
  unfold add at h
  cases connection with
  | error e => cases h
  | ok _ =>
    cases h
    simp [get?]

end WebSocketPeers

-- ---------------------------------------------------------------------------
-- Origins
-- ---------------------------------------------------------------------------

namespace Node

variable {T : Type} [NodeData T] [Env]

/-- What comes of a message that names its origin: a peer there, or the error of
    the connection that could not be opened. -/
theorem requestFrom_origin (n m : Node T) {data : Json} (connection : Except String Unit)
    (horigin : data.find? "origin" = some m.origin) :
    (∃ peerId peers, n.requestFrom data connection = .ok (peerId, peers) ∧
      WebSocketPeers.get? peers peerId = some ⟨m.host, m.port⟩) ∨
    ∃ e, connection = .error e ∧ n.requestFrom data connection = .error (.exception e) := by
  have hread : n.requestFrom data connection =
      if n.peers.find m.host m.port = 0 then n.peers.add m.host m.port connection
      else .ok (n.peers.find m.host m.port, n.peers) := by
    simp only [requestFrom, Json.atKey_eq_ok.mpr horigin, bind, Except.bind, pure, Except.pure]
    simp [origin, Json.atKey, Json.getString, Json.getUInt16, List.lookup_cons]
  rw [hread]
  by_cases hfind : n.peers.find m.host m.port = 0
  · rw [if_pos hfind]
    cases hadd : n.peers.add m.host m.port connection with
    | ok r =>
      obtain ⟨peerId, peers⟩ := r
      exact .inl ⟨peerId, peers, rfl, WebSocketPeers.get?_add hadd⟩
    | error e =>
      cases connection with
      | error e' =>
        cases hadd
        exact .inr ⟨e', rfl, rfl⟩
      | ok _ => cases hadd
  · rw [if_neg hfind]
    exact .inl ⟨_, _, rfl, WebSocketPeers.get?_find hfind⟩

-- ---------------------------------------------------------------------------
-- Announcements
-- ---------------------------------------------------------------------------

omit [Env] in
/-- `x` has appended the latest block of `y`, or it goes on to ask `y` for all of
    its blocks. -/
inductive Heeds (x y : Node T) (reply : Reply T) : Prop where
  | appended {b : Block T} (latest : y.blockchain.latestBlock? = some b)
      (blocks : reply.node.blockchain.blocks = x.blockchain.blocks ++ [b])
  | requested {peerId : Nat} (tasks : reply.tasks = [.requestAllBlocks peerId])
      (peer : WebSocketPeers.get? reply.node.peers peerId = some ⟨y.host, y.port⟩)

/-- The chain of `x` is empty, or at least two blocks short of that of `y`, or
    the latest block of `y` succeeds its own. -/
def Catches (x y : Node T) : Prop :=
  x.blockchain.blocks = [] ∨ x.blockchain.length + 2 ≤ y.blockchain.length ∨
    ∃ last b, x.blockchain.latestBlock? = some last ∧ y.blockchain.latestBlock? = some b ∧
      b.isSuccessorOf last

/-- What `x` makes of the message, apart from what it does to its members. -/
structure Announced (x y : Node T) (message : Json) (clock : Clock) (b : Block T) : Prop where
  latest : y.blockchain.latestBlock? = some b
  decoded : x.receivedBlock message = .ok b
  valid : ∀ i, b.valid (clock i) = .ok ()
  index : b.index.toNat + 1 = y.blockchain.length
  origin : message.find? "origin" = some y.origin

theorem announced {x y : Node Text} {t : TimePoint} {clock : Clock} {message : Json}
    (hpow : ¬ Env.proofOfWork) (hy : y.ReachableBy t) (hclock : ∀ i, t ≤ clock i)
    (hmessage : y.latestBlockMessage = some message) : ∃ b, Announced x y message clock b := by
  obtain ⟨b, hlatest, rfl⟩ := Option.map_eq_some_iff.mp hmessage
  have hmem := List.mem_of_getLast? hlatest
  refine ⟨b, hlatest, ?_, ?_, ?_, rfl⟩
  · exact receivedBlock_eq_ok.mpr ⟨_, _, rfl, b.fromJson_toJson, rfl⟩
  · intro i
    exact Block.valid_mono (hy.blocks_valid hpow b hmem) (hclock i)
  · rw [Blockchain.latestBlock?, List.getLast?_eq_getElem?] at hlatest
    obtain ⟨hi, rfl⟩ := List.getElem?_eq_some_iff.mp hlatest
    rw [hy.numbered.index _ hi, Blockchain.length]
    omega

/-- A block that is one ahead adjoins where the nodes have it that way. -/
theorem Announced.adjoins_iff_catches {x y : Node Text} {clock : Clock} {message : Json}
    {b : Block Text} (h : Announced x y message clock b)
    (hy : Blockchain.Linked y.blockchain.blocks)
    (hnext : y.blockchain.length = x.blockchain.length + 1) : x.adjoins b ↔ x.Catches y := by
  constructor
  · intro hadjoins
    cases hlast : x.blockchain.latestBlock? with
    | none => exact .inl (List.getLast?_eq_none_iff.mp hlast)
    | some last =>
      have hsuccessor := (adjoins_iff.mp hadjoins).2 last hlast
      exact .inr (.inr ⟨last, b, hlast, h.latest, hsuccessor⟩)
  · intro hcatches
    refine adjoins_iff.mpr ⟨?_, ?_⟩
    · -- The chain of `y` is its first block.
      intro hnone
      have hempty := List.getLast?_eq_none_iff.mp hnone
      have hone : y.blockchain.blocks.length = 1 := by
        rw [Blockchain.length, Blockchain.length, hempty] at hnext
        exact hnext
      obtain ⟨b', hb'⟩ := List.length_eq_one_iff.mp hone
      have hlatest := h.latest
      rw [Blockchain.latestBlock?, hb'] at hlatest
      cases hlatest
      exact (hy.first b' (by rw [hb']; rfl)).isGenesis rfl
    · intro last hlast
      obtain hempty | hfar | ⟨last', b', hlast', hlatest, hsuccessor⟩ := hcatches
      · rw [Blockchain.latestBlock?, hempty] at hlast
        cases hlast
      · omega
      · rw [hlast] at hlast'
        rw [h.latest] at hlatest
        cases hlast'
        cases hlatest
        exact hsuccessor

/-- A block that is one ahead is appended if it adjoins, and ignored otherwise. -/
theorem Announced.next {x y : Node Text} {clock : Clock} {message : Json} {b : Block Text}
    {connection : Except String Unit} (h : Announced x y message clock b)
    (hpow : ¬ Env.proofOfWork) (hy : Blockchain.Linked y.blockchain.blocks)
    (hroom : x.blockchain.blocks.length < Env.maxSize)
    (hnext : y.blockchain.length = x.blockchain.length + 1) (reply : Reply Text)
    (hreply : x.handle clock (.receiveLatestBlock message connection) = some reply) :
    (x.Catches y → x.Heeds y reply) ∧
    (¬ x.Catches y → reply = { node := x, answer := .ok .null }) := by
  have hindex : b.index.toNat = x.blockchain.length := by
    have := h.index
    omega
  have hiff := h.adjoins_iff_catches hy hnext
  constructor
  · intro hcatches
    rw [handleReceiveLatestBlock_of_valid hpow h.decoded h.valid hindex (hiff.mpr hcatches) hroom
      rfl] at hreply
    cases hreply
    exact .appended h.latest rfl
  · intro hmisses
    have hjudge : x.judge message clock connection = .ok .ignore := by
      refine judge_eq_ok.mpr ⟨b, h.decoded, h.valid 0, .inr (.inl ⟨hindex, ?_⟩)⟩
      rw [if_neg (mt hiff.mp hmisses)]
    rw [handleReceiveLatestBlock_of_ignore hjudge] at hreply
    cases hreply
    rfl

/-- A block that is further ahead has its origin asked for the others. -/
theorem Announced.ahead {x y : Node Text} {clock : Clock} {message : Json} {b : Block Text}
    {connection : Except String Unit} (h : Announced x y message clock b)
    (hahead : x.blockchain.length + 2 ≤ y.blockchain.length) (reply : Reply Text)
    (hreply : x.handle clock (.receiveLatestBlock message connection) = some reply) :
    x.Heeds y reply ∨ ∃ e, connection = .error e ∧
      reply.answer = .error (.webSocket (malformed "receive_latest_block" message e)) := by
  have hindex : x.blockchain.length < b.index.toNat := by
    have := h.index
    omega
  obtain ⟨peerId, peers, hrequest, hpeer⟩ | ⟨e, he, hrequest⟩ :=
    x.requestFrom_origin y connection h.origin
  · have hjudge : x.judge message clock connection = .ok (.requestAll b peerId peers) :=
      judge_eq_ok.mpr ⟨b, h.decoded, h.valid 0, .inl ⟨hindex, peerId, peers, hrequest, rfl⟩⟩
    rw [handleReceiveLatestBlock_of_requestAll hjudge rfl] at hreply
    cases hreply
    exact .inl (.requested rfl hpeer)
  · have hjudge : x.judge message clock connection = .error (.exception e) := by
      simp only [judge, h.decoded, h.valid 0, gt_iff_lt, if_pos hindex, hrequest, bind, Except.bind]
    simp only [handle, handleReceiveLatestBlock, hjudge] at hreply
    cases hreply
    exact .inr ⟨e, he, rfl⟩

/-- What becomes of the latest block of a longer chain. -/
theorem handleReceiveLatestBlock_of_longer {x y : Node Text} {t : TimePoint} {clock : Clock}
    {message : Json} {connection : Except String Unit} {reply : Reply Text}
    (hpow : ¬ Env.proofOfWork) (hy : y.ReachableBy t) (hclock : ∀ i, t ≤ clock i)
    (hlonger : x.blockchain.length < y.blockchain.length)
    (hmessage : y.latestBlockMessage = some message)
    (hreply : x.handle clock (.receiveLatestBlock message connection) = some reply) :
    (x.Catches y → x.Heeds y reply ∨ ∃ e, connection = .error e ∧
      reply.answer = .error (.webSocket (malformed "receive_latest_block" message e))) ∧
    (¬ x.Catches y → reply = { node := x, answer := .ok .null }) := by
  obtain ⟨b, h⟩ := announced (x := x) hpow hy hclock hmessage
  rcases Nat.lt_or_ge (x.blockchain.length + 1) y.blockchain.length with hahead | hnext
  · refine ⟨fun _ => h.ahead hahead reply hreply, fun hmisses => ?_⟩
    exact absurd (.inr (.inl hahead)) hmisses
  · have hroom : x.blockchain.blocks.length < Env.maxSize :=
      Nat.lt_of_lt_of_le hlonger hy.numbered.length_le
    obtain ⟨hheeds, hignores⟩ := h.next hpow hy.linked hroom (by omega) reply hreply
    exact ⟨fun hcatches => .inl (hheeds hcatches), hignores⟩

end Node

/-! # A fork that is one block longer -/

def firstText (text : String) : Block Text :=
  letI := plainBuild
  Block.first ⟨text⟩ 0

def secondText (text text' : String) : Block Text :=
  letI := plainBuild
  Block.next ⟨text'⟩ (firstText text) 0

/-- A node whose chain has one block with the given text. -/
def oneText (port : UInt16) (text : String) : Node Text where
  host := "localhost"
  port
  blockchain :=
    letI := plainBuild
    ⟨[firstText text], .fresh⟩
  members := ()
  peers := []

/-- A node whose chain has another block. -/
def twoBlocks (port : UInt16) (text text' : String) : Node Text where
  host := "localhost"
  port
  blockchain :=
    letI := plainBuild
    ⟨[firstText text, secondText text text'], .fresh⟩
  members := ()
  peers := []

theorem reachableBy_oneText (port : UInt16) (text : String) :
    letI := plainBuild
    (oneText port text).ReachableBy 0 := by
  let env := plainBuild
  have hpost : (Node.new "localhost" port : Node Text).handle .epoch
      (.blocksPost (.string text) 0) = some _ :=
    Node.handleBlocksPost_of_valid (by decide) rfl rfl rfl (by decide) (show 0 < 2 ^ 32 by decide)
  exact (Node.ReachableBy.new "localhost" port 0).handle (by decide) (by decide) hpost

theorem reachableBy_twoBlocks (port : UInt16) (text text' : String) :
    letI := plainBuild
    (twoBlocks port text text').ReachableBy 0 := by
  let env := plainBuild
  have hpost : (oneText port text).handle .epoch (.blocksPost (.string text') 0) = some _ :=
    Node.handleBlocksPost_of_valid (by decide) rfl rfl rfl (by decide) (show 1 < 2 ^ 32 by decide)
  exact (reachableBy_oneText port text).handle (by decide) (by decide) hpost

/-- The message that `twoBlocks` broadcasts. -/
def twoBlocksMessage (port : UInt16) (text text' : String) : Json :=
  .object [("block", (secondText text text').toJson),
    ("origin", (twoBlocks port text text').origin)]

/-- It catches up if the chains have the same first block. -/
theorem Node.handleReceiveLatestBlock_of_longer_two_texts :
    letI := plainBuild
    (oneText 8332 "first").blockchain.length < (twoBlocks 8333 "first" "second").blockchain.length ∧
    (oneText 8332 "first").Catches (twoBlocks 8333 "first" "second") ∧
    ∃ reply, (oneText 8332 "first").handle .epoch (.receiveLatestBlock
        (twoBlocksMessage 8333 "first" "second") (.ok ())) = some reply ∧
      ((oneText 8332 "first").Heeds (twoBlocks 8333 "first" "second") reply ∨
        ∃ e, (.ok () : Except String Unit) = .error e ∧ reply.answer = .error (.webSocket
          (malformed "receive_latest_block" (twoBlocksMessage 8333 "first" "second") e))) := by
  let env := plainBuild
  have hlonger : (oneText 8332 "first").blockchain.length <
      (twoBlocks 8333 "first" "second").blockchain.length := Nat.lt_add_one 1
  have hcatches : (oneText 8332 "first").Catches (twoBlocks 8333 "first" "second") := by
    refine .inr (.inr ⟨_, _, rfl, rfl, ?_⟩)
    exact Block.isSuccessorOf_iff.mpr ⟨by decide, rfl, rfl⟩
  obtain ⟨reply, hreply⟩ := exists_handle_iff.mpr <|
    stepsDefined_receiveLatestBlock (by decide) (oneText 8332 "first") .epoch
      (twoBlocksMessage 8333 "first" "second") (.ok ())
  refine ⟨hlonger, hcatches, reply, hreply, ?_⟩
  exact (handleReceiveLatestBlock_of_longer (t := 0) (by decide)
    (reachableBy_twoBlocks 8333 "first" "second") (fun _ => Int64.le_refl 0) hlonger rfl
    hreply).1 hcatches

/-- It does not if they have not. -/
theorem Node.not_heeds_fork :
    letI := plainBuild
    (oneText 8332 "first").ReachableBy 0 ∧ (twoBlocks 8333 "other" "second").ReachableBy 0 ∧
    (oneText 8332 "first").blockchain.length < (twoBlocks 8333 "other" "second").blockchain.length ∧
    (twoBlocks 8333 "other" "second").latestBlockMessage =
      some (twoBlocksMessage 8333 "other" "second") ∧
    ∃ reply, (oneText 8332 "first").handle .epoch (.receiveLatestBlock
        (twoBlocksMessage 8333 "other" "second") (.ok ())) = some reply ∧
      reply.node.blockchain = (oneText 8332 "first").blockchain ∧ reply.answer = .ok .null ∧
      reply.tasks = [] := by
  let env := plainBuild
  have hvalid : (secondText "other" "second").valid (Clock.epoch 0) = .ok () :=
    Block.valid_eq_ok.mpr ⟨rfl, by decide, rfl⟩
  have hadjoins : ¬ (oneText 8332 "first").adjoins (secondText "other" "second") := by
    intro h
    have hsuccessor := (adjoins_iff.mp h).2 (firstText "first") rfl
    have hhash : some (firstText "other").hash = some (firstText "first").hash :=
      (Block.isSuccessorOf_iff.mp hsuccessor).2.2
    have hvec := congrArg Digest.vec (Option.some.inj hhash)
    exact absurd hvec (by decide +kernel)
  have hjudge : (oneText 8332 "first").judge (twoBlocksMessage 8333 "other" "second") .epoch
      (.ok ()) = .ok .ignore := by
    refine judge_eq_ok.mpr ⟨secondText "other" "second", ?_, hvalid, .inr (.inl ⟨rfl, ?_⟩)⟩
    · exact receivedBlock_eq_ok.mpr ⟨_, _, rfl, (secondText "other" "second").fromJson_toJson, rfl⟩
    · rw [if_neg hadjoins]
  exact ⟨reachableBy_oneText 8332 "first", reachableBy_twoBlocks 8333 "other" "second",
    Nat.lt_add_one 1, rfl, _, handleReceiveLatestBlock_of_ignore hjudge, rfl, rfl, rfl⟩

end BuenzliCoin
