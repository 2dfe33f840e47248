-- SUMMARY: Nodes that all mine and pass their chains on, and when they come to have the same one.
import BuenzliCoin.Chain.Text
import BuenzliCoin.Lib.Gossip
import BuenzliCoin.Node.Malformed
import BuenzliCoin.Node.Network
import BuenzliCoin.Node.Validity

/-!
# Convergence

Any number of nodes, each of which may be asked to mine and may be called with
anything else, under one clock. What a node answers to `/request-all-blocks` stays
around and reaches any node, at any later time and any number of times. As soon as
no node is asked to mine or sent anything else that may change its chain, the
answers make the nodes agree on the longest chain, if there is only one.
-/

namespace BuenzliCoin

open Blockchain

namespace Node

-- ---------------------------------------------------------------------------
-- What calls do to the length of a chain
-- ---------------------------------------------------------------------------

/-- Whether a call leaves the chain alone, whatever it is passed. -/
def Call.keepsChain {T : Type} [NodeData T] : Call T → Bool
  | .blocksPost .. => false
  | .receiveLatestBlock .. => false
  | .receiveAllBlocks .. => false
  | _ => true

section

variable {T : Type} [NodeData T] [Env] {n : Node T} {clock : Clock} {call : Call T}

theorem ChainStep.blocks_of_keepsChain {bc : Blockchain T} (h : ChainStep n clock call bc)
    (hkeeps : call.keepsChain) : bc.blocks = n.blockchain.blocks := by
  cases h with
  | kept hblocks _ => exact hblocks
  | _ => cases hkeeps

/-- Without `PROOF_OF_WORK` a chain that changes gets longer. -/
theorem ChainStep.length_lt {bc : Blockchain T} (h : ChainStep n clock call bc)
    (hpow : ¬ Env.proofOfWork) :
    bc.blocks = n.blockchain.blocks ∨ n.blockchain.blocks.length < bc.blocks.length := by
  cases h with
  | kept hblocks _ => exact .inl hblocks
  | constructed hstep => exact .inr (by simp [hstep.blocks])
  | appended _ hstep => exact .inr (by simp [hstep.blocks])
  | replaced _ hexceeds => exact .inr (length_lt_of_exceeds hpow hexceeds)

end

variable [Env]

/-- Whatever its own chain is, a node takes over the blocks that another node has
    answered with if there are more of them. -/
theorem ReachableBy.blocks_of_receiveAllBlocks {n : Node Text} {t : TimePoint} {clock : Clock}
    {answer : Json} {x : Node Text} {reply : Reply Text} (hn : n.ReachableBy t)
    (hpow : ¬ Env.proofOfWork) (hδ : 0 < config.blockgenTimeMaxDelta)
    (hanswer : n.handleRequestAllBlocks.answer = .ok answer) (hclock : ∀ i, t ≤ clock i)
    (hhandle : x.handleReceiveAllBlocks answer clock = some reply) :
    reply.node.blockchain.blocks =
      if x.blockchain.blocks.length < n.blockchain.blocks.length then n.blockchain.blocks
      else x.blockchain.blocks := by
  cases hanswer
  have hvalid := hn.validFrom hδ
  have hread : Blockchain.fromJson n.blockchain.toJson clock =
      .ok ⟨n.blockchain.blocks, .fresh⟩ := by
    have hread := fromJson_toJson_of_valid hpow hvalid
      (fun b hb => (Block.valid_eq_ok.mp (hvalid.blocks b hb)).1) hn.numbered.length_le hclock
    rw [hread, (List.map_congr_left fun b _ => Text.stored_block b).trans (List.map_id _)]
  by_cases hne : n.blockchain.blocks = []
  · rw [if_neg (by simp [hne])]
    have hchain : ChainStep _ clock (.receiveAllBlocks (.object
        [("blockchain", n.blockchain.toJson), ("origin", n.origin)])) reply.node.blockchain :=
      handle_chainStep hhandle
    generalize reply.node.blockchain = bc at hchain
    cases hchain with
    | kept hblocks _ => exact hblocks
    | replaced hreceived hexceeds =>
      obtain ⟨j, hj, hdecoded, -⟩ := receivedChain_eq_ok.mp hreceived
      cases hj
      rw [hread] at hdecoded
      cases hdecoded
      have hlonger := length_lt_of_exceeds hpow hexceeds
      simp [Blockchain.length, hne] at hlonger
  · have hchain : receivedChain (.object [("blockchain", n.blockchain.toJson),
        ("origin", n.origin)]) clock = .ok (⟨n.blockchain.blocks, .fresh⟩ : Blockchain Text) := by
      refine receivedChain_eq_ok.mpr ⟨_, rfl, hread, ?_⟩
      exact (hvalid.congr rfl).valid hne fun i => hclock _
    simp only [handleReceiveAllBlocks, hchain, exceeds_of_not_proofOfWork hpow] at hhandle
    split_ifs with hlonger
    · simp [Blockchain.length, hlonger] at hhandle
      obtain ⟨members, -, rfl⟩ := hhandle
      rfl
    · simp [Blockchain.length, hlonger] at hhandle
      rw [← hhandle]

end Node

-- ---------------------------------------------------------------------------
-- Nodes under one clock
-- ---------------------------------------------------------------------------

structure Mesh (ι : Type) where
  nodes : ι → Node Text
  /-- What nodes have answered to `/request-all-blocks` so far. -/
  answers : List Json
  /-- No reading of the clock so far was after this time. -/
  time : TimePoint

inductive Mesh.Event (ι : Type) where
  | call (i : ι) (call : Node.Call Text)
  | serve (i : ι)
  /-- The answer with number `k` reaches `i`. -/
  | deliver (k : ℕ) (i : ι)

namespace Mesh

variable {ι : Type} [DecidableEq ι]

def after (s : Mesh ι) (i : ι) (n : Node Text) (time : TimePoint) : Mesh ι :=
  { s with nodes := Function.update s.nodes i n, time }

/-- What an event comes down to, where only the chains count. -/
def Event.gossip : Event ι → Gossip.Event ι
  | call i request => if request.keepsChain then .idle else .own i
  | serve i => .offer i
  | deliver k i => .deliver k i

variable [Env]

inductive Step (s : Mesh ι) : Event ι → Mesh ι → Prop where
  | call {i : ι} {call : Node.Call Text} {clock : Clock} {reply : Reply Text} {time : TimePoint}
      (nonDecreasing : clock.NonDecreasing) (readings : ∀ k, s.time ≤ clock k ∧ clock k ≤ time)
      (handled : (s.nodes i).handle clock call = some reply) :
      Step s (.call i call) (s.after i reply.node time)
  | serve {i : ι} {answer : Json}
      (answered : (s.nodes i).handleRequestAllBlocks.answer = .ok answer) :
      Step s (.serve i) { s with answers := s.answers ++ [answer] }
  | deliver {k : ℕ} {i : ι} {answer : Json} {clock : Clock} {reply : Reply Text}
      {time : TimePoint} (sent : s.answers[k]? = some answer) (nonDecreasing : clock.NonDecreasing)
      (readings : ∀ k, s.time ≤ clock k ∧ clock k ≤ time)
      (handled : (s.nodes i).handle clock (.receiveAllBlocks answer) = some reply) :
      Step s (.deliver k i) (s.after i reply.node time)

inductive Run : Mesh ι → List (Event ι) → Mesh ι → Prop where
  | nil (s : Mesh ι) : Run s [] s
  | cons {s s' s'' : Mesh ι} {e : Event ι} {es : List (Event ι)} (first : Step s e s')
      (rest : Run s' es s'') : Run s (e :: es) s''

omit [DecidableEq ι] in
/-- Nodes with empty chains, none of which has been asked for anything. -/
def init (host : ι → String) (port : ι → UInt16) (time : TimePoint) : Mesh ι where
  nodes i := .new (host i) (port i)
  answers := []
  time

def Reachable (s : Mesh ι) : Prop :=
  ∃ host port time events, Run (init host port time) events s

/-- Whether `i` has got to know, by way of answers that were served and delivered, of the
    chain that `m` had when so many answers had been served. -/
def informed (m : ι) (answers : ℕ) (events : List (Event ι)) (i : ι) : Bool :=
  Gossip.informed m answers (events.map Event.gossip) i

-- ---------------------------------------------------------------------------
-- Only the chains count
-- ---------------------------------------------------------------------------

omit [DecidableEq ι] in
/-- An answer and the blocks in it, those that a node had by the time `t`. -/
def Carries (t : TimePoint) (answer : Json) (blocks : List (Block Text)) : Prop :=
  ∃ (n : Node Text) (t' : TimePoint), t' ≤ t ∧ n.ReachableBy t' ∧
    n.handleRequestAllBlocks.answer = .ok answer ∧ n.blockchain.blocks = blocks

omit [DecidableEq ι] in
structure Represents (s : Mesh ι) (sys : Gossip.System ι (List (Block Text))) : Prop where
  reachable : ∀ i, (s.nodes i).ReachableBy s.time
  replicas : ∀ i, sys.replicas i = (s.nodes i).blockchain.blocks
  offers : List.Forall₂ (Carries s.time) s.answers sys.offers

variable {s s' : Mesh ι} {sys : Gossip.System ι (List (Block Text))}

omit [DecidableEq ι] in
theorem represents_init (host : ι → String) (port : ι → UInt16) (time : TimePoint) :
    Represents (init host port time) ⟨fun _ => [], []⟩ where
  reachable i := .new (host i) (port i) time
  replicas _ := rfl
  offers := .nil

/-- After a call the node and its replica have the same blocks again. -/
theorem Represents.after (h : Represents s sys) {i : ι} {call : Node.Call Text} {clock : Clock}
    {reply : Reply Text} {time : TimePoint} (hnonDecreasing : clock.NonDecreasing)
    (hreadings : ∀ k, s.time ≤ clock k ∧ clock k ≤ time)
    (hhandled : (s.nodes i).handle clock call = some reply) :
    Represents (s.after i reply.node time) (sys.set i reply.node.blockchain.blocks) where
  reachable j := by
    obtain ⟨host, port, t₀, hrun⟩ := h.reachable j
    refine ⟨host, port, t₀, hrun.tail ?_⟩
    by_cases hji : j = i
    · subst hji
      refine ⟨call, clock, reply, hnonDecreasing, hreadings, hhandled, ?_⟩
      simp only [Mesh.after, Function.update_self]
    · -- A node that is not called is as good as one that is asked for its blocks.
      refine ⟨.blocksGet, clock, _, hnonDecreasing, hreadings, rfl, ?_⟩
      simp only [Mesh.after, Function.update_of_ne hji, Node.handleBlocksGet]
  replicas j := by
    simp only [Gossip.System.set_replicas, Mesh.after, Function.update_apply]
    split_ifs
    · rfl
    · exact h.replicas j
  offers := by
    refine h.offers.imp fun answer blocks => ?_
    rintro ⟨n, t', hle, hn⟩
    exact ⟨n, t', TimePoint.le_trans hle (TimePoint.le_trans (hreadings 0).1 (hreadings 0).2), hn⟩

theorem Represents.step {e : Event ι} (h : Represents s sys) (hpow : ¬ Env.proofOfWork)
    (hδ : 0 < config.blockgenTimeMaxDelta) (hstep : Step s e s') :
    ∃ sys', Gossip.Step List.length sys e.gossip sys' ∧ Represents s' sys' := by
  cases hstep with
  | @call i call clock reply time nonDecreasing readings handled =>
    have hafter := h.after nonDecreasing readings handled
    have hchain := Node.handle_chainStep handled
    refine ⟨_, ?_, hafter⟩
    unfold Event.gossip
    dsimp only
    split_ifs with hkeeps
    · rw [hchain.blocks_of_keepsChain hkeeps, ← h.replicas, Gossip.System.set_self]
      exact .idle
    · obtain hsame | hlonger := hchain.length_lt hpow
      · rw [hsame, ← h.replicas, Gossip.System.set_self]
        exact .keep i
      · exact .rise (h.replicas i ▸ hlonger)
  | @serve i answer answered =>
    refine ⟨{ sys with offers := _ }, .offer i, h.reachable, h.replicas, ?_⟩
    refine List.rel_append h.offers (.cons ?_ .nil)
    exact ⟨s.nodes i, s.time, Int64.le_refl _, h.reachable i, answered, (h.replicas i).symm⟩
  | @deliver k i answer clock reply time sent nonDecreasing readings handled =>
    have hafter := h.after nonDecreasing readings handled
    obtain ⟨hk, rfl⟩ := List.getElem?_eq_some_iff.mp sent
    have hk' : k < sys.offers.length := h.offers.length_eq ▸ hk
    have hoffered := List.getElem?_eq_getElem hk'
    obtain ⟨n, t', hle, hn, hanswer, hcarried⟩ :
        Carries s.time s.answers[k] sys.offers[k] := h.offers.get hk hk'
    have hblocks := hn.blocks_of_receiveAllBlocks hpow hδ hanswer
      (fun k => TimePoint.le_trans hle (readings k).1) handled
    rw [hblocks, hcarried] at hafter
    refine ⟨_, ?_, hafter⟩
    rw [← h.replicas]
    split_ifs with hlonger
    · exact .take hoffered hlonger
    · rw [Gossip.System.set_self]
      exact .pass hoffered (Nat.le_of_not_lt hlonger)

theorem Represents.run {events : List (Event ι)} (h : Represents s sys) (hpow : ¬ Env.proofOfWork)
    (hδ : 0 < config.blockgenTimeMaxDelta) (hrun : Run s events s') :
    ∃ sys', Gossip.Run List.length sys (events.map Event.gossip) sys' ∧ Represents s' sys' := by
  induction hrun generalizing sys with
  | nil s => exact ⟨sys, .nil sys, h⟩
  | cons first _ ih =>
    obtain ⟨sys₁, hfirst, h₁⟩ := h.step hpow hδ first
    obtain ⟨sys₂, hrest, h₂⟩ := ih h₁
    exact ⟨sys₂, .cons hfirst hrest, h₂⟩

theorem Reachable.represents (hs : Reachable s) (hpow : ¬ Env.proofOfWork)
    (hδ : 0 < config.blockgenTimeMaxDelta) :
    ∃ sys, Represents s sys ∧ Gossip.Covered List.length sys := by
  obtain ⟨host, port, time, events, hrun⟩ := hs
  obtain ⟨sys, hsys, h⟩ := (represents_init host port time).run hpow hδ hrun
  exact ⟨sys, h, hsys.covered fun x hx => absurd hx List.not_mem_nil⟩

-- ---------------------------------------------------------------------------
-- What spreads
-- ---------------------------------------------------------------------------

end Mesh

-- ---------------------------------------------------------------------------
-- A chain that spreads
-- ---------------------------------------------------------------------------

end BuenzliCoin
