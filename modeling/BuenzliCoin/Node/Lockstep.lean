-- SUMMARY: A node that mines and a node that follows its broadcasts, block by block.
import BuenzliCoin.Node.Network

/-!
# Lockstep

Node A serves `POST /blocks`. Whenever that sets going a broadcast of the latest
block, node B handles it before A serves the next request. Each node has a clock
of its own.
-/

namespace BuenzliCoin

open Relation

/-- The two nodes, and a time that no reading of the clock of A was after. -/
structure Pair (T : Type) [NodeData T] where
  a : Node T
  b : Node T
  time : TimePoint

section

variable {T : Type} [NodeData T] [Env]

/-- A request that A serves, and what B does about it. A constructs the block at
    the first reading of its clock, and no reading of the clock of B is as much
    as the tolerated interval behind that. -/
inductive Pair.Round (s : Pair T) : Pair T → Prop where
  | quiet {data : Json} {fuel : Nat} {clock : Clock} {reply : Reply T} {time : TimePoint}
      (nonDecreasing : clock.NonDecreasing) (readings : ∀ i, s.time ≤ clock i ∧ clock i ≤ time)
      (posted : s.a.handle clock (.blocksPost data fuel) = some reply)
      (idle : .broadcastLatestBlock ∉ reply.tasks) :
      Round s { s with a := reply.node, time }
  | broadcast {data : Json} {fuel : Nat} {clock clockB : Clock} {reply replyB : Reply T}
      {time : TimePoint} {message : Json} {connection : Except String Unit}
      (nonDecreasing : clock.NonDecreasing) (readings : ∀ i, s.time ≤ clock i ∧ clock i ≤ time)
      (posted : s.a.handle clock (.blocksPost data fuel) = some reply)
      (task : .broadcastLatestBlock ∈ reply.tasks)
      (formed : reply.node.latestBlockMessage = some message)
      (lag : ∀ i, (clock 0).toInt < (clockB i).toInt + config.blockgenTimeMaxDelta.toInt)
      (received : s.b.handle clockB (.receiveLatestBlock message connection) = some replyB) :
      Round s { a := reply.node, b := replyB.node, time }

/-- The nodes have the same chain, and its blocks were constructed by now. -/
structure Pair.InLockstep (s : Pair T) : Prop where
  same : s.b.blockchain = s.a.blockchain
  numbered : Blockchain.Numbered s.a.blockchain.blocks
  timestamps : ∀ b ∈ s.a.blockchain.blocks, 0 ≤ b.timestamp ∧ b.timestamp ≤ s.time

/-- A block that A constructs succeeds its latest one. -/
theorem Pair.InLockstep.isSuccessorOf {s : Pair T} {clock : Clock} {b last : Block T}
    (h : s.InLockstep) (hδ : 0 < config.blockgenTimeMaxDelta) (hclock : s.time ≤ clock 0)
    (hlinks : Blockchain.Links s.a.blockchain.latestBlock? b) (hstamp : b.timestamp = clock 0)
    (hlast : s.a.blockchain.latestBlock? = some last) : b.isSuccessorOf last := by
  obtain ⟨hepoch, hle⟩ := h.timestamps last (List.mem_of_getLast? hlast)
  apply hlinks.isSuccessorOf hlast
  rw [hstamp]
  exact TimePoint.lt_of_lt_of_le (TimePoint.sub_lt hepoch hδ) (TimePoint.le_trans hle hclock)

/-- B takes the block that A has constructed for the next one. -/
theorem Pair.InLockstep.adjoins {s : Pair T} {clock : Clock} {b : Block T}
    (h : s.InLockstep) (hδ : 0 < config.blockgenTimeMaxDelta) (hclock : s.time ≤ clock 0)
    (hlinks : Blockchain.Links s.a.blockchain.latestBlock? b) (hstamp : b.timestamp = clock 0) :
    s.b.adjoins b := by
  rw [Node.adjoins_iff, h.same]
  refine ⟨hlinks.isGenesis, ?_⟩
  intro last hlast
  exact h.isSuccessorOf hδ hclock hlinks hstamp hlast

/-- B appends the block that A has constructed. -/
theorem Pair.InLockstep.receive {s : Pair Text} {clock clockB : Clock} {a : Node Text} {d : Text}
    {b : Block Text} {message : Json} {connection : Except String Unit} {replyB : Reply Text}
    (h : s.InLockstep) (hpow : ¬ Env.proofOfWork) (hδ : 0 < config.blockgenTimeMaxDelta)
    (hclock : s.time ≤ clock 0)
    (hstep : Blockchain.Constructed s.a.blockchain d clock b a.blockchain)
    (hformed : a.latestBlockMessage = some message)
    (hlag : ∀ i, (clock 0).toInt < (clockB i).toInt + config.blockgenTimeMaxDelta.toInt)
    (hreceived : s.b.handle clockB (.receiveLatestBlock message connection) = some replyB) :
    replyB.node.blockchain = a.blockchain := by
  have hadjuster := hstep.adjuster
  rw [if_neg hpow] at hadjuster
  have hstamp : b.timestamp = clock 0 := by
    rw [hstep.eq_nextBlock hpow, Blockchain.nextBlock_timestamp]
  have hlatest : a.blockchain.latestBlock? = some b := by
    rw [Blockchain.latestBlock?, hstep.blocks, List.getLast?_concat]
  -- What B decodes, and the checks that it makes.
  have hdecoded : s.b.receivedBlock message = .ok b := by
    obtain ⟨b', hb', hfind⟩ := holdsLatest_of_latestBlockMessage hformed
    rw [hlatest] at hb'
    cases hb'
    exact Node.receivedBlock_eq_ok.mpr ⟨_, _, hfind, b.fromJson_toJson, rfl⟩
  have hvalid : ∀ i, b.valid (clockB i) = .ok () := by
    intro i
    refine Block.valid_eq_ok.mpr ⟨hstep.dataValid, ?_, hstep.hash⟩
    rw [hstamp]
    exact TimePoint.sub_lt_of_toInt_lt (clock.sinceEpoch 0) hδ (hlag i)
  have hindex : b.index.toNat = s.b.blockchain.length := by
    rw [h.same]
    exact h.numbered.index_of_links hstep.room hstep.links
  have hadjoins : s.b.adjoins b := h.adjoins hδ hclock hstep.links hstamp
  have hroom : s.b.blockchain.blocks.length < Env.maxSize := by
    rw [h.same]
    exact hstep.room
  rw [Node.handleReceiveLatestBlock_of_valid hpow hdecoded hvalid hindex hadjoins hroom rfl]
    at hreceived
  cases hreceived
  have hblocks := hstep.blocks
  revert hadjuster hblocks
  cases a.blockchain
  rintro rfl rfl
  rw [h.same]

theorem Pair.InLockstep.round {s s' : Pair Text} (h : s.InLockstep) (hpow : ¬ Env.proofOfWork)
    (hδ : 0 < config.blockgenTimeMaxDelta) (hround : s.Round s') : s'.InLockstep := by
  have hmono : ∀ {clock : Clock} {time : TimePoint},
      (∀ i, s.time ≤ clock i ∧ clock i ≤ time) → s.time ≤ time :=
    fun hclock => TimePoint.le_trans (hclock 0).1 (hclock 0).2
  cases hround with
  | quiet _ hclock hposted hidle =>
    obtain ⟨-, -, hsame, -⟩ | ⟨htasks, -⟩ := Node.handleBlocksPost_cases hposted
    · have hunchanged := hsame hpow
      refine ⟨h.same.trans hunchanged.symm, hunchanged ▸ h.numbered, ?_⟩
      rw [hunchanged]
      intro b hb
      exact ⟨(h.timestamps b hb).1, TimePoint.le_trans (h.timestamps b hb).2 (hmono hclock)⟩
    · rw [htasks] at hidle
      exact absurd (List.mem_singleton_self _) hidle
  | @broadcast data fuel clock _ _ _ time _ _ _ hclock hposted htask hformed hlag hreceived =>
    obtain ⟨htasks, -⟩ | ⟨-, d, m, b, -, -, hstep, -⟩ := Node.handleBlocksPost_cases hposted
    · rw [htasks] at htask
      cases htask
    · refine ⟨h.receive hpow hδ (hclock 0).1 hstep hformed hlag hreceived,
        h.numbered.added hstep.toAdded, ?_⟩
      refine Blockchain.forall_mem_added (P := fun b => 0 ≤ b.timestamp ∧ b.timestamp ≤ time)
        hstep.blocks ?_ ?_
      · intro b' hb'
        exact ⟨(h.timestamps b' hb').1, TimePoint.le_trans (h.timestamps b' hb').2 (hmono hclock)⟩
      · rw [hstep.eq_nextBlock hpow, Blockchain.nextBlock_timestamp]
        exact ⟨clock.sinceEpoch 0, (hclock 0).2⟩

/-- As long as there is room, A may be asked to mine a text at any later time, by
    clocks that agree well enough. -/
theorem Pair.exists_round {s : Pair Text} {t u : TimePoint} (hpow : ¬ Env.proofOfWork)
    (hδ : 0 < config.blockgenTimeMaxDelta) (text : String) (ht : 0 ≤ t) (hle : s.time ≤ t)
    (hu : 0 ≤ u) (hlag : t.toInt < u.toInt + config.blockgenTimeMaxDelta.toInt)
    (hroom : s.a.blockchain.blocks.length < Env.maxSize) :
    ∃ s', s.Round s' ∧ s'.time = t ∧
      s'.a.blockchain.length = s.a.blockchain.length + 1 := by
  obtain ⟨reply, hposted, htask, b, hblocks⟩ :
      ∃ reply, s.a.handle (.const t ht) (.blocksPost (.string text) 0) = some reply ∧
        .broadcastLatestBlock ∈ reply.tasks ∧
        ∃ b, reply.node.blockchain.blocks = s.a.blockchain.blocks ++ [b] :=
    ⟨_, Node.handleBlocksPost_of_valid hpow rfl rfl rfl (TimePoint.sub_lt ht hδ) hroom,
      List.mem_singleton_self _, _, rfl⟩
  have hlatest : reply.node.blockchain.latestBlock? = some b := by
    rw [Blockchain.latestBlock?, hblocks, List.getLast?_concat]
  obtain ⟨message, hformed⟩ : ∃ message, reply.node.latestBlockMessage = some message := by
    rw [Node.latestBlockMessage, hlatest]
    exact ⟨_, rfl⟩
  obtain ⟨replyB, hreceived⟩ := Node.exists_handle_iff.mpr <|
    Node.stepsDefined_receiveLatestBlock hpow s.b (.const u hu) message (.ok ())
  have hskew : ∀ i, (Clock.const t ht 0).toInt <
      (Clock.const u hu i).toInt + config.blockgenTimeMaxDelta.toInt := fun _ => hlag
  refine ⟨_, .broadcast (Clock.nonDecreasing_const t ht)
    (Clock.const_between ht hle (Int64.le_refl t)) hposted htask hformed hskew hreceived, rfl, ?_⟩
  rw [Blockchain.length, hblocks]
  exact List.length_append

/-- Two nodes that start with empty chains have the same chain after every round. -/
theorem Pair.blockchain_eq_of_rounds {s s' : Pair Text} (hpow : ¬ Env.proofOfWork)
    (hδ : 0 < config.blockgenTimeMaxDelta) (ha : s.a.blockchain = .new)
    (hb : s.b.blockchain = .new) (hrounds : ReflTransGen Round s s') :
    s'.b.blockchain = s'.a.blockchain := by
  suffices h : s'.InLockstep from h.same
  induction hrounds with
  | refl =>
    refine ⟨hb.trans ha.symm, ?_, ?_⟩
    · rw [ha]
      exact Blockchain.numbered_nil
    · rw [ha]
      exact fun b hmem => absurd hmem List.not_mem_nil
  | tail _ hround ih => exact ih.round hpow hδ hround

end

/-- Two texts, the second of them a second later and by a clock of B that is half a
    second late. -/
theorem Pair.blockchain_eq_of_rounds_two_texts :
    letI := plainBuild
    ∃ s : Pair Text, ReflTransGen Round ⟨.new "alice" 8332, .new "bob" 8333, 0⟩ s ∧
      s.time = 1000 ∧ s.a.blockchain.length = 2 ∧ s.b.blockchain = s.a.blockchain := by
  let env := plainBuild
  let start : Pair Text := ⟨.new "alice" 8332, .new "bob" 8333, 0⟩
  obtain ⟨s₁, hfirst, htime₁, hlength₁⟩ := exists_round (s := start) (t := 0) (u := 0)
    (by decide) (by decide) "first" (by decide) (by decide) (by decide) (by decide) (by decide)
  have hroom : s₁.a.blockchain.blocks.length < Env.maxSize := by
    rw [← Blockchain.length, hlength₁]
    decide
  obtain ⟨s₂, hsecond, htime₂, hlength₂⟩ := exists_round (s := s₁) (t := 1000) (u := 500)
    (by decide) (by decide) "second" (by decide) (htime₁ ▸ by decide) (by decide) (by decide) hroom
  have hrounds := (ReflTransGen.single hfirst).tail hsecond
  exact ⟨s₂, hrounds, htime₂, hlength₂.trans (congrArg (· + 1) hlength₁),
    blockchain_eq_of_rounds (by decide) (by decide) rfl rfl hrounds⟩

end BuenzliCoin
