-- SUMMARY: Runs of a node, and what one handler call can do to its chain.
import Mathlib.Logic.Relation
import BuenzliCoin.Chain.Codec
import BuenzliCoin.Node.Basic

namespace BuenzliCoin

open Relation NodeData

namespace Node

variable {T : Type} [NodeData T] [Env]

/-! ## Runs -/

/-- The node after a call with the given readings of the clock. -/
def step (n : Node T) (input : Clock × Call T) : Option (Node T) :=
  (n.handle input.1 input.2).map Reply.node

theorem step_eq_some {n n' : Node T} {input : Clock × Call T} :
    n.step input = some n' ↔ ∃ reply, n.handle input.1 input.2 = some reply ∧ reply.node = n' :=
  Option.map_eq_some_iff

/-- A handler call under a clock that never goes backwards: its readings lie
    between the times that the two states are paired with. -/
def TimedStep (s s' : Node T × TimePoint) : Prop :=
  ∃ call clock reply, clock.NonDecreasing ∧ (∀ i, s.2 ≤ clock i ∧ clock i ≤ s'.2) ∧
    s.1.handle clock call = some reply ∧ reply.node = s'.1

/-- `n` is a state of a node that has run under a clock that never goes
    backwards, and no reading so far was after `t`. -/
def ReachableBy (t : TimePoint) (n : Node T) : Prop :=
  ∃ host port t₀, ReflTransGen TimedStep (new host port, t₀) (n, t)

theorem ReachableBy.induction {P : TimePoint → Node T → Prop} {t : TimePoint} {n : Node T}
    (hn : n.ReachableBy t) (hnew : ∀ host port t₀, P t₀ (new host port))
    (hstep : ∀ s s' : Node T × TimePoint, s.1.ReachableBy s.2 → P s.2 s.1 → TimedStep s s' →
      P s'.2 s'.1) : P t n := by
  obtain ⟨host, port, t₀, hrun⟩ := hn
  suffices h : ∀ s, ReflTransGen TimedStep (new host port, t₀) s → P s.2 s.1 from h _ hrun
  intro s hs
  induction hs with
  | refl => exact hnew host port t₀
  | tail hrun hlast ih => exact hstep _ _ ⟨host, port, t₀, hrun⟩ ih hlast

theorem ReachableBy.new (host : String) (port : UInt16) (t : TimePoint) :
    (new host port : Node T).ReachableBy t :=
  ⟨host, port, t, .refl⟩

/-- One more call, at an instant. -/
theorem ReachableBy.handle {n : Node T} {t t' : TimePoint} {call : Call T} {reply : Reply T}
    (hn : n.ReachableBy t) (ht' : 0 ≤ t') (hle : t ≤ t')
    (h : n.handle (.const t' ht') call = some reply) : reply.node.ReachableBy t' := by
  obtain ⟨host, port, t₀, hrun⟩ := hn
  exact ⟨host, port, t₀, hrun.tail ⟨call, .const t' ht', reply, Clock.nonDecreasing_const t' ht',
    Clock.const_between ht' hle (Int64.le_refl t'), h, rfl⟩⟩

/-! ## What the handlers check -/

omit [Env] in
theorem receivedBlock_eq_ok {n : Node T} {data : Json} {b : Block T} :
    n.receivedBlock data = .ok b ↔
      ∃ j b', data.find? "block" = some j ∧ Block.fromJson j = .ok b' ∧
        b = { b' with data := link n.members b'.data } := by
  simp only [receivedBlock, Except.bind_eq_ok_iff, Except.pure_eq_ok_iff, Json.atKey_eq_ok]
  constructor
  · rintro ⟨j, hj, b', hb', rfl⟩
    exact ⟨j, b', hj, hb', rfl⟩
  · rintro ⟨j, b', hj, hb', rfl⟩
    exact ⟨j, hj, b', hb', rfl⟩

/-- What `judge` decides on a block that decodes and is valid. -/
theorem judge_eq_ok {n : Node T} {data : Json} {clock : Clock} {connection : Except String Unit}
    {v : Verdict T} :
    n.judge data clock connection = .ok v ↔
      ∃ b, n.receivedBlock data = .ok b ∧ b.valid (clock 0) = .ok () ∧
        ((n.blockchain.length < b.index.toNat ∧ ∃ peerId peers,
            n.requestFrom data connection = .ok (peerId, peers) ∧ v = .requestAll b peerId peers) ∨
          (b.index.toNat = n.blockchain.length ∧ v = if n.adjoins b then .append b else .ignore) ∨
          (b.index.toNat < n.blockchain.length ∧ v = .ignore)) := by
  rw [judge, Except.bind_eq_ok_iff]
  refine exists_congr fun b => and_congr_right fun _ => ?_
  cases hvalid : b.valid (clock 0) with
  | error e => simp
  | ok _ =>
    simp only [true_and]
    rcases lt_trichotomy n.blockchain.length b.index.toNat with hlt | heq | hgt
    · simp only [gt_iff_lt, if_pos hlt, Except.bind_eq_ok_iff, Except.pure_eq_ok_iff, Prod.exists]
      have hne : ¬ b.index.toNat = n.blockchain.length := by omega
      have hnlt : ¬ b.index.toNat < n.blockchain.length := by omega
      simp [hlt, hne, hnlt, eq_comm (a := v)]
    · simp [heq, eq_comm (a := v)]
    · have hne : ¬ b.index.toNat = n.blockchain.length := by omega
      have hnlt : ¬ n.blockchain.length < b.index.toNat := by omega
      simp [hgt, hne, hnlt, eq_comm (a := v)]

theorem adjoins_iff {n : Node T} {b : Block T} :
    n.adjoins b ↔
      (n.blockchain.latestBlock? = none → b.isGenesis) ∧
      ∀ last, n.blockchain.latestBlock? = some last → b.isSuccessorOf last := by
  unfold adjoins
  cases n.blockchain.latestBlock? <;> simp

/-- What `judge` has checked when it decides to append. -/
theorem judge_append {n : Node T} {data : Json} {clock : Clock} {connection : Except String Unit}
    {b : Block T} (h : n.judge data clock connection = .ok (.append b)) :
    n.receivedBlock data = .ok b ∧ b.valid (clock 0) = .ok () ∧
    b.index.toNat = n.blockchain.length ∧ n.adjoins b := by
  obtain ⟨b', hb', hvalid, ⟨-, _, _, -, hv⟩ | ⟨hindex, hv⟩ | ⟨-, hv⟩⟩ := judge_eq_ok.mp h
  · cases hv
  · split_ifs at hv with hadjoins
    cases hv
    exact ⟨hb', hvalid, hindex, hadjoins⟩
  · cases hv

/-- What `judge` has checked when it decides to ask for the whole chain. -/
theorem judge_requestAll {n : Node T} {data : Json} {clock : Clock}
    {connection : Except String Unit} {b : Block T} {peerId : Nat} {peers : WebSocketPeers}
    (h : n.judge data clock connection = .ok (.requestAll b peerId peers)) :
    n.receivedBlock data = .ok b ∧ b.valid (clock 0) = .ok () ∧
    n.blockchain.length < b.index.toNat ∧ n.requestFrom data connection = .ok (peerId, peers) := by
  obtain ⟨b', hb', hvalid, ⟨hindex, _, _, hrequest, hv⟩ | ⟨-, hv⟩ | ⟨-, hv⟩⟩ := judge_eq_ok.mp h
  · cases hv
    exact ⟨hb', hvalid, hindex, hrequest⟩
  · split_ifs at hv
  · cases hv

theorem receivedChain_eq_ok {data : Json} {clock : Clock} {bc : Blockchain T} :
    receivedChain data clock = .ok bc ↔
      ∃ j, data.find? "blockchain" = some j ∧ Blockchain.fromJson j clock = .ok bc ∧
        bc.valid (clock.drop bc.length) = .ok () := by
  simp only [receivedChain, Except.bind_eq_ok_iff, Json.atKey_eq_ok]
  constructor
  · rintro ⟨j, hj, bc', hbc', h⟩
    cases hvalid : bc'.valid (clock.drop bc'.length) with
    | error e =>
      rw [hvalid] at h
      cases h
    | ok _ =>
      rw [hvalid] at h
      cases h
      exact ⟨j, hj, hbc', hvalid⟩
  · rintro ⟨j, hj, hbc, hvalid⟩
    refine ⟨j, hj, bc, hbc, ?_⟩
    rw [hvalid]

/-- `POST /blocks` in a build that mines nothing, when all goes well. -/
theorem handleBlocksPost_of_valid {n : Node T} {data : Json} {clock : Clock} {fuel : Nat} {d : T}
    {members members' : Members T} (hpow : ¬ Env.proofOfWork)
    (hassemble : assemble n.members n.blockchain.length data = (.ok d, members))
    (hmined : mined members d = some members')
    (hdata : BlockData.valid d (n.blockchain.nextBlock d (clock 0)).index = .ok ())
    (htime : clock 0 - config.blockgenTimeMaxDelta < clock 1)
    (hroom : n.blockchain.blocks.length < Env.maxSize) :
    n.handle clock (.blocksPost data fuel) = some {
      node := { n with
        blockchain := { n.blockchain with
          blocks := n.blockchain.blocks ++ [n.blockchain.nextBlock d (clock 0)] }
        members := members' }
      answer := .ok .null
      tasks := [.broadcastLatestBlock] } := by
  simp only [handle, handleBlocksPost, hassemble,
    Blockchain.constructNextBlock_of_valid hpow hdata htime hroom, hmined]
  rfl

/-- `POST /blocks` when the block cannot be constructed. -/
theorem handleBlocksPost_of_error {n : Node T} {data : Json} {clock : Clock} {fuel : Nat} {d : T}
    {members : Members T} {e : Error} {bc : Blockchain T}
    (hassemble : assemble n.members n.blockchain.length data = (.ok d, members))
    (hconstruct : n.blockchain.constructNextBlock d clock fuel = some (.error e, bc)) :
    n.handle clock (.blocksPost data fuel) = some {
      node := { n with blockchain := bc, members }
      answer := Error.rethrow (fun what => .http 400 (malformed "POST /blocks" data what))
        (.error e) } := by
  simp only [handle, handleBlocksPost, hassemble, hconstruct]

/-- What a block ahead of the chain does. -/
theorem handleReceiveLatestBlock_of_requestAll {n : Node T} {data : Json} {clock : Clock}
    {connection : Except String Unit} {b : Block T} {peerId : Nat} {peers : WebSocketPeers}
    {members : Members T} (h : n.judge data clock connection = .ok (.requestAll b peerId peers))
    (hreceived : received n.members b.data = some members) :
    n.handle clock (.receiveLatestBlock data connection) = some {
      node := { n with peers, members }
      answer := .ok .null
      tasks := [.requestAllBlocks peerId] } := by
  simp only [handle, handleReceiveLatestBlock, h, hreceived]
  rfl

/-- Where it is defined. -/
theorem handleReceiveLatestBlock_requestAll {n : Node T} {data : Json} {clock : Clock}
    {connection : Except String Unit} {b : Block T} {peerId : Nat} {peers : WebSocketPeers}
    {reply : Reply T} (h : n.judge data clock connection = .ok (.requestAll b peerId peers))
    (hhandle : n.handle clock (.receiveLatestBlock data connection) = some reply) :
    reply.node.blockchain = n.blockchain ∧
      received n.members b.data = some reply.node.members := by
  simp only [handle, handleReceiveLatestBlock, h] at hhandle
  obtain ⟨members, hmembers, hhandle⟩ := Option.bind_eq_some_iff.mp hhandle
  cases hhandle
  exact ⟨rfl, hmembers⟩

/-- What a block does that was to be appended, when that throws. -/
theorem handleReceiveLatestBlock_of_rejected {n : Node T} {data : Json} {clock : Clock}
    {connection : Except String Unit} {b : Block T} {e : Error} {bc : Blockchain T}
    (h : n.judge data clock connection = .ok (.append b))
    (happend : n.blockchain.appendNextBlock b (clock 1) = (.error e, bc)) (hne : e ≠ .crash) :
    n.handle clock (.receiveLatestBlock data connection) = some {
      node := { n with blockchain := bc }
      answer := Error.rethrow (fun what => .webSocket (malformed "receive_latest_block" data what))
        (.error e) } := by
  simp only [handle, handleReceiveLatestBlock, h, happend]

/-- What a block does that is valid but of no use. -/
theorem handleReceiveLatestBlock_of_ignore {n : Node T} {data : Json} {clock : Clock}
    {connection : Except String Unit} (h : n.judge data clock connection = .ok .ignore) :
    n.handle clock (.receiveLatestBlock data connection) =
      some { node := n, answer := .ok .null } := by
  simp only [handle, handleReceiveLatestBlock, h]

/-! ## Calls that come to an end -/

/-- What the call does comes to an end, and is defined: mining and the loops that
    erase, the adjustments of the difficulty and the comparison of chains. -/
def StepsDefined (n : Node T) (clock : Clock) : Call T → Prop
  | .blocksPost data fuel =>
    ∀ d members, assemble n.members n.blockchain.length data = (.ok d, members) →
      ∃ r bc, n.blockchain.constructNextBlock d clock fuel = some (r, bc) ∧
        (r = .ok () → (mined members d).isSome)
  | .receiveLatestBlock data connection =>
    ∀ b,
      (n.judge data clock connection = .ok (.append b) →
        let r := (n.blockchain.appendNextBlock b (clock 1)).1
        r ≠ .error .crash ∧ (r = .ok () → (received n.members b.data).isSome)) ∧
      ∀ peerId peers, n.judge data clock connection = .ok (.requestAll b peerId peers) →
        (received n.members b.data).isSome
  | .receiveAllBlocks data =>
    receivedChain data clock ≠ (.error .crash : Except Error (Blockchain T)) ∧
      ∀ bc : Blockchain T, receivedChain data clock = .ok bc →
        ∃ exceeds, bc.exceeds n.blockchain = some exceeds ∧
          (exceeds → (setup (bc.blocks.map Block.data)).isSome)
  | _ => True

theorem exists_handleBlocksPost_iff {n : Node T} {data : Json} {clock : Clock} {fuel : Nat} :
    (∃ reply, n.handleBlocksPost data clock fuel = some reply) ↔
      n.StepsDefined clock (.blocksPost data fuel) := by
  simp only [handleBlocksPost, StepsDefined]
  cases hassemble : assemble n.members n.blockchain.length data with
  | mk r members =>
    cases r with
    | error e => simp
    | ok d =>
      cases hconstruct : n.blockchain.constructNextBlock d clock fuel with
      | none => simp [hconstruct]
      | some result =>
        obtain ⟨r, bc⟩ := result
        cases r with
        | error e => simp [hconstruct]
        | ok _ => cases hmined : mined members d <;> simp [hconstruct, hmined]

theorem exists_handleReceiveLatestBlock_iff {n : Node T} {data : Json} {clock : Clock}
    {connection : Except String Unit} :
    (∃ reply, n.handleReceiveLatestBlock data clock connection = some reply) ↔
      n.StepsDefined clock (.receiveLatestBlock data connection) := by
  simp only [handleReceiveLatestBlock, StepsDefined]
  cases hjudge : n.judge data clock connection with
  | error e => simp
  | ok verdict =>
    cases verdict with
    | ignore => simp
    | requestAll b peerId peers => cases hreceived : received n.members b.data <;> simp [hreceived]
    | append b =>
      cases happend : n.blockchain.appendNextBlock b (clock 1) with
      | mk r bc =>
        cases r with
        | error e => cases e <;> simp [happend]
        | ok _ => cases hreceived : received n.members b.data <;> simp [happend, hreceived]

theorem exists_handleReceiveAllBlocks_iff {n : Node T} {data : Json} {clock : Clock} :
    (∃ reply, n.handleReceiveAllBlocks data clock = some reply) ↔
      n.StepsDefined clock (.receiveAllBlocks data) := by
  simp only [handleReceiveAllBlocks, StepsDefined]
  cases hchain : (receivedChain data clock : Except Error (Blockchain T)) with
  | error e => cases e <;> simp
  | ok bc =>
    cases hexceeds : bc.exceeds n.blockchain with
    | none => simp [hexceeds]
    | some exceeds =>
      cases exceeds with
      | false => simp [hexceeds]
      | true => cases hsetup : setup (bc.blocks.map Block.data) <;> simp [hexceeds, hsetup]

/-- A call comes to an end exactly if its steps are defined. -/
theorem exists_handle_iff {n : Node T} {clock : Clock} {call : Call T} :
    (∃ reply, n.handle clock call = some reply) ↔ n.StepsDefined clock call := by
  cases call with
  | blocksPost data fuel => exact exists_handleBlocksPost_iff
  | receiveLatestBlock data connection => exact exists_handleReceiveLatestBlock_iff
  | receiveAllBlocks data => exact exists_handleReceiveAllBlocks_iff
  | _ => exact iff_of_true ⟨_, rfl⟩ trivial

/-! ## What a call does -/

/-- Everything a handler call can do to the chain and to the members under
    `#ifdef TRANSACTIONS`. -/
inductive CallStep (n : Node T) (clock : Clock) : Call T → Node T → Prop where
  | idle {call : Call T} {n' : Node T} (blockchain : n'.blockchain = n.blockchain)
      (members : n'.members = n.members) : CallStep n clock call n'
  /-- `POST /blocks` has thrown. If it threw in the midst of adding a block in a
      `PROOF_OF_WORK` build, the adjuster may have moved. -/
  | refused {data : Json} {fuel : Nat} {n' : Node T} {r : Except Error T}
      (assembled : assemble n.members n.blockchain.length data = (r, n'.members))
      (blocks : n'.blockchain.blocks = n.blockchain.blocks)
      (same : ¬ Env.proofOfWork → n'.blockchain = n.blockchain) :
      CallStep n clock (.blocksPost data fuel) n'
  | constructed {data : Json} {fuel : Nat} {n' : Node T} {d : T} {assembledMembers : Members T}
      {b : Block T}
      (assembled : assemble n.members n.blockchain.length data = (.ok d, assembledMembers))
      (constructed : n.blockchain.constructNextBlock d clock fuel = some (.ok (), n'.blockchain))
      (step : Blockchain.Constructed n.blockchain d clock b n'.blockchain)
      (members : mined assembledMembers d = some n'.members) :
      CallStep n clock (.blocksPost data fuel) n'
  /-- A received block that was to be appended, but `append_next_block` threw. -/
  | rejected {data : Json} {connection : Except String Unit} {n' : Node T} {b : Block T}
      (judged : n.judge data clock connection = .ok (.append b))
      (blocks : n'.blockchain.blocks = n.blockchain.blocks)
      (same : ¬ Env.proofOfWork → n'.blockchain = n.blockchain)
      (members : n'.members = n.members) : CallStep n clock (.receiveLatestBlock data connection) n'
  | appended {data : Json} {connection : Except String Unit} {n' : Node T} {b : Block T}
      (judged : n.judge data clock connection = .ok (.append b))
      (appended : n.blockchain.appendNextBlock b (clock 1) = (.ok (), n'.blockchain))
      (step : Blockchain.Appended n.blockchain b (clock 1) n'.blockchain)
      (members : received n.members b.data = some n'.members) :
      CallStep n clock (.receiveLatestBlock data connection) n'
  | skipped {data : Json} {connection : Except String Unit} {n' : Node T} {b : Block T}
      {peerId : Nat} {peers : WebSocketPeers}
      (judged : n.judge data clock connection = .ok (.requestAll b peerId peers))
      (blockchain : n'.blockchain = n.blockchain)
      (members : received n.members b.data = some n'.members) :
      CallStep n clock (.receiveLatestBlock data connection) n'
  | replaced {data : Json} {n' : Node T} (received : receivedChain data clock = .ok n'.blockchain)
      (exceeds : n'.blockchain.exceeds n.blockchain = some true)
      (members : setup (n'.blockchain.blocks.map Block.data) = some n'.members) :
      CallStep n clock (.receiveAllBlocks data) n'
  | served {request : Request T} {n' : Node T} (blockchain : n'.blockchain = n.blockchain)
      (members : n'.members =
        (serve n.members (n.blockchain.blocks.map Block.data) request).1) :
      CallStep n clock (.other request) n'

theorem CallStep.refl (n : Node T) (clock : Clock) (call : Call T) : CallStep n clock call n :=
  .idle rfl rfl

/-- What `POST /blocks` answers and sets going, next to what it does to the node. -/
theorem handleBlocksPost_cases {n : Node T} {data : Json} {clock : Clock} {fuel : Nat}
    {reply : Reply T} (h : n.handleBlocksPost data clock fuel = some reply) :
    (reply.tasks = [] ∧ reply.node.blockchain.blocks = n.blockchain.blocks ∧
      (¬ Env.proofOfWork → reply.node.blockchain = n.blockchain) ∧
      ∃ r, assemble n.members n.blockchain.length data = (r, reply.node.members)) ∨
    (reply.tasks = [.broadcastLatestBlock] ∧ ∃ d m b,
      assemble n.members n.blockchain.length data = (.ok d, m) ∧
      n.blockchain.constructNextBlock d clock fuel = some (.ok (), reply.node.blockchain) ∧
      Blockchain.Constructed n.blockchain d clock b reply.node.blockchain ∧
      mined m d = some reply.node.members) := by
  unfold handleBlocksPost at h
  split at h
  · next hassemble =>
    cases h
    exact .inl ⟨rfl, rfl, fun _ => rfl, _, hassemble⟩
  · next hassemble =>
    split at h
    · cases h
    · next hconstruct =>
      cases h
      obtain ⟨e, -, rfl, -⟩ | ⟨e, -, -, -, hbc⟩ | ⟨hok, -⟩ :=
        Blockchain.constructNextBlock_cases hconstruct
      · exact .inl ⟨rfl, rfl, fun _ => rfl, _, hassemble⟩
      · refine .inl ⟨rfl, Blockchain.blocks_of_adjust hbc, fun hpow => ?_, _, hassemble⟩
        rwa [if_neg hpow] at hbc
      · cases hok
    · next hconstruct =>
      obtain ⟨members, hmembers, h⟩ := Option.bind_eq_some_iff.mp h
      cases h
      obtain ⟨e, herror, -⟩ | ⟨e, herror, -⟩ | ⟨-, b, hstep⟩ :=
        Blockchain.constructNextBlock_cases hconstruct
      · cases herror
      · cases herror
      · exact .inr ⟨rfl, _, _, b, hassemble, hconstruct, hstep, hmembers⟩

/-- What a message with a block is answered with and sets going. -/
theorem handleReceiveLatestBlock_cases {n : Node T} {data : Json} {clock : Clock}
    {connection : Except String Unit} {reply : Reply T}
    (h : n.handleReceiveLatestBlock data clock connection = some reply) :
    (reply.node.peers = n.peers ∧ reply.tasks = [] ∧
      (reply.answer = .ok .null ∨ ∃ e, reply.answer = .error e)) ∨
    ∃ b peerId, n.judge data clock connection = .ok (.requestAll b peerId reply.node.peers) ∧
      reply.tasks = [.requestAllBlocks peerId] ∧ reply.answer = .ok .null := by
  have hthrown := Error.exists_rethrow_eq_error (α := Json)
    fun what => .webSocket (malformed "receive_latest_block" data what)
  unfold handleReceiveLatestBlock at h
  split at h
  · cases h
    exact .inl ⟨rfl, rfl, .inr (hthrown _)⟩
  · cases h
    exact .inl ⟨rfl, rfl, .inl rfl⟩
  · next hjudge =>
    obtain ⟨members, -, h⟩ := Option.bind_eq_some_iff.mp h
    cases h
    exact .inr ⟨_, _, hjudge, rfl, rfl⟩
  · split at h
    · cases h
    · cases h
      exact .inl ⟨rfl, rfl, .inr (hthrown _)⟩
    · obtain ⟨members, -, h⟩ := Option.bind_eq_some_iff.mp h
      cases h
      exact .inl ⟨rfl, rfl, .inl rfl⟩

theorem handleReceiveAllBlocks_cases {n : Node T} {data : Json} {clock : Clock} {reply : Reply T}
    (h : n.handleReceiveAllBlocks data clock = some reply) :
    reply.node.peers = n.peers ∧ reply.tasks = [] ∧
      (reply.answer = .ok .null ∨ ∃ e, reply.answer = .error e) := by
  have hthrown := Error.exists_rethrow_eq_error (α := Json)
    fun what => .webSocket (malformed "receive_all_blocks" data what)
  unfold handleReceiveAllBlocks at h
  split at h
  · cases h
  · cases h
    exact ⟨rfl, rfl, .inr (hthrown _)⟩
  · obtain ⟨exceeds, -, h⟩ := Option.bind_eq_some_iff.mp h
    cases exceeds with
    | false =>
      cases h
      exact ⟨rfl, rfl, .inl rfl⟩
    | true =>
      obtain ⟨members, -, h⟩ := Option.bind_eq_some_iff.mp h
      cases h
      exact ⟨rfl, rfl, .inl rfl⟩

theorem handleBlocksPost_callStep {n : Node T} {data : Json} {clock : Clock} {fuel : Nat}
    {reply : Reply T} (h : n.handleBlocksPost data clock fuel = some reply) :
    CallStep n clock (.blocksPost data fuel) reply.node := by
  obtain ⟨-, hblocks, hsame, r, hassemble⟩ | ⟨-, d, m, b, hassemble, hconstruct, hstep, hmembers⟩ :=
    handleBlocksPost_cases h
  · exact .refused hassemble hblocks hsame
  · exact .constructed hassemble hconstruct hstep hmembers

theorem handleReceiveLatestBlock_callStep {n : Node T} {data : Json} {clock : Clock}
    {connection : Except String Unit} {reply : Reply T}
    (h : n.handleReceiveLatestBlock data clock connection = some reply) :
    CallStep n clock (.receiveLatestBlock data connection) reply.node := by
  unfold handleReceiveLatestBlock at h
  split at h
  · cases h
    exact .refl ..
  · cases h
    exact .refl ..
  · next hjudge =>
    obtain ⟨members, hmembers, h⟩ := Option.bind_eq_some_iff.mp h
    cases h
    exact .skipped hjudge rfl hmembers
  · next hjudge =>
    split at h
    · cases h
    · next happend =>
      cases h
      obtain ⟨e, -, hblocks, hsame⟩ | ⟨hok, -⟩ := Blockchain.appendNextBlock_cases happend
      · exact .rejected hjudge hblocks hsame rfl
      · cases hok
    · next happend =>
      obtain ⟨members, hmembers, h⟩ := Option.bind_eq_some_iff.mp h
      cases h
      obtain ⟨e, herror, -⟩ | ⟨-, hstep⟩ := Blockchain.appendNextBlock_cases happend
      · cases herror
      · exact .appended hjudge happend hstep hmembers

theorem handleReceiveAllBlocks_callStep {n : Node T} {data : Json} {clock : Clock}
    {reply : Reply T} (h : n.handleReceiveAllBlocks data clock = some reply) :
    CallStep n clock (.receiveAllBlocks data) reply.node := by
  unfold handleReceiveAllBlocks at h
  split at h
  · cases h
  · cases h
    exact .refl ..
  · next hchain =>
    obtain ⟨exceeds, hexceeds, h⟩ := Option.bind_eq_some_iff.mp h
    cases exceeds with
    | false =>
      cases h
      exact .refl ..
    | true =>
      obtain ⟨members, hmembers, h⟩ := Option.bind_eq_some_iff.mp h
      cases h
      exact .replaced hchain hexceeds hmembers

/-- Every call of a handler is one of these steps. -/
theorem handle_callStep {n : Node T} {clock : Clock} {call : Call T} {reply : Reply T}
    (h : n.handle clock call = some reply) : CallStep n clock call reply.node := by
  cases call with
  | blocksPost data fuel => exact handleBlocksPost_callStep h
  | receiveLatestBlock data connection => exact handleReceiveLatestBlock_callStep h
  | receiveAllBlocks data => exact handleReceiveAllBlocks_callStep h
  | peersPost data connection =>
    cases h
    unfold handlePeersPost
    split <;> exact .idle rfl rfl
  | other request =>
    cases h
    exact .served rfl rfl
  | _ =>
    cases h
    exact .refl ..

/-! ## What a call does to the chain -/

/-- How the chain of a node changes in one call. -/
inductive ChainStep (n : Node T) (clock : Clock) : Call T → Blockchain T → Prop where
  /-- A call that adds no block. If it threw in the midst of adding one in a
      `PROOF_OF_WORK` build, the adjuster may have moved. -/
  | kept {call : Call T} {bc : Blockchain T} (blocks : bc.blocks = n.blockchain.blocks)
      (same : ¬ Env.proofOfWork → bc = n.blockchain) : ChainStep n clock call bc
  | constructed {data : Json} {fuel : Nat} {d : T} {b : Block T} {bc : Blockchain T}
      (step : Blockchain.Constructed n.blockchain d clock b bc) :
      ChainStep n clock (.blocksPost data fuel) bc
  | appended {data : Json} {connection : Except String Unit} {b : Block T} {bc : Blockchain T}
      (judged : n.judge data clock connection = .ok (.append b))
      (step : Blockchain.Appended n.blockchain b (clock 1) bc) :
      ChainStep n clock (.receiveLatestBlock data connection) bc
  | replaced {data : Json} {bc : Blockchain T} (received : receivedChain data clock = .ok bc)
      (exceeds : bc.exceeds n.blockchain = some true) :
      ChainStep n clock (.receiveAllBlocks data) bc

theorem ChainStep.refl (n : Node T) (clock : Clock) (call : Call T) :
    ChainStep n clock call n.blockchain := .kept rfl fun _ => rfl

/-- The rule for chains: what holds of no blocks and is kept by every block that
    is added is kept by every call. -/
theorem ChainStep.blocks_induction {P : List (Block T) → Prop} {n : Node T} {clock : Clock}
    {call : Call T} {bc : Blockchain T} (hstep : ChainStep n clock call bc)
    (h : P n.blockchain.blocks) (hnil : P [])
    (hadded : ∀ bc b bc', P bc.blocks → Blockchain.Added bc b bc' → P bc'.blocks) :
    P bc.blocks := by
  cases hstep with
  | kept hblocks hsame =>
    rw [hblocks]
    exact h
  | constructed hstep => exact hadded _ _ _ h hstep.toAdded
  | appended hjudged hstep => exact hadded _ _ _ h hstep.toAdded
  | replaced hreceived hexceeds =>
    obtain ⟨j, -, hdecoded, -⟩ := receivedChain_eq_ok.mp hreceived
    exact Blockchain.fromJson_induction (P := fun bc => P bc.blocks) hdecoded hnil
      fun bc b i bc' hbc hstep => hadded bc b bc' hbc hstep.toAdded

theorem CallStep.chainStep {n n' : Node T} {clock : Clock} {call : Call T}
    (h : CallStep n clock call n') : ChainStep n clock call n'.blockchain := by
  cases h with
  | idle hblockchain hmembers =>
    rw [hblockchain]
    exact .refl ..
  | refused hassembled hblocks hsame => exact .kept hblocks hsame
  | constructed hassembled hconstructed hstep hmembers => exact .constructed hstep
  | rejected hjudged hblocks hsame hmembers => exact .kept hblocks hsame
  | appended hjudged happended hstep hmembers => exact .appended hjudged hstep
  | skipped hjudged hblockchain hmembers =>
    rw [hblockchain]
    exact .refl ..
  | replaced hreceived hexceeds hmembers => exact .replaced hreceived hexceeds
  | served hblockchain hmembers =>
    rw [hblockchain]
    exact .refl ..

/-- Every call of a handler is a step of the chain. -/
theorem handle_chainStep {n : Node T} {clock : Clock} {call : Call T} {reply : Reply T}
    (h : n.handle clock call = some reply) : ChainStep n clock call reply.node.blockchain :=
  (handle_callStep h).chainStep

end Node

end BuenzliCoin
