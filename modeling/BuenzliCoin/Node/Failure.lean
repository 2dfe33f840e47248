-- SUMMARY: What handler calls that fail leave behind.
import BuenzliCoin.Node.Mining

/-!
# Failures

Messages of peers are decoded, linked and validated before anything is changed.
`POST /blocks` draws from the pool first.
-/

namespace BuenzliCoin

open NodeData Runs

namespace Node

variable [Env]

omit [Env] in
/-- The chain, the unspent outputs and the pool are those of `n`. -/
structure Untouched (n n' : Node TransactionList) : Prop where
  blockchain : n'.blockchain = n.blockchain
  unspentOutputs : n'.unspentOutputs = n.unspentOutputs
  unconfirmedPool : n'.unconfirmedPool = n.unconfirmedPool

omit [Env] in
theorem Untouched.refl (n : Node TransactionList) : Untouched n n := ⟨rfl, rfl, rfl⟩

-- ---------------------------------------------------------------------------
-- Messages of peers
-- ---------------------------------------------------------------------------

theorem untouched_of_receiveLatestBlock {n : Node TransactionList} {data : Json} {clock : Clock}
    {connection : Except String Unit} {reply : Reply TransactionList} {e : Error}
    (hpow : ¬ Env.proofOfWork)
    (hhandle : n.handleReceiveLatestBlock data clock connection = some reply)
    (h : reply.answer = .error e) : Untouched n reply.node := by
  unfold handleReceiveLatestBlock at hhandle
  cases hjudge : n.judge data clock connection with
  | error e' =>
    rw [hjudge] at hhandle
    cases hhandle
    exact .refl n
  | ok verdict =>
    rw [hjudge] at hhandle
    cases verdict with
    | ignore =>
      cases hhandle
      exact .refl n
    | requestAll b peerId peers =>
      obtain ⟨members, -, hhandle⟩ := Option.bind_eq_some_iff.mp hhandle
      cases hhandle
      cases h
    | append b =>
      cases happend : n.blockchain.appendNextBlock b (clock 1) with
      | mk r bc =>
        simp only [happend] at hhandle
        split at hhandle
        · cases hhandle
        · next heq =>
          cases hhandle
          cases heq
          obtain ⟨_, -, -, hsame⟩ | ⟨hok, -⟩ := Blockchain.appendNextBlock_cases happend
          · exact ⟨hsame hpow, rfl, rfl⟩
          · cases hok
        · obtain ⟨members, -, hhandle⟩ := Option.bind_eq_some_iff.mp hhandle
          cases hhandle
          cases h

theorem untouched_of_receiveAllBlocks {n : Node TransactionList} {data : Json} {clock : Clock}
    {reply : Reply TransactionList} {e : Error}
    (hhandle : n.handleReceiveAllBlocks data clock = some reply) (h : reply.answer = .error e) :
    Untouched n reply.node := by
  unfold handleReceiveAllBlocks at hhandle
  split at hhandle
  · cases hhandle
  · cases hhandle
    exact .refl n
  · obtain ⟨exceeds, -, hhandle⟩ := Option.bind_eq_some_iff.mp hhandle
    cases exceeds with
    | false =>
      cases hhandle
      cases h
    | true =>
      obtain ⟨members, -, hhandle⟩ := Option.bind_eq_some_iff.mp hhandle
      cases hhandle
      cases h

theorem receiveTransaction_eq_ok {m : TransactionMembers} {data : Json} {t : Transaction}
    (h : Transaction.fromJson data = .ok t) :
    (m.handleReceiveTransaction data).2.1 = .ok .null := by
  simp only [TransactionMembers.handleReceiveTransaction, h, bind, Except.bind, pure, Except.pure,
    Error.rethrow_ok]
  split <;> rfl

/-- Without `PROOF_OF_WORK` a message that fails leaves no trace: one whose handler
    throws, and a transaction that the pool does not take. -/
theorem failed_message_untouched (hpow : ¬ Env.proofOfWork) (n : Node TransactionList)
    (clock : Clock) (data : Json) :
    (∀ connection reply e,
      n.handle clock (.receiveLatestBlock data connection) = some reply →
      reply.answer = .error e → Untouched n reply.node) ∧
    (∀ reply e, n.handle clock (.receiveAllBlocks data) = some reply →
      reply.answer = .error e → Untouched n reply.node) ∧
    (∀ reply, n.handle clock (.other (.receiveTransaction data)) = some reply →
      (∃ e, reply.answer = .error e) ∨
        (∃ t e, Transaction.fromJson data = .ok t ∧
          n.unconfirmedPool.add (t.updateUnspentOutputs n.unspentOutputs) = .error e) →
      Untouched n reply.node) := by
  refine ⟨?_, ?_, ?_⟩
  · exact fun connection reply e hhandle => untouched_of_receiveLatestBlock hpow hhandle
  · exact fun reply e hhandle => untouched_of_receiveAllBlocks hhandle
  · intro reply hhandle hfails
    cases hhandle
    obtain hsame | ⟨j, t, pool, hoffer, hdecoded, hadd, -⟩ :=
      n.ledger.serve_cases (n.blockchain.blocks.map Block.data) (.receiveTransaction data)
    · exact ⟨rfl, congrArg TransactionMembers.unspentOutputs hsame,
        congrArg TransactionMembers.unconfirmedPool hsame⟩
    · cases hoffer
      obtain ⟨e, herror⟩ | ⟨t', e, hdecoded', hrefused⟩ := hfails
      · have hok := (receiveTransaction_eq_ok hdecoded).symm.trans herror
        cases hok
      · rw [hdecoded] at hdecoded'
        cases hdecoded'
        have hboth := hadd.symm.trans hrefused
        cases hboth

-- ---------------------------------------------------------------------------
-- POST /blocks
-- ---------------------------------------------------------------------------

/-- `data["address"].get<std::string>()` -/
def rewardAddress (data : Json) : Except Error String := do (← data.atKey "address").getString

/-- A request that names an address draws the whole pool. -/
theorem PoolSound.assemble_of_rewardAddress {n : Node TransactionList} {data : Json}
    {address : String} (h : n.PoolSound) (haddress : rewardAddress data = .ok address) :
    assemble n.members n.blockchain.length data =
      (.ok ⟨Transaction.reward address (UInt64.ofNat n.blockchain.length) :: n.unconfirmedPool⟩,
        ({ n.ledger with unconfirmedPool := [] } : TransactionMembers)) :=
  n.ledger.assemble_of_address n.blockchain.length h.length_le haddress

theorem assemble_of_not_rewardAddress {m : TransactionMembers} {length : Nat} {data : Json}
    {e : Error} (h : rewardAddress data = .error e) : m.assemble length data = (.error e, m) := by
  unfold rewardAddress at h
  simp only [TransactionMembers.assemble, h]

theorem poolSound_of_run {host : String} {port : UInt16}
    {inputs : List (Clock × Call TransactionList)} {n : Node TransactionList}
    (hrun : run step (new host port) inputs = some n) : n.PoolSound :=
  (EveryState.of_invariant (fun _ _ _ h hstep => h.step hstep) (poolSound_new host port)).last hrun

/-- Constructing a block of the whole pool does not throw exactly if every transaction
    in the pool suits the next block, the clock does not fall back by more than the
    accepted delay, and there is room for one more block. -/
theorem PoolSound.construct_eq_ok_iff {n : Node TransactionList} {address : String} {clock : Clock}
    {fuel : Nat} {r : Except Error Unit} {bc : Blockchain TransactionList} (h : n.PoolSound)
    (hconstruct : n.blockchain.constructNextBlock
      ⟨Transaction.reward address (UInt64.ofNat n.blockchain.length) :: n.unconfirmedPool⟩ clock
      fuel = some (r, bc)) :
    r = .ok () ↔
      BoundFits ∧ (∀ t ∈ n.unconfirmedPool, n.Suits t) ∧
      clock 0 - config.blockgenTimeMaxDelta < clock 1 ∧ n.blockchain.length < Env.maxSize := by
  have hcandidate : n.blockchain.length < Env.maxSize →
      ((n.blockchain.nextBlock ⟨Transaction.reward address (UInt64.ofNat n.blockchain.length) ::
          n.unconfirmedPool⟩ (clock 0)).valid (clock 1) = .ok () ↔
        (BoundFits ∧ ∀ t ∈ n.unconfirmedPool, n.Suits t) ∧
          clock 0 - config.blockgenTimeMaxDelta < clock 1) := by
    intro hroom
    rw [h.numbered.nextBlock_valid_iff hroom]
    exact and_congr_left' (h.valid_iff address)
  obtain ⟨e, rfl, -, hinvalid⟩ | ⟨e, rfl, -, hfull, -⟩ | ⟨rfl, b, hstep⟩ :=
    Blockchain.constructNextBlock_cases hconstruct
  · simp only [reduceCtorEq, false_iff]
    rintro ⟨hbound, hsuits, htime, hroom⟩
    exact hinvalid ((hcandidate hroom).mpr ⟨⟨hbound, hsuits⟩, htime⟩)
  · simp only [reduceCtorEq, false_iff]
    rintro ⟨-, -, -, hroom⟩
    exact hfull hroom
  · obtain ⟨⟨hbound, hsuits⟩, htime⟩ := (hcandidate hstep.room).mp hstep.valid
    exact ⟨fun _ => ⟨hbound, hsuits, htime, hstep.room⟩, fun _ => rfl⟩

/-- A request that names no address is refused before anything is drawn. -/
theorem untouched_of_not_rewardAddress {n : Node TransactionList} {clock : Clock} {data : Json}
    {fuel : Nat} {reply : Reply TransactionList} {e : Error}
    (haddress : rewardAddress data = .error e)
    (hhandle : n.handle clock (.blocksPost data fuel) = some reply) : Untouched n reply.node := by
  have hassemble : assemble n.members n.blockchain.length data = (.error e, n.members) :=
    assemble_of_not_rewardAddress haddress
  simp only [handle, handleBlocksPost, hassemble] at hhandle
  cases hhandle
  exact .refl n

/-- A request that fails after that has drawn the whole pool. -/
theorem PoolSound.drawn_of_construct_error {n : Node TransactionList} {clock : Clock} {data : Json}
    {fuel : Nat} {address : String} {e : Error} {bc : Blockchain TransactionList} (h : n.PoolSound)
    (haddress : rewardAddress data = .ok address)
    (hconstruct : n.blockchain.constructNextBlock
      ⟨Transaction.reward address (UInt64.ofNat n.blockchain.length) :: n.unconfirmedPool⟩ clock
      fuel = some (.error e, bc)) :
    ∃ reply e', n.handle clock (.blocksPost data fuel) = some reply ∧ reply.answer = .error e' ∧
      reply.node.blockchain.blocks = n.blockchain.blocks ∧
      reply.node.unspentOutputs = n.unspentOutputs ∧ reply.node.unconfirmedPool = [] := by
  have hassemble := h.assemble_of_rewardAddress haddress
  have hblocks : bc.blocks = n.blockchain.blocks := by
    obtain ⟨_, -, rfl, -⟩ | ⟨_, -, -, -, hbc⟩ | ⟨hok, -⟩ :=
      Blockchain.constructNextBlock_cases hconstruct
    · rfl
    · exact Blockchain.blocks_of_adjust hbc
    · cases hok
  obtain ⟨e', he'⟩ := Error.exists_rethrow_eq_error
    (fun what => .http 400 (malformed "POST /blocks" data what)) e (α := Json)
  exact ⟨_, e', handleBlocksPost_of_error hassemble hconstruct, he', hblocks, rfl, rfl⟩

/-- A request that names an address and does not fail has constructed its block. -/
theorem PoolSound.exists_construct {n : Node TransactionList} {clock : Clock} {data : Json}
    {fuel : Nat} {address : String} {reply : Reply TransactionList} (h : n.PoolSound)
    (haddress : rewardAddress data = .ok address)
    (hhandle : n.handle clock (.blocksPost data fuel) = some reply) :
    ∃ r bc, n.blockchain.constructNextBlock
      ⟨Transaction.reward address (UInt64.ofNat n.blockchain.length) :: n.unconfirmedPool⟩ clock
      fuel = some (r, bc) ∧ (r = .ok () → reply.answer = .ok .null) := by
  have hassemble := h.assemble_of_rewardAddress haddress
  simp only [handle, handleBlocksPost, hassemble] at hhandle
  split at hhandle
  · cases hhandle
  · next e bc hconstruct => exact ⟨_, _, hconstruct, fun hok => by cases hok⟩
  · next bc hconstruct =>
    obtain ⟨members, -, hhandle⟩ := Option.bind_eq_some_iff.mp hhandle
    cases hhandle
    exact ⟨_, _, hconstruct, fun _ => rfl⟩

/-- What `POST /blocks` leaves when it throws, on any node that has run: the pool is
    kept exactly if it was empty, the request names no address, or the call does not
    throw after drawing from it. -/
theorem failed_blocksPost_iff {host : String} {port : UInt16}
    {inputs : List (Clock × Call TransactionList)} {n : Node TransactionList} {clock : Clock}
    {data : Json} {fuel : Nat} {reply : Reply TransactionList}
    (hrun : run step (new host port) inputs = some n)
    (hhandle : n.handle clock (.blocksPost data fuel) = some reply) :
    (∀ e, reply.answer = .error e →
        reply.node.blockchain.blocks = n.blockchain.blocks ∧
        reply.node.unspentOutputs = n.unspentOutputs ∧
        reply.node.unconfirmedPool = n.unconfirmedPool) ↔
      n.unconfirmedPool = [] ∨ (∀ address, rewardAddress data ≠ .ok address) ∨
      (BoundFits ∧ (∀ t ∈ n.unconfirmedPool, n.Suits t) ∧
        clock 0 - config.blockgenTimeMaxDelta < clock 1 ∧
        n.blockchain.length < Env.maxSize) := by
  have hsound := poolSound_of_run hrun
  cases haddress : rewardAddress data with
  | error e =>
    have hsame := untouched_of_not_rewardAddress haddress hhandle
    constructor
    · exact fun _ => .inr (.inl fun address h => by cases h)
    · exact fun _ _ _ => ⟨congrArg _ hsame.blockchain, hsame.unspentOutputs, hsame.unconfirmedPool⟩
  | ok address =>
    obtain ⟨r, bc, hconstruct, hanswer⟩ := hsound.exists_construct haddress hhandle
    have hiff := hsound.construct_eq_ok_iff hconstruct
    cases r with
    | ok _ =>
      refine ⟨fun _ => .inr (.inr (hiff.mp rfl)), fun _ e he => ?_⟩
      rw [hanswer rfl] at he
      cases he
    | error e =>
      obtain ⟨reply', e', hhandle', he', hblocks, hutxos, hpool⟩ :=
        hsound.drawn_of_construct_error haddress hconstruct
      rw [hhandle] at hhandle'
      cases hhandle'
      constructor
      · exact fun h => .inl ((h e' he').2.2.symm.trans hpool)
      · rintro (hempty | hnone | hsuits) _ _
        · exact ⟨hblocks, hutxos, hpool.trans hempty.symm⟩
        · exact absurd rfl (hnone address)
        · cases hiff.mpr hsuits

end Node

/-- A clock that falls back between its first reading and the next. -/
def fallingClock : Clock where
  reading i := if i = 0 then 100000 else 0
  sinceEpoch i := by split_ifs <;> decide

/-- A block that comes after the first one, and is dated ahead of the epoch. -/
def aheadBlock : Block TransactionList :=
  letI := plainBuild
  afterReward.blockchain.nextBlock ⟨[Transaction.reward "bob" 1]⟩ 90000

def aheadMessage : Json :=
  .object [("block", aheadBlock.toJson),
    ("origin", .object [("host", .string "localhost"), ("port", .numberUnsigned 8333)])]

/-- When it is appended, the block is no longer valid. -/
theorem appendNextBlock_aheadBlock {b : Block TransactionList}
    (htimestamp : b.timestamp = aheadBlock.timestamp) :
    letI := plainBuild
    ∃ e bc, (afterSpending 1).blockchain.appendNextBlock b (fallingClock 1) = (.error e, bc) ∧
      e ≠ .crash := by
  let env := plainBuild
  cases happend : (afterSpending 1).blockchain.appendNextBlock b (fallingClock 1) with
  | mk r bc =>
    cases r with
    | ok _ =>
      obtain ⟨e, herror, -⟩ | ⟨-, hstep⟩ := Blockchain.appendNextBlock_cases happend
      · cases herror
      · have htime := (Block.valid_eq_ok.mp hstep.valid).2.1
        rw [htimestamp] at htime
        exact absurd htime (by decide +kernel)
    | error e =>
      refine ⟨e, bc, rfl, ?_⟩
      rintro rfl
      exact Blockchain.appendNextBlock_ne_crash (by decide) _ _ _ (congrArg Prod.fst happend)

/-- A node with a block, an unspent output and a pool is sent a block that it has
    checked when appending it fails. -/
theorem Node.failed_message_untouched_ahead :
    letI := plainBuild
    (afterSpending 1).blockchain.length = 1 ∧ (afterSpending 1).unspentOutputs = [aliceCoin] ∧
    (afterSpending 1).unconfirmedPool.length = 1 ∧
    ∃ b reply e,
      (afterSpending 1).judge aheadMessage fallingClock (.ok ()) = .ok (.append b) ∧
      (afterSpending 1).handle fallingClock (.receiveLatestBlock aheadMessage (.ok ())) =
        some reply ∧
      reply.answer = .error e ∧ Untouched (afterSpending 1) reply.node := by
  let env := plainBuild
  let b : Block TransactionList :=
    { aheadBlock with data := (afterSpending 1).ledger.link aheadBlock.data }
  have hreceived : (afterSpending 1).receivedBlock aheadMessage = .ok b :=
    receivedBlock_eq_ok.mpr ⟨_, _, rfl, aheadBlock.fromJson_toJson, rfl⟩
  have hvalid : b.valid (fallingClock 0) = .ok () := by
    have hdata : aheadBlock.data.valid 1 = .ok () :=
      TransactionList.valid_of_reward (by decide) (by simp)
    have hinputs : ∀ t ∈ aheadBlock.data.transactions, t.inputs = [] := by decide
    have hhash : b.hash = b.determineHash := by
      rw [← Block.determineHash_stored]
      exact (Blockchain.nextBlock_hash ..).trans aheadBlock.determineHash_stored.symm
    exact Block.valid_eq_ok.mpr ⟨TransactionList.valid_updateUnspentOutputs hdata hinputs _,
      by decide +kernel, hhash⟩
  have hadjoins : (afterSpending 1).adjoins b := by
    refine adjoins_iff.mpr ⟨nofun, fun last hlast => ?_⟩
    cases hlast
    exact Block.isSuccessorOf_iff.mpr ⟨by decide +kernel, rfl, rfl⟩
  have hjudge : (afterSpending 1).judge aheadMessage fallingClock (.ok ()) = .ok (.append b) :=
    judge_eq_ok.mpr ⟨b, hreceived, hvalid, .inr (.inl ⟨rfl, by rw [if_pos hadjoins]⟩)⟩
  obtain ⟨e, bc, happend, hne⟩ := appendNextBlock_aheadBlock (b := b) rfl
  obtain ⟨e', he'⟩ := Error.exists_rethrow_eq_error
    (fun what => .webSocket (malformed "receive_latest_block" aheadMessage what)) e (α := Json)
  have hhandle := handleReceiveLatestBlock_of_rejected hjudge happend hne
  exact ⟨rfl, rfl, rfl, b, _, e', hjudge, hhandle, he',
    (failed_message_untouched (by decide) _ _ _).1 _ _ _ hhandle he'⟩

/-- The reward for the first block is offered as a transaction for the pool. -/
def offeringRun : List (Clock × Node.Call TransactionList) :=
  [(.epoch, .other (.transactionsPost aliceReward.toJson))]

theorem run_offeringRun :
    letI := plainBuild
    run Node.step (Node.new "localhost" 8332) offeringRun = some offeredReward := by
  let env := plainBuild
  exact Option.bind_eq_some_iff.mpr ⟨_, Node.step_eq_some.mpr ⟨_, handle_offeredReward, rfl⟩, rfl⟩

/-- A request that does not name an address leaves the pool. -/
theorem Node.failed_blocksPost_null :
    letI := plainBuild
    ∃ reply e, offeredReward.handle .epoch (.blocksPost .null 0) = some reply ∧
      reply.answer = .error e ∧ reply.node.unconfirmedPool = [aliceReward] := by
  let env := plainBuild
  have hhandle : offeredReward.handle .epoch (.blocksPost .null 0) = some _ := rfl
  have hkept := (failed_blocksPost_iff run_offeringRun hhandle).mpr
    (.inr (.inl fun address h => by cases h))
  exact ⟨_, _, hhandle, rfl, (hkept _ rfl).2.2⟩

/-- The reward that waits in the pool is lost with a request that fails. -/
theorem Node.not_failed_blocksPost_reward :
    letI := plainBuild
    ∃ reply e, run step (new "localhost" 8332) offeringRun = some offeredReward ∧
      offeredReward.unconfirmedPool = [aliceReward] ∧
      offeredReward.handle .epoch (.blocksPost aliceMines 0) = some reply ∧
      reply.answer = .error e ∧ reply.node.unconfirmedPool = [] := by
  let env := plainBuild
  obtain ⟨-, e, hconstruct⟩ := construct_offeredReward
  have haddress : rewardAddress aliceMines = .ok "alice" := rfl
  obtain ⟨reply, e', hhandle, he', -, -, hpool⟩ :=
    (poolSound_of_run run_offeringRun).drawn_of_construct_error haddress hconstruct
  exact ⟨reply, e', run_offeringRun, rfl, hhandle, he', hpool⟩

end BuenzliCoin
