-- SUMMARY: When the pool of a node can be mined: what it admits against what a block may hold.
import BuenzliCoin.Node.Sync
import BuenzliCoin.Node.Validity

/-!
# Mining the pool

A transaction is checked when it is added to the pool, and again when the list
that it is in is mined. The second check also looks at the type and the index of
the transaction, which the first does not.
-/

namespace BuenzliCoin

open NodeData Runs

-- ---------------------------------------------------------------------------
-- Assembling
-- ---------------------------------------------------------------------------

namespace TransactionMembers

theorem draw_of_length_le {n : Nat} {pool : TransactionUnconfirmedPool} (h : pool.length ≤ n) :
    draw n pool = (pool, []) := by
  induction n generalizing pool with
  | zero =>
    obtain rfl := List.length_eq_zero_iff.mp (Nat.le_zero.mp h)
    rfl
  | succ n ih =>
    cases pool with
    | nil => rfl
    | cons t pool =>
      have hrest := ih (Nat.le_of_succ_le_succ h)
      simp only [draw, TransactionUnconfirmedPool.next, hrest]

variable [Env]

/-- A pool within its bound is mined as a whole. -/
theorem assemble_of_length_le {m m' : TransactionMembers} {length : Nat} {data : Json}
    {ts : TransactionList} (hpool : m.unconfirmedPool.length ≤ config.transactionNumPerBlock.toNat)
    (h : m.assemble length data = (.ok ts, m')) :
    ∃ address, ts = ⟨Transaction.reward address (UInt64.ofNat length) :: m.unconfirmedPool⟩ ∧
      m'.unconfirmedPool = [] := by
  unfold assemble at h
  split at h
  · cases h
  · next address _ =>
    rw [draw_of_length_le hpool] at h
    cases h
    exact ⟨address, rfl, rfl⟩

theorem assemble_of_address (m : TransactionMembers) (length : Nat) {data : Json} {address : String}
    (hpool : m.unconfirmedPool.length ≤ config.transactionNumPerBlock.toNat)
    (haddress : (do (← data.atKey "address").getString) = .ok address) :
    m.assemble length data =
      (.ok ⟨Transaction.reward address (UInt64.ofNat length) :: m.unconfirmedPool⟩,
        { m with unconfirmedPool := [] }) := by
  have hdraw := draw_of_length_le hpool
  simp only [assemble, haddress, hdraw]

end TransactionMembers

namespace Node

variable [Env]

-- ---------------------------------------------------------------------------
-- What can be mined
-- ---------------------------------------------------------------------------

/-- For every reward address, the list that `POST /blocks` assembles is valid, and
    constructing a block of it does not throw. -/
def Mines (n : Node TransactionList) : Prop :=
  ∀ data ts m, n.ledger.assemble n.blockchain.length data = (.ok ts, m) →
    ts.valid (UInt64.ofNat n.blockchain.length) = .ok () ∧
    ∀ (clock : Clock) (fuel : Nat) r bc, clock.NonDecreasing →
      n.blockchain.length < Env.maxSize →
      n.blockchain.constructNextBlock ts clock fuel = some (r, bc) → r = .ok ()

/-- A transaction that may stand in the next block, after the reward. -/
def Suits (n : Node TransactionList) (t : Transaction) : Prop :=
  t.type = .standard ∧ t.index = UInt64.ofNat n.blockchain.length

/-- What all calls keep. -/
structure PoolSound (n : Node TransactionList) : Prop where
  numbered : Blockchain.Numbered n.blockchain.blocks
  length_le : n.unconfirmedPool.length ≤ config.transactionNumPerBlock.toNat
  valid : ∀ t ∈ n.unconfirmedPool, t.valid = .ok ()

theorem poolSound_new (host : String) (port : UInt16) :
    (new host port : Node TransactionList).PoolSound where
  numbered := Blockchain.numbered_nil
  length_le := Nat.zero_le _
  valid t ht := by cases ht

theorem PoolSound.of_sublist {n n' : Node TransactionList} (h : n.PoolSound)
    (hnumbered : Blockchain.Numbered n'.blockchain.blocks)
    (hpool : n'.unconfirmedPool.Sublist n.unconfirmedPool) : n'.PoolSound where
  numbered := hnumbered
  length_le := hpool.length_le.trans h.length_le
  valid t ht := h.valid t (hpool.mem ht)

/-! ## How the pool changes -/

omit [Env] in
/-- No loop over the pool empties it. -/
theorem received_pool_eq_nil_iff {m m' : TransactionMembers} {ts : TransactionList}
    (h : m.received ts = some m') : m'.unconfirmedPool = [] ↔ m.unconfirmedPool = [] := by
  obtain ⟨-, pool, hpool, hpruned⟩ := TransactionMembers.received_eq_some h
  have hprune : m'.unconfirmedPool = [] ↔ pool = [] := by
    constructor
    · intro hnil
      rw [hnil] at hpruned
      exact EraseLoop.checkedLoop_eq_nil_iff.mp hpruned
    · rintro rfl
      exact (Option.some.inj hpruned).symm
  rw [hprune]
  exact TransactionUnconfirmedPool.eq_nil_iff_of_foldlM_remove? hpool

/-- The call adds the transaction to the pool. -/
def Pools (n : Node TransactionList) (input : Clock × Call TransactionList) (t : Transaction) :
    Prop :=
  ∃ request j t₀ pool, input.2 = .other request ∧ request.offer? = some j ∧
    Transaction.fromJson j = .ok t₀ ∧ t = t₀.updateUnspentOutputs n.unspentOutputs ∧
    n.unconfirmedPool.add t = .ok pool

/-- The call receives the block and appends it. -/
def Receives (n : Node TransactionList) (input : Clock × Call TransactionList)
    (b : Block TransactionList) : Prop :=
  ∃ data connection bc, input.2 = .receiveLatestBlock data connection ∧
    n.judge data input.1 connection = .ok (.append b) ∧
    n.blockchain.appendNextBlock b (input.1 1) = (.ok (), bc)

theorem Pools.step {n n' : Node TransactionList} {input : Clock × Call TransactionList}
    {t : Transaction} (h : n.Pools input t) (hstep : n.step input = some n') :
    n'.blockchain = n.blockchain ∧ n'.unconfirmedPool = n.unconfirmedPool ++ [t] := by
  obtain ⟨clock, call⟩ := input
  obtain ⟨request, j, t₀, pool, rfl, hoffer, hdecoded, rfl, hadd⟩ := h
  obtain ⟨reply, hhandle, rfl⟩ := step_eq_some.mp hstep
  cases hhandle
  refine ⟨rfl, ?_⟩
  have hserve : (n.ledger.serve (n.blockchain.blocks.map Block.data) request).1 =
      { n.ledger with unconfirmedPool := pool } :=
    TransactionMembers.serve_of_offer hoffer hdecoded hadd
  have hpool := congrArg TransactionMembers.unconfirmedPool hserve
  exact hpool.trans (TransactionUnconfirmedPool.add_eq_ok.mp hadd).2.2.2

theorem Receives.step {n n' : Node TransactionList} {input : Clock × Call TransactionList}
    {b : Block TransactionList} (h : n.Receives input b) (hstep : n.step input = some n') :
    n'.blockchain.blocks = n.blockchain.blocks ++ [b] ∧
      n.ledger.received b.data = some n'.ledger := by
  obtain ⟨clock, call⟩ := input
  obtain ⟨data, connection, bc, rfl, hjudged, happended⟩ := h
  obtain ⟨reply, hhandle, rfl⟩ := step_eq_some.mp hstep
  simp only [handle, handleReceiveLatestBlock, hjudged, happended] at hhandle
  obtain ⟨members, hmembers, hhandle⟩ := Option.bind_eq_some_iff.mp hhandle
  cases hhandle
  obtain ⟨e, herror, -⟩ | ⟨-, hstep⟩ := Blockchain.appendNextBlock_cases happended
  · cases herror
  · exact ⟨hstep.blocks, hmembers⟩

/-- Every other call leaves a part of the pool, and nothing of it if the chain
    changes. -/
theorem pool_of_step {n n' : Node TransactionList} {input : Clock × Call TransactionList}
    (hsound : n.PoolSound) (hpools : ∀ t, ¬ n.Pools input t) (hreceives : ∀ b, ¬ n.Receives input b)
    (hstep : n.step input = some n') :
    (n'.blockchain.blocks = n.blockchain.blocks ∧
      n'.unconfirmedPool.Sublist n.unconfirmedPool) ∨ n'.unconfirmedPool = [] := by
  obtain ⟨clock, call⟩ := input
  obtain ⟨reply, hhandle, rfl⟩ := step_eq_some.mp hstep
  have hsame : ∀ {n' : Node TransactionList}, n'.members = n.members →
      n'.unconfirmedPool.Sublist n.unconfirmedPool := by
    intro n' hmembers
    have hledger : n'.ledger = n.ledger := hmembers
    rw [unconfirmedPool, hledger]
    exact .refl _
  cases handle_callStep hhandle with
  | idle hblockchain hmembers => exact .inl ⟨congrArg _ hblockchain, hsame hmembers⟩
  | refused hassembled hblocks _ =>
    exact .inl ⟨hblocks, TransactionMembers.assemble_sublist hassembled⟩
  | constructed hassembled _ _ hmembers =>
    obtain ⟨address, -, hempty⟩ :=
      TransactionMembers.assemble_of_length_le hsound.length_le hassembled
    have hsublist := TransactionMembers.mined_sublist hmembers
    rw [hempty] at hsublist
    exact .inr (List.sublist_nil.mp hsublist)
  | rejected _ hblocks _ hmembers => exact .inl ⟨hblocks, hsame hmembers⟩
  | appended hjudged happended _ _ =>
    exact absurd ⟨_, _, _, rfl, hjudged, happended⟩ (hreceives _)
  | skipped _ hblockchain hmembers =>
    exact .inl ⟨congrArg _ hblockchain, TransactionMembers.received_sublist hmembers⟩
  | replaced _ _ hmembers =>
    have hledger := TransactionMembers.setup_eq_some hmembers
    exact .inr (congrArg TransactionMembers.unconfirmedPool hledger)
  | @served request _ hblockchain hmembers =>
    obtain hserve | ⟨j, t, pool, hoffer, hdecoded, hadd, -⟩ :=
      n.ledger.serve_cases (n.blockchain.blocks.map Block.data) request
    · exact .inl ⟨congrArg _ hblockchain, hsame (hmembers.trans hserve)⟩
    · exact absurd ⟨request, j, t, pool, rfl, hoffer, hdecoded, rfl, hadd⟩ (hpools _)

theorem PoolSound.step {n n' : Node TransactionList} {input : Clock × Call TransactionList}
    (h : n.PoolSound) (hstep : n.step input = some n') : n'.PoolSound := by
  have hnumbered : Blockchain.Numbered n'.blockchain.blocks := by
    obtain ⟨reply, hhandle, rfl⟩ := step_eq_some.mp hstep
    exact (handle_chainStep hhandle).numbered h.numbered
  by_cases hpools : ∃ t, n.Pools input t
  · obtain ⟨t, ht⟩ := hpools
    obtain ⟨-, hpool⟩ := ht.step hstep
    obtain ⟨request, j, t₀, pool, -, -, -, -, hadd⟩ := ht
    obtain ⟨hroom, hvalid, -, -⟩ := TransactionUnconfirmedPool.add_eq_ok.mp hadd
    have hle := h.length_le
    refine ⟨hnumbered, ?_, ?_⟩
    · rw [hpool, List.length_append, List.length_singleton]
      omega
    · intro t' ht'
      rw [hpool, List.mem_append, List.mem_singleton] at ht'
      rcases ht' with ht' | rfl
      · exact h.valid t' ht'
      · exact hvalid
  · by_cases hreceives : ∃ b, n.Receives input b
    · obtain ⟨b, hb⟩ := hreceives
      obtain ⟨-, hreceived⟩ := hb.step hstep
      exact h.of_sublist hnumbered (TransactionMembers.received_sublist hreceived)
    · obtain ⟨-, hpool⟩ | hpool :=
        pool_of_step h (not_exists.mp hpools) (not_exists.mp hreceives) hstep
      · exact h.of_sublist hnumbered hpool
      · apply h.of_sublist hnumbered
        rw [hpool]
        exact List.nil_sublist _

-- ---------------------------------------------------------------------------
-- When the pool can be mined
-- ---------------------------------------------------------------------------

/-- The bound on the transactions of a block, which counts the reward as well,
    does not overflow. -/
def BoundFits : Prop := config.transactionNumPerBlock.toNat + 1 < 2 ^ 64

/-- The list that is assembled from a pool within its bound is valid exactly if every
    transaction in the pool suits the next block. -/
theorem PoolSound.valid_iff {n : Node TransactionList} (h : n.PoolSound) (address : String) :
    (TransactionList.mk (Transaction.reward address (UInt64.ofNat n.blockchain.length) ::
      n.unconfirmedPool)).valid (UInt64.ofNat n.blockchain.length) = .ok () ↔
      BoundFits ∧ ∀ t ∈ n.unconfirmedPool, n.Suits t := by
  have hle := h.length_le
  unfold BoundFits
  constructor
  · intro hvalid
    obtain ⟨hlength, hindex, htype⟩ := TransactionList.valid_eq_ok.mp hvalid
    constructor
    · have hbound := config.transactionNumPerBlock.toNat_lt
      rw [UInt64.toNat_add, UInt64.toNat_one, List.length_cons] at hlength
      omega
    · intro t ht
      refine ⟨?_, (hindex t (List.mem_cons_of_mem _ ht)).1⟩
      obtain ⟨k, hk, rfl⟩ := List.getElem_of_mem ht
      exact htype (k + 1) (Nat.succ_lt_succ hk)
  · rintro ⟨hbound, hsuits⟩
    apply TransactionList.valid_of_reward
    · rw [UInt64.toNat_add, UInt64.toNat_one]
      omega
    · intro t ht
      exact ⟨(hsuits t ht).1, (hsuits t ht).2, h.valid t ht⟩

theorem Mines.suits {n : Node TransactionList} (h : n.Mines) (hsound : n.PoolSound) :
    BoundFits ∧ ∀ t ∈ n.unconfirmedPool, n.Suits t := by
  let data : Json := .object [("address", .string "")]
  have haddress : (do (← data.atKey "address").getString) = .ok "" := rfl
  have hassemble := n.ledger.assemble_of_address n.blockchain.length hsound.length_le haddress
  obtain ⟨hvalid, -⟩ := h _ _ _ hassemble
  exact (hsound.valid_iff "").mp hvalid

theorem constructNextBlock_of_suits {n : Node TransactionList} {ts : TransactionList}
    {clock : Clock} {fuel : Nat} {r : Except Error Unit} {bc : Blockchain TransactionList}
    (hδ : 0 < config.blockgenTimeMaxDelta) (hnumbered : Blockchain.Numbered n.blockchain.blocks)
    (hvalid : ts.valid (UInt64.ofNat n.blockchain.length) = .ok ())
    (hclock : clock.NonDecreasing) (hroom : n.blockchain.length < Env.maxSize)
    (hconstruct : n.blockchain.constructNextBlock ts clock fuel = some (r, bc)) : r = .ok () := by
  obtain ⟨e, -, -, hinvalid⟩ | ⟨e, -, -, hfull, -⟩ | ⟨hok, -⟩ :=
    Blockchain.constructNextBlock_cases hconstruct
  · refine absurd ((hnumbered.nextBlock_valid_iff hroom).mpr ⟨hvalid, ?_⟩) hinvalid
    exact TimePoint.lt_of_lt_of_le (TimePoint.sub_lt (clock.sinceEpoch 0) hδ)
      (hclock 0 1 (Nat.zero_le 1))
  · exact absurd hroom hfull
  · exact hok

/-- A pool can be mined exactly if every transaction in it suits the next block. -/
theorem PoolSound.mines_iff {n : Node TransactionList} (h : n.PoolSound)
    (hδ : 0 < config.blockgenTimeMaxDelta) :
    n.Mines ↔ BoundFits ∧ ∀ t ∈ n.unconfirmedPool, n.Suits t := by
  refine ⟨fun hmines => hmines.suits h, ?_⟩
  intro hsuits data ts m hassemble
  obtain ⟨address, rfl, -⟩ := TransactionMembers.assemble_of_length_le h.length_le hassemble
  have hvalid := (h.valid_iff address).mpr hsuits
  exact ⟨hvalid, fun clock fuel r bc hclock hroom hconstruct =>
    constructNextBlock_of_suits hδ h.numbered hvalid hclock hroom hconstruct⟩

-- ---------------------------------------------------------------------------
-- Runs
-- ---------------------------------------------------------------------------

/-- A transaction that the call adds to the pool suits the next block, and a block
    that the call receives and appends finds nothing in the pool. -/
def PoolsWell (n : Node TransactionList) (input : Clock × Call TransactionList) : Prop :=
  (∀ t, n.Pools input t → n.Suits t) ∧ ∀ b, n.Receives input b → n.unconfirmedPool = []

/-- A transaction whose index is the length of a chain is of no use for a longer one. -/
theorem not_suits_of_added {n n' : Node TransactionList} {b : Block TransactionList}
    {t : Transaction} (hnumbered : Blockchain.Numbered n'.blockchain.blocks)
    (hblocks : n'.blockchain.blocks = n.blockchain.blocks ++ [b]) (h : n.Suits t) :
    ¬ n'.Suits t := by
  intro h'
  have hlength : n'.blockchain.length = n.blockchain.length + 1 := by
    rw [Blockchain.length, hblocks, List.length_append, List.length_singleton, Blockchain.length]
  have hsize := Env.maxSize_lt
  have hle : n'.blockchain.length ≤ Env.maxSize := hnumbered.length_le
  have hindex := congrArg UInt64.toNat (h.2.symm.trans h'.2)
  rw [hlength, UInt64.toNat_ofNat', UInt64.toNat_ofNat'] at hindex
  omega

omit [Env] in
theorem suits_iff_of_blocks {n n' : Node TransactionList}
    (hblocks : n'.blockchain.blocks = n.blockchain.blocks) (t : Transaction) :
    n'.Suits t ↔ n.Suits t := by
  rw [Suits, Suits, Blockchain.length, Blockchain.length, hblocks]

/-- No call adds to the pool and receives a block. -/
theorem Pools.not_receives {n : Node TransactionList} {input : Clock × Call TransactionList}
    {t : Transaction} {b : Block TransactionList} (ht : n.Pools input t) :
    ¬ n.Receives input b := by
  rintro ⟨data, connection, _, hcall', -⟩
  obtain ⟨request, _, _, _, hcall, -⟩ := ht
  rw [hcall] at hcall'
  cases hcall'

/-- What is added to a pool that suits has to suit. -/
theorem Pools.forall_suits_iff {n n' : Node TransactionList}
    {input : Clock × Call TransactionList} {t : Transaction} (ht : n.Pools input t)
    (hsuits : ∀ t ∈ n.unconfirmedPool, n.Suits t) (hstep : n.step input = some n') :
    (∀ t ∈ n'.unconfirmedPool, n'.Suits t) ↔ n.PoolsWell input := by
  obtain ⟨hblockchain, hpool⟩ := ht.step hstep
  have hkept := suits_iff_of_blocks (congrArg _ hblockchain)
  constructor
  · intro hall
    refine ⟨fun t' ht' => ?_, fun b hb => absurd hb ht.not_receives⟩
    obtain ⟨-, hpool'⟩ := ht'.step hstep
    apply (hkept t').mp
    apply hall t'
    rw [hpool']
    exact List.mem_append_right _ (List.mem_singleton_self t')
  · rintro ⟨hadmits, -⟩ t' ht'
    apply (hkept t').mpr
    rw [hpool, List.mem_append, List.mem_singleton] at ht'
    rcases ht' with ht' | rfl
    · exact hsuits t' ht'
    · exact hadmits t' ht

/-- A block that is received has to find the pool empty, as nothing in it suits any
    longer, and the loops leave something of it. -/
theorem Receives.forall_suits_iff {n n' : Node TransactionList}
    {input : Clock × Call TransactionList} {b : Block TransactionList} (hb : n.Receives input b)
    (hnumbered : Blockchain.Numbered n'.blockchain.blocks)
    (hsuits : ∀ t ∈ n.unconfirmedPool, n.Suits t) (hstep : n.step input = some n') :
    (∀ t ∈ n'.unconfirmedPool, n'.Suits t) ↔ n.PoolsWell input := by
  obtain ⟨hblocks, hreceived⟩ := hb.step hstep
  have hempty : n'.unconfirmedPool = [] ↔ n.unconfirmedPool = [] :=
    received_pool_eq_nil_iff hreceived
  constructor
  · intro hall
    refine ⟨fun t ht => absurd hb ht.not_receives, fun b' hb' => ?_⟩
    rw [← hempty, List.eq_nil_iff_forall_not_mem]
    intro t ht
    have hmem : t ∈ n.unconfirmedPool := (TransactionMembers.received_sublist hreceived).mem ht
    exact not_suits_of_added hnumbered hblocks (hsuits t hmem) (hall t ht)
  · rintro ⟨-, hfinds⟩ t ht
    rw [hempty.mpr (hfinds b hb)] at ht
    cases ht

/-- One call on a node whose pool can be mined. -/
theorem Mines.step_iff {n n' : Node TransactionList} {input : Clock × Call TransactionList}
    (hδ : 0 < config.blockgenTimeMaxDelta) (hsound : n.PoolSound) (h : n.Mines)
    (hstep : n.step input = some n') : n'.Mines ↔ n.PoolsWell input := by
  obtain ⟨hbound, hsuits⟩ := h.suits hsound
  have hsound' := hsound.step hstep
  rw [hsound'.mines_iff hδ, and_iff_right hbound]
  by_cases hpools : ∃ t, n.Pools input t
  · obtain ⟨t, ht⟩ := hpools
    exact ht.forall_suits_iff hsuits hstep
  by_cases hreceives : ∃ b, n.Receives input b
  · obtain ⟨b, hb⟩ := hreceives
    exact hb.forall_suits_iff hsound'.numbered hsuits hstep
  constructor
  · intro _
    exact ⟨fun t ht => absurd ⟨t, ht⟩ hpools, fun b hb => absurd ⟨b, hb⟩ hreceives⟩
  · intro _ t ht
    obtain ⟨hblocks, hpool⟩ | hpool :=
      pool_of_step hsound (not_exists.mp hpools) (not_exists.mp hreceives) hstep
    · exact (suits_iff_of_blocks hblocks t).mpr (hsuits t (hpool.mem ht))
    · rw [hpool] at ht
      cases ht

/-- The pool can be mined throughout a run exactly if the bound fits and no call
    puts into the pool, or leaves in it, what the next block may not hold. -/
theorem everyState_mines_iff (hδ : 0 < config.blockgenTimeMaxDelta) (host : String) (port : UInt16)
    (inputs : List (Clock × Call TransactionList)) :
    EveryState step Mines (new host port) inputs ↔
      BoundFits ∧ EveryStep step PoolsWell (new host port) inputs := by
  have hsound := poolSound_new host port
  have hnew : (new host port : Node TransactionList).Mines ↔ BoundFits := by
    rw [hsound.mines_iff hδ]
    exact ⟨And.left, fun hbound => ⟨hbound, fun t ht => by cases ht⟩⟩
  have hrun : (new host port : Node TransactionList).Mines →
      (EveryState step Mines (new host port) inputs ↔
        EveryStep step PoolsWell (new host port) inputs) :=
    everyState_iff_everyStep_of_invariant (fun _ _ _ hsound hstep => hsound.step hstep)
      (fun _ _ _ hsound h hstep => h.step_iff hδ hsound hstep) hsound
  constructor
  · intro h
    exact ⟨hnew.mp h.head, (hrun h.head).mp h⟩
  · rintro ⟨hbound, hsteps⟩
    exact (hrun (hnew.mpr hbound)).mpr hsteps

end Node

/-- Alice mines a block, spends the reward, and mines another one. -/
theorem Node.everyState_mines_spending :
    letI := plainBuild
    (∃ n : Node TransactionList, run step (new "localhost" 8332) (spendingRun 1) = some n ∧
      n.blockchain.length = 2) ∧
    EveryState step Mines (new "localhost" 8332) (spendingRun 1) := by
  let env := plainBuild
  obtain ⟨n, hrun, -, -, hlength, -⟩ := run_spending (k := 1) (by decide) (by decide +kernel)
  refine ⟨⟨n, hrun, hlength⟩, ?_⟩
  apply (everyState_mines_iff (by decide) "localhost" 8332 _).mpr
  have hvacuous : ∀ (n : Node TransactionList) (clock : Clock) (data : Json) (fuel : Nat),
      n.PoolsWell (clock, .blocksPost data fuel) := by
    intro n clock data fuel
    refine ⟨?_, ?_⟩
    · rintro t ⟨request, _, _, _, hcall, -⟩
      cases hcall
    · rintro b ⟨data', connection, _, hcall, -⟩
      cases hcall
  have hpooled :
      afterReward.PoolsWell (.epoch, .other (.transactionsPost (spending 1).toJson)) := by
    refine ⟨?_, ?_⟩
    · rintro t ⟨request, j, t₀, _, hcall, hoffer, hdecoded, rfl, -⟩
      cases hcall
      cases hoffer
      rw [Transaction.fromJson_toJson] at hdecoded
      cases hdecoded
      exact ⟨rfl, rfl⟩
    · rintro b ⟨data', connection, _, hcall, -⟩
      cases hcall
  refine ⟨by unfold BoundFits; decide, ?_⟩
  apply (everyStep_spendingRun_iff (by decide) (by decide +kernel)).mpr
  exact ⟨hvacuous _ _ _ _, hpooled, hvacuous _ _ _ _⟩

/-- The node that was sent the reward for its first block as a transaction for the pool. -/
def offeredReward : Node TransactionList where
  host := "localhost"
  port := 8332
  blockchain :=
    letI := plainBuild
    .new
  members := ({ unspentOutputs := [], unconfirmedPool := [aliceReward] } : TransactionMembers)
  peers := []

theorem handle_offeredReward :
    letI := plainBuild
    (Node.new "localhost" 8332 : Node TransactionList).handle .epoch
      (.other (.transactionsPost aliceReward.toJson)) =
      some ⟨offeredReward, .ok .null, [.broadcastTransaction aliceReward]⟩ := by
  let env := plainBuild
  have hvalid : (aliceReward.updateUnspentOutputs []).valid = .ok () :=
    Transaction.validReward_eq_ok.mpr ⟨rfl, rfl, _, rfl, rfl⟩
  have hadd : TransactionUnconfirmedPool.add [] (aliceReward.updateUnspentOutputs []) =
      .ok [aliceReward] := TransactionUnconfirmedPool.add_eq_ok.mpr ⟨by decide, hvalid, rfl, rfl⟩
  have hhandle : (Node.new "localhost" 8332 : Node TransactionList).handle .epoch
      (.other (.transactionsPost aliceReward.toJson)) = some _ :=
    Node.handleTransactionsPost_of_valid aliceReward.fromJson_toJson hadd
  exact hhandle

/-- Two rewards do not go together. -/
theorem construct_offeredReward :
    letI := plainBuild
    (TransactionList.mk [aliceReward, aliceReward]).valid 0 ≠ .ok () ∧
    ∃ e, offeredReward.blockchain.constructNextBlock ⟨[aliceReward, aliceReward]⟩ .epoch 0 =
      some (.error e, offeredReward.blockchain) := by
  let env := plainBuild
  have hinvalid : (TransactionList.mk [aliceReward, aliceReward]).valid 0 ≠ .ok () := by
    intro hvalid
    have htype := (TransactionList.valid_eq_ok.mp hvalid).2.2 1 Nat.one_lt_two
    cases htype
  refine ⟨hinvalid, ?_⟩
  simp only [Blockchain.constructNextBlock]
  cases hblock : (Blockchain.nextBlock _ (TransactionList.mk [aliceReward, aliceReward])
      (Clock.epoch 0)).valid (Clock.epoch 1) with
  | error e => exact ⟨_, rfl⟩
  | ok _ => exact absurd (Block.valid_eq_ok.mp hblock).1 hinvalid

/-- A node that is sent a reward for the block it is to mine next, as a transaction
    for the pool, can mine nothing any more. -/
theorem Node.not_mines_of_reward :
    letI := plainBuild
    0 < config.blockgenTimeMaxDelta ∧
    ∃ n : Node TransactionList,
      (new "localhost" 8332 : Node TransactionList).step
        (.epoch, .other (.transactionsPost aliceReward.toJson)) = some n ∧
      n.ReachableBy 0 ∧
      ∃ ts m, n.ledger.assemble n.blockchain.length aliceMines = (.ok ts, m) ∧
        ts.valid (UInt64.ofNat n.blockchain.length) ≠ .ok () ∧
        ∃ e bc, n.blockchain.constructNextBlock ts Clock.epoch 0 = some (.error e, bc) := by
  let env := plainBuild
  have hreachable := (ReachableBy.new "localhost" 8332 0).handle (by decide) (by decide)
    handle_offeredReward
  obtain ⟨hinvalid, e, hconstruct⟩ := construct_offeredReward
  exact ⟨by decide, offeredReward, step_eq_some.mpr ⟨_, handle_offeredReward, rfl⟩, hreachable,
    ⟨[aliceReward, aliceReward]⟩, _, rfl, hinvalid, e, _, hconstruct⟩

end BuenzliCoin
