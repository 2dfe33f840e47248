-- SUMMARY: The startup of a node under a configuration file: which configurations come too late for the chain.
import Mathlib.Algebra.Order.Archimedean.Basic
import BuenzliCoin.Chain.Retarget
import BuenzliCoin.Chain.Validity
import BuenzliCoin.Chain.Work
import BuenzliCoin.Ledger.Validation

/-!
# Startup

The configuration is one variable of the program, and starts out with the
defaults. `main` constructs or loads the chain first, and reads the configuration
file after that.
-/

namespace BuenzliCoin

open ClampedRatio Runs

-- ---------------------------------------------------------------------------
-- Configuration files
-- ---------------------------------------------------------------------------

/-- A file that `toml::parse_file` has read: what `value<T>()` gives for an entry
    of a table, if there are such a table and entry and a value of that type. -/
structure Toml where
  interval : String → String → Option TimePoint
  double : String → String → Option ℚ
  size : String → String → Option UInt64

namespace Config

def fromDefaults : Config := {}

/-- An entry that the file does not have keeps its default. -/
def fromToml (t : Toml) : Config :=
  let cfg : Config := {}
  { blockgenTimeExpected :=
      (t.interval "blockgen" "time_expected").getD cfg.blockgenTimeExpected
    blockgenTimeMaxDelta :=
      (t.interval "blockgen" "time_max_delta").getD cfg.blockgenTimeMaxDelta
    blockgenDifficultyInit :=
      (t.double "blockgen" "difficulty_init").getD cfg.blockgenDifficultyInit
    blockgenDifficultyAdjustAfter :=
      (t.size "blockgen" "difficulty_adjust_after").getD cfg.blockgenDifficultyAdjustAfter
    blockgenDifficultyAdjustFactorLimit :=
      (t.double "blockgen" "difficulty_adjust_factor_limit").getD
        cfg.blockgenDifficultyAdjustFactorLimit
    transactionNumPerBlock :=
      (t.size "transaction" "num_per_block").getD cfg.transactionNumPerBlock
    transactionRewardAmount :=
      (t.size "transaction" "reward_amount").getD cfg.transactionRewardAmount }

end Config

/-- The program with the given configuration in `config()`. -/
abbrev Env.configured (env : Env) (cfg : Config) : Env := { env with config := cfg }

-- ---------------------------------------------------------------------------
-- Startup
-- ---------------------------------------------------------------------------

/-- `bc`, after the chain file has been read if the option names one. -/
def loadChain (T : Type) [BlockData T] [Env] (blockchain : Option (Except Error Json))
    (clock : Clock) : Except Error (Blockchain T) :=
  match blockchain with
  | none => .ok .new
  | some contents => do Blockchain.fromJson (← contents) clock

/-- What `config()` is set to. -/
def readConfig : Option (Except Error Toml) → Except Error Config
  | none => .ok .fromDefaults
  | some contents => do return .fromToml (← contents)

/-- `main` up to `create_node`, given what the two files contain, or why they cannot
    be read, if the options name them. -/
def startup (T : Type) [BlockData T] [env : Env] (blockchain : Option (Except Error Json))
    (configuration : Option (Except Error Toml)) (clock : Clock) :
    Except Error (Blockchain T × Config) := do
  let bc ←
    letI := env.configured {}
    loadChain T blockchain clock
  let cfg ← readConfig configuration
  return (bc, cfg)

/-- The same in the order that the chain would need. -/
def configuredStartup (T : Type) [BlockData T] [env : Env] (blockchain : Option (Except Error Json))
    (configuration : Option (Except Error Toml)) (clock : Clock) :
    Except Error (Blockchain T × Config) := do
  let cfg ← readConfig configuration
  let bc ←
    letI := env.configured cfg
    loadChain T blockchain clock
  return (bc, cfg)

/-- What a chain consists of: the adjuster is there in `PROOF_OF_WORK` builds only. -/
def Blockchain.contents {T : Type} [Env] (bc : Blockchain T) :
    List (Block T) × Option DifficultyAdjuster :=
  (bc.blocks, if Env.proofOfWork then some bc.difficultyAdjuster else none)

/-- The chain that a node starts with, if it starts. -/
def outcome {T : Type} [Env] (r : Except Error (Blockchain T × Config)) :
    Option (List (Block T) × Option DifficultyAdjuster) :=
  r.toOption.map fun (bc, _) => bc.contents

/-- Whatever the chain file, under this configuration file the order makes no
    difference. -/
def StartsAlike (T : Type) [BlockData T] (proofOfWork : Bool) (toml : Toml) : Prop :=
  ∀ env : Env, env.proofOfWork = proofOfWork →
    ∀ (blockchain : Option (Except Error Json)) (clock : Clock),
      outcome (startup T blockchain (some (.ok toml)) clock) =
        outcome (configuredStartup T blockchain (some (.ok toml)) clock)

/-- The configuration has the defaults in all that the chain reads. -/
structure KeepsDefaults (proofOfWork : Bool) (cfg : Config) : Prop where
  maxDelta : cfg.blockgenTimeMaxDelta = 60000
  init : proofOfWork → cfg.blockgenDifficultyInit = 2
  adjustAfter : proofOfWork → cfg.blockgenDifficultyAdjustAfter = 10
  factorLimit : proofOfWork → cfg.blockgenDifficultyAdjustFactorLimit = 16
  totalTimeExpected : proofOfWork →
    cfg.blockgenTimeExpected.toUInt64 * cfg.blockgenDifficultyAdjustAfter = 100000

/-- The two results, for a configuration file that can be read. -/
theorem outcome_startup_eq_iff {T : Type} [BlockData T] {env : Env} {toml : Toml}
    {blockchain : Option (Except Error Json)} {clock : Clock} :
    outcome (startup T blockchain (some (.ok toml)) clock) =
        outcome (configuredStartup T blockchain (some (.ok toml)) clock) ↔
      (@loadChain T _ (env.configured {}) blockchain clock).toOption.map Blockchain.contents =
        (@loadChain T _ (env.configured (.fromToml toml)) blockchain clock).toOption.map
          Blockchain.contents := by
  have hstart : outcome (startup T blockchain (some (.ok toml)) clock) =
      (@loadChain T _ (env.configured {}) blockchain clock).toOption.map Blockchain.contents := by
    unfold startup outcome
    cases @loadChain T _ (env.configured {}) blockchain clock <;> rfl
  have hconfigured : outcome (configuredStartup T blockchain (some (.ok toml)) clock) =
      (@loadChain T _ (env.configured (.fromToml toml)) blockchain clock).toOption.map
        Blockchain.contents := by
    unfold configuredStartup outcome
    simp only [readConfig]
    cases h : @loadChain T _ (env.configured (.fromToml toml)) blockchain clock <;>
      simp [h, bind, Except.bind, pure, Except.pure, Except.toOption]
  rw [hstart, hconfigured]

-- ---------------------------------------------------------------------------
-- What does not depend on the configuration
-- ---------------------------------------------------------------------------

section Configured

variable (env : Env) (c c' : Config)

mutual

theorem Json.dump_configured :
    ∀ j : Json, @Json.dump (env.configured c) j = @Json.dump (env.configured c') j
  | .null | .boolean _ | .numberInteger _ | .numberUnsigned _ | .numberFloat _ | .string _ => by
    unfold Json.dump
    rfl
  | .array items => by simp only [Json.dump, Json.dumpItems_configured items]
  | .object members => by simp only [Json.dump, Json.dumpMembers_configured members]

theorem Json.dumpItems_configured :
    ∀ js : List Json, @Json.dumpItems (env.configured c) js = @Json.dumpItems (env.configured c') js
  | [] => by simp only [Json.dumpItems]
  | [j] => by simp only [Json.dumpItems, Json.dump_configured j]
  | j :: j' :: js => by
    simp only [Json.dumpItems, Json.dump_configured j, Json.dumpItems_configured (j' :: js)]

theorem Json.dumpMembers_configured :
    ∀ members : List (String × Json),
      @Json.dumpMembers (env.configured c) members = @Json.dumpMembers (env.configured c') members
  | [] => by simp only [Json.dumpMembers]
  | [(_, j)] => by simp only [Json.dumpMembers, Json.dump_configured j]
  | (_, j) :: m :: members => by
    simp only [Json.dumpMembers, Json.dump_configured j, Json.dumpMembers_configured (m :: members)]

end

theorem Block.determineHash_configured {T : Type} [BlockData T] (b : Block T) :
    @Block.determineHash T _ (env.configured c) b =
      @Block.determineHash T _ (env.configured c') b := by
  unfold Block.determineHash
  rw [Json.dump_configured env c c']
  rfl

/-- Transactions are checked alike if the reward is the same. -/
theorem Transaction.valid_configured_iff
    (hreward : c.transactionRewardAmount = c'.transactionRewardAmount) (t : Transaction) :
    @Transaction.valid (env.configured c) t = .ok () ↔
      @Transaction.valid (env.configured c') t = .ok () := by
  have hinput : ∀ txi, @Transaction.InputValid (env.configured c) t txi ↔
      @Transaction.InputValid (env.configured c') t txi := by
    intro txi
    constructor
    · rintro ⟨hfound, hsigned⟩
      exact @Transaction.InputValid.mk (env.configured c') t txi hfound hsigned
    · rintro ⟨hfound, hsigned⟩
      exact @Transaction.InputValid.mk (env.configured c) t txi hfound hsigned
  have hhash : @Transaction.determineHash (env.configured c) t =
      @Transaction.determineHash (env.configured c') t := rfl
  unfold Transaction.valid
  cases t.type with
  | reward =>
    simp only [Transaction.validReward_eq_ok, hhash, Env.config, hreward]
  | standard =>
    simp only [Transaction.validStandard_eq_ok, hhash, hinput]

/-- Transaction lists are checked alike if the number of transactions is the same
    as well. -/
theorem TransactionList.valid_configured_iff
    (hreward : c.transactionRewardAmount = c'.transactionRewardAmount)
    (hnumber : c.transactionNumPerBlock = c'.transactionNumPerBlock) (ts : TransactionList)
    (index : UInt64) :
    @TransactionList.valid (env.configured c) ts index = .ok () ↔
      @TransactionList.valid (env.configured c') ts index = .ok () := by
  simp only [TransactionList.valid_eq_ok, Env.config, hnumber,
    Transaction.valid_configured_iff env c c' hreward]

end Configured

-- ---------------------------------------------------------------------------
-- Configurations with the same rules
-- ---------------------------------------------------------------------------

/-- Two configurations under which a build treats chains alike. -/
structure SameRules (T : Type) [BlockData T] (env : Env) (c c' : Config) : Prop where
  data : ∀ (d : T) (index : UInt64),
    @BlockData.valid T _ (env.configured c) d index = .ok () ↔
      @BlockData.valid T _ (env.configured c') d index = .ok ()
  maxDelta : c.blockgenTimeMaxDelta = c'.blockgenTimeMaxDelta
  fresh : env.proofOfWork →
    @DifficultyAdjuster.fresh (env.configured c) = @DifficultyAdjuster.fresh (env.configured c')
  adjust : env.proofOfWork → ∀ da t,
    @DifficultyAdjuster.adjust (env.configured c) da t =
      @DifficultyAdjuster.adjust (env.configured c') da t

namespace SameRules

variable {T : Type} [BlockData T] {env : Env} {c c' : Config}

theorem symm (h : SameRules T env c c') : SameRules T env c' c where
  data d index := (h.data d index).symm
  maxDelta := h.maxDelta.symm
  fresh hpow := (h.fresh hpow).symm
  adjust hpow da t := (h.adjust hpow da t).symm

theorem valid_iff (h : SameRules T env c c') (b : Block T) (now : TimePoint) :
    @Block.valid T _ (env.configured c) b now = .ok () ↔
      @Block.valid T _ (env.configured c') b now = .ok () := by
  simp only [Block.valid_eq_ok, h.data, Env.config, h.maxDelta,
    Block.determineHash_configured env c c']

/-- The chains are equal but for an adjuster that the build does not have. -/
structure Alike (env : Env) (bc bc' : Blockchain T) : Prop where
  blocks : bc.blocks = bc'.blocks
  adjuster : env.proofOfWork → bc.difficultyAdjuster = bc'.difficultyAdjuster

omit [BlockData T] in
theorem Alike.contents_eq {bc bc' : Blockchain T} (h : Alike env bc bc') :
    bc.contents = bc'.contents := by
  unfold Blockchain.contents
  rw [h.blocks]
  split_ifs with hpow
  · rw [h.adjuster hpow]
  · rfl

theorem alike_new (h : SameRules T env c c') :
    Alike env (@Blockchain.new T (env.configured c)) (@Blockchain.new T (env.configured c')) where
  blocks := rfl
  adjuster hpow := h.fresh hpow

/-- A block that is accepted under one configuration is accepted under the other. -/
theorem appendNextBlock (h : SameRules T env c c') {bc₁ bc₂ bc₁' : Blockchain T} {b : Block T}
    {now : TimePoint} (halike : Alike env bc₁ bc₂)
    (hcall : @Blockchain.appendNextBlock T _ (env.configured c) bc₁ b now = (.ok (), bc₁')) :
    ∃ bc₂', @Blockchain.appendNextBlock T _ (env.configured c') bc₂ b now = (.ok (), bc₂') ∧
      Alike env bc₁' bc₂' := by
  obtain ⟨e, he, -⟩ | ⟨-, happended⟩ :=
    @Blockchain.appendNextBlock_cases T _ (env.configured c) _ _ _ _ _ hcall
  · cases he
  obtain ⟨⟨hblocks, hlinks, -, -, hroom⟩, hvalid, hwork, hadjuster⟩ := happended
  have hlatest : bc₁.latestBlock? = bc₂.latestBlock? := by
    rw [Blockchain.latestBlock?, halike.blocks]
    rfl
  rw [hlatest] at hlinks
  rw [halike.blocks] at hblocks hroom
  rw [h.valid_iff] at hvalid
  by_cases hpow : env.proofOfWork
  · have hsame : @DifficultyAdjuster.adjust (env.configured c') bc₂.difficultyAdjuster b.timestamp =
        some bc₁'.difficultyAdjuster := by
      have hmoved := ite_prop_iff_and.mp hadjuster |>.1 hpow
      rw [← halike.adjuster hpow, ← h.adjust hpow]
      exact hmoved
    exact ⟨_, @Blockchain.appendNextBlock_of_work T _ (env.configured c') _ _ _ _ hpow hlinks hvalid
      hsame (hwork hpow) hroom, hblocks, fun _ => rfl⟩
  · exact ⟨_, @Blockchain.appendNextBlock_of_valid T _ (env.configured c') _ _ _ hpow hlinks hvalid
      hroom, hblocks, fun hpow' => absurd hpow' hpow⟩

theorem appendAll (h : SameRules T env c c') {js : List Json} {clock : Clock}
    {bc₁ bc₂ bc₁' : Blockchain T} (halike : Alike env bc₁ bc₂)
    (hcall : @Blockchain.appendAll T _ (env.configured c) bc₁ js clock = .ok bc₁') :
    ∃ bc₂', @Blockchain.appendAll T _ (env.configured c') bc₂ js clock = .ok bc₂' ∧
      Alike env bc₁' bc₂' := by
  induction js generalizing bc₁ bc₂ clock with
  | nil =>
    cases hcall
    exact ⟨bc₂, rfl, halike⟩
  | cons j js ih =>
    obtain ⟨b, next, hread, hnext, hrest⟩ :=
      (@Blockchain.appendAll_cons_eq_ok T _ (env.configured c) _ _ _ _ _).mp hcall
    obtain ⟨next', hnext', halike'⟩ := h.appendNextBlock halike hnext
    obtain ⟨bc₂', hrest', hend⟩ := ih halike' hrest
    exact ⟨bc₂', (@Blockchain.appendAll_cons_eq_ok T _ (env.configured c') _ _ _ _ _).mpr
      ⟨b, next', hread, hnext', hrest'⟩, hend⟩

theorem loadChain (h : SameRules T env c c') {blockchain : Option (Except Error Json)}
    {clock : Clock} {bc : Blockchain T}
    (hload : @BuenzliCoin.loadChain T _ (env.configured c) blockchain clock = .ok bc) :
    ∃ bc', @BuenzliCoin.loadChain T _ (env.configured c') blockchain clock = .ok bc' ∧
      Alike env bc bc' := by
  cases blockchain with
  | none =>
    cases hload
    exact ⟨_, rfl, h.alike_new⟩
  | some contents =>
    cases contents with
    | error e => cases hload
    | ok j => exact h.appendAll h.alike_new hload

/-- The same chain is loaded, or none. -/
theorem contents_eq (h : SameRules T env c c') (blockchain : Option (Except Error Json))
    (clock : Clock) :
    (@BuenzliCoin.loadChain T _ (env.configured c) blockchain clock).toOption.map
        Blockchain.contents =
      (@BuenzliCoin.loadChain T _ (env.configured c') blockchain clock).toOption.map
        Blockchain.contents := by
  cases hload : @BuenzliCoin.loadChain T _ (env.configured c) blockchain clock with
  | ok bc =>
    obtain ⟨bc', hload', halike⟩ := h.loadChain hload
    rw [hload']
    exact congrArg some halike.contents_eq
  | error e =>
    cases hload' : @BuenzliCoin.loadChain T _ (env.configured c') blockchain clock with
    | ok bc' =>
      obtain ⟨bc, hload'', -⟩ := h.symm.loadChain hload'
      rw [hload] at hload''
      cases hload''
    | error e' => rfl

end SameRules

/-- Configurations with the defaults in all that the chain reads have the same rules
    as the defaults. -/
theorem KeepsDefaults.sameRules {T : Type} [BlockData T] {env : Env} {cfg : Config}
    (h : KeepsDefaults env.proofOfWork cfg)
    (hdata : ∀ (d : T) (index : UInt64),
      @BlockData.valid T _ (env.configured {}) d index = .ok () ↔
        @BlockData.valid T _ (env.configured cfg) d index = .ok ()) :
    SameRules T env {} cfg where
  data := hdata
  maxDelta := h.maxDelta.symm
  fresh hpow := by
    simp only [DifficultyAdjuster.fresh, Env.config, h.init hpow]
  adjust hpow da t := by
    have hexpected := h.totalTimeExpected hpow
    have hdefault : (10000 : TimePoint).toUInt64 * 10 = 100000 := rfl
    rw [h.adjustAfter hpow] at hexpected
    simp only [DifficultyAdjuster.adjust, Env.config, h.adjustAfter hpow, h.factorLimit hpow,
      hexpected, hdefault]

-- ---------------------------------------------------------------------------
-- Files that tell configurations apart
-- ---------------------------------------------------------------------------

/-- A build whose hasher gives the same digest for every text. -/
abbrev Env.constantHash (proofOfWork : Bool) (zeros : Nat) : Env :=
  Env.withHash proofOfWork fun _ => Digest.withZeroPrefix zeros

/-- Enough leading zeros for finitely many difficulties, as far as they are finite. -/
theorem exists_zeros (ds : List ExactDouble) :
    ∃ zeros : Nat, ∀ d : ℚ, .finite d ∈ ds → d ≤ 2 ^ zeros := by
  induction ds with
  | nil => exact ⟨0, fun d hd => absurd hd List.not_mem_nil⟩
  | cons first ds ih =>
    obtain ⟨zeros, hzeros⟩ := ih
    cases first with
    | nan => exact ⟨zeros, fun d hd => hzeros d (by simpa using hd)⟩
    | infinite n => exact ⟨zeros, fun d hd => hzeros d (by simpa using hd)⟩
    | finite q =>
      obtain ⟨more, hmore⟩ := pow_unbounded_of_one_lt q (one_lt_two (α := ℚ))
      refine ⟨max zeros more, fun d hd => ?_⟩
      rcases List.mem_cons.mp hd with heq | hd
      · cases heq
        exact hmore.le.trans (pow_le_pow_right₀ one_le_two (le_max_right _ _))
      · exact (hzeros d hd).trans (pow_le_pow_right₀ one_le_two (le_max_left _ _))

/-- Of two different times one is after the other, also if the difference wraps
    around. -/
theorem TimePoint.eq_of_not_sub_lt {t t' : TimePoint} (h : ¬ t - t' < 0) (h' : ¬ t' - t < 0) :
    t = t' := by
  have hle := t.toInt_lt
  have hge := t.le_toInt
  have hle' := t'.toInt_lt
  have hge' := t'.le_toInt
  have hzero : (0 : TimePoint).toInt = 0 := rfl
  rw [Int64.lt_iff_toInt_lt, Int64.toInt_sub, hzero, Int.bmod] at h h'
  apply Int64.toInt_inj.mp
  split_ifs at h h' <;> omega

section Stamped

variable {T : Type} [BlockData T]

/-- A block after `prev`, or a first one, with the constant digest for its hash. -/
def stamped (zeros : Nat) (data : T) (prev : Option (Block T)) (t : TimePoint) : Block T where
  data
  timestamp := t
  nonce := 0
  index := match prev with
    | none => 0
    | some last => last.index + 1
  hashPrev := prev.map Block.hash
  hash := Digest.withZeroPrefix zeros

/-- Blocks with the given timestamps, from the one after `prev` on. -/
def stampedAll (zeros : Nat) (data : T) (prev : Option (Block T)) : List TimePoint → List (Block T)
  | [] => []
  | t :: ts =>
    stamped zeros data prev t :: stampedAll zeros data (some (stamped zeros data prev t)) ts

omit [BlockData T] in
theorem links_stamped (zeros : Nat) (data : T) (prev : Option (Block T)) (t : TimePoint) :
    Blockchain.Links prev (stamped zeros data prev t) := by
  cases prev with
  | none => exact ⟨rfl, rfl⟩
  | some last => exact ⟨rfl, rfl⟩

omit [BlockData T] in
theorem maxDifficulty_stamped (zeros : Nat) (data : T) (prev : Option (Block T)) (t : TimePoint) :
    (stamped zeros data prev t).maxDifficulty = 2 ^ zeros :=
  congrArg _ (Digest.zeroPrefixLength_withZeroPrefix zeros)

variable {proofOfWork : Bool} {zeros : Nat} {cfg : Config} {data : T}

theorem valid_stamped_iff {prev : Option (Block T)} {t now : TimePoint} :
    @Block.valid T _ ((Env.constantHash proofOfWork zeros).configured cfg)
        (stamped zeros data prev t) now = .ok () ↔
      @BlockData.valid T _ ((Env.constantHash proofOfWork zeros).configured cfg) data
        (stamped zeros data prev t).index = .ok () ∧ t - cfg.blockgenTimeMaxDelta < now := by
  have hcheck := @Block.valid_eq_ok T _ ((Env.constantHash proofOfWork zeros).configured cfg)
    (stamped zeros data prev t) now
  exact hcheck.trans (and_congr_right fun _ => and_iff_left rfl)

theorem fromJson_stamped [StoredData T] (hstored : StoredData.stored data = data) (zeros : Nat)
    (prev : Option (Block T)) (t : TimePoint) :
    Block.fromJson (stamped zeros data prev t).toJson = .ok (stamped zeros data prev t) := by
  rw [Block.fromJson_toJson, Block.stored]
  congr 1
  rw [show (stamped zeros data prev t).data = data from rfl, hstored]
  rfl

omit [BlockData T] in
theorem exists_of_mem_stampedAll {zeros : Nat} {data : T} {prev : Option (Block T)}
    {ts : List TimePoint} {b : Block T} (h : b ∈ stampedAll zeros data prev ts) :
    ∃ prev, ∃ t ∈ ts, b = stamped zeros data prev t := by
  induction ts generalizing prev with
  | nil => cases h
  | cons t ts ih =>
    rcases List.mem_cons.mp h with rfl | h
    · exact ⟨prev, t, List.mem_cons_self .., rfl⟩
    · obtain ⟨prev', t', ht', rfl⟩ := ih h
      exact ⟨prev', t', List.mem_cons_of_mem t ht', rfl⟩

omit [BlockData T] in
theorem timestamps_stampedAll (zeros : Nat) (data : T) (prev : Option (Block T))
    (ts : List TimePoint) : (stampedAll zeros data prev ts).map Block.timestamp = ts := by
  induction ts generalizing prev with
  | nil => rfl
  | cons t ts ih =>
    rw [stampedAll, List.map_cons, ih]
    rfl

omit [BlockData T] in
/-- Stamped blocks have the work that the difficulties on the way ask for, if the hash has
    enough leading zeros. -/
theorem workedFrom_stampedAll [Env] {prev : Option (Block T)} {da da' : DifficultyAdjuster}
    {ts : List TimePoint} (hrun : run DifficultyAdjuster.adjust da ts = some da')
    (hwork : ∀ p, p <+: ts → ∀ next, run DifficultyAdjuster.adjust da p = some next →
      ¬ ExactDouble.finite (2 ^ zeros) < next.difficulty) :
    Blockchain.WorkedFrom prev da (stampedAll zeros data prev ts) da' := by
  induction ts generalizing prev da with
  | nil => exact (Option.some.inj hrun).symm
  | cons t ts ih =>
    obtain ⟨next, hadjust, hrest⟩ := Option.bind_eq_some_iff.mp hrun
    refine ⟨links_stamped zeros data prev t, next, hadjust, ?_, ih hrest fun p hp da₁ hda₁ => ?_⟩
    · rw [maxDifficulty_stamped]
      refine hwork [t] ⟨ts, rfl⟩ next ?_
      rw [run_cons hadjust]
      rfl
    · refine hwork (t :: p) (List.cons_prefix_cons.mpr ⟨rfl, hp⟩) da₁ ?_
      rw [run_cons hadjust, hda₁]

/-- Under the default configuration a file of stamped blocks is loaded if their timestamps
    are accepted, with a hash that has enough leading zeros. -/
theorem exists_loadChain_stampedAll [StoredData T] (hstored : StoredData.stored data = data)
    (hdata : ∀ (env : Env) (index : UInt64), @BlockData.valid T _ env data index = .ok ())
    {now : TimePoint} (hnow : 0 ≤ now) {ts : List TimePoint} (htimes : ∀ t ∈ ts, t - 60000 < now)
    (hroom : ts.length ≤ 2 ^ 32) :
    ∃ zeros da, @DifficultyAdjuster.replay (plainBuild.configured {}) ts = some da ∧
      @loadChain T _ ((Env.constantHash true zeros).configured {})
        (some (.ok (.array ((stampedAll zeros data none ts).map Block.toJson)))) (.const now hnow) =
          .ok ⟨stampedAll zeros data none ts, da⟩ := by
  let difficulties : List ExactDouble := ts.inits.filterMap fun p =>
    (@DifficultyAdjuster.replay (plainBuild.configured {}) p).map DifficultyAdjuster.difficulty
  obtain ⟨zeros, hzeros⟩ := exists_zeros difficulties
  obtain ⟨da, hda⟩ := @DifficultyAdjuster.exists_replay (plainBuild.configured {}) (by decide) ts
  let env := (Env.constantHash true zeros).configured {}
  have hwork : ∀ p, p <+: ts → ∀ next, run DifficultyAdjuster.adjust .fresh p = some next →
      ¬ ExactDouble.finite (2 ^ zeros) < next.difficulty := by
    intro p hp next hnext
    have hlimit : (1 : ℚ) ≤ 16 := by norm_num
    obtain hnan | ⟨d, hd⟩ := DifficultyAdjuster.replay_difficulty hlimit hnext
    · rw [hnan]
      exact ExactDouble.not_lt_nan _
    · have hmem : .finite d ∈ difficulties := by
        refine List.mem_filterMap.mpr ⟨p, (List.mem_inits p ts).mpr hp, ?_⟩
        exact (congrArg (Option.map DifficultyAdjuster.difficulty) hnext).trans (congrArg some hd)
      rw [hd, ExactDouble.finite_lt_finite]
      exact not_lt.mpr (hzeros d hmem)
  refine ⟨zeros, da, hda, ?_⟩
  have hmem : ∀ b ∈ stampedAll zeros data none ts,
      ∃ prev, ∃ t ∈ ts, b = stamped zeros data prev t :=
    fun b hb => exists_of_mem_stampedAll hb
  refine Blockchain.fromJson_of_workedFrom rfl ?_ ?_ (workedFrom_stampedAll hda hwork) ?_
  · intro b hb
    obtain ⟨prev, t, -, rfl⟩ := hmem b hb
    exact fromJson_stamped hstored zeros prev t
  · intro b hb i
    obtain ⟨prev, t, ht, rfl⟩ := hmem b hb
    exact valid_stamped_iff.mpr ⟨hdata _ _, htimes t ht⟩
  · have hlength := congrArg List.length (timestamps_stampedAll zeros data none ts)
    rw [List.length_map] at hlength
    rw [hlength]
    exact hroom

/-- What the file of a single block is loaded for. -/
theorem loadChain_stamped_iff [StoredData T] (hstored : StoredData.stored data = data)
    (hinit : cfg.blockgenDifficultyInit ≤ 2 ^ zeros) (t : TimePoint) (clock : Clock) :
    (∃ bc, @loadChain T _ ((Env.constantHash proofOfWork zeros).configured cfg)
        (some (.ok (.array [(stamped zeros data none t).toJson]))) clock = .ok bc) ↔
      @BlockData.valid T _ ((Env.constantHash proofOfWork zeros).configured cfg) data 0 = .ok () ∧
        t - cfg.blockgenTimeMaxDelta < clock 0 := by
  let env := (Env.constantHash proofOfWork zeros).configured cfg
  have hread := fromJson_stamped hstored zeros none t
  constructor
  · rintro ⟨bc, hload⟩
    obtain ⟨b, next, hread', hnext, -⟩ := Blockchain.appendAll_cons_eq_ok.mp hload
    rw [hread] at hread'
    cases hread'
    obtain ⟨e, he, -⟩ | ⟨-, happended⟩ := Blockchain.appendNextBlock_cases hnext
    · cases he
    · exact valid_stamped_iff.mp happended.valid
  · intro hdata
    have hvalid : (stamped zeros data none t).valid (clock 0) = .ok () :=
      valid_stamped_iff.mpr hdata
    have hlinks : Blockchain.Links Blockchain.new.latestBlock? (stamped zeros data none t) :=
      links_stamped zeros data none t
    have hroom : (Blockchain.new : Blockchain T).blocks.length < Env.maxSize :=
      Nat.two_pow_pos 32
    cases proofOfWork with
    | true =>
      have hwork : ¬ ExactDouble.finite (stamped zeros data none t).maxDifficulty <
          .finite cfg.blockgenDifficultyInit := by
        rw [maxDifficulty_stamped, ExactDouble.finite_lt_finite]
        exact not_lt.mpr hinit
      have hnext := Blockchain.appendNextBlock_of_work rfl hlinks hvalid
        (DifficultyAdjuster.adjust_of_counter_eq_zero rfl t) hwork hroom
      exact ⟨_, Blockchain.appendAll_cons_eq_ok.mpr ⟨_, _, hread, hnext, rfl⟩⟩
    | false =>
      have hnext := Blockchain.appendNextBlock_of_valid Bool.false_ne_true hlinks hvalid hroom
      exact ⟨_, Blockchain.appendAll_cons_eq_ok.mpr ⟨_, _, hread, hnext, rfl⟩⟩

end Stamped

-- ---------------------------------------------------------------------------
-- Configurations that make no difference
-- ---------------------------------------------------------------------------

namespace StartsAlike

variable {T : Type} [BlockData T] {proofOfWork : Bool} {toml : Toml}

/-- The same files are loaded. -/
theorem loads_iff (h : StartsAlike T proofOfWork toml) (env : Env)
    (hpow : env.proofOfWork = proofOfWork) (blockchain : Option (Except Error Json))
    (clock : Clock) :
    (∃ bc, @loadChain T _ (env.configured {}) blockchain clock = .ok bc) ↔
      ∃ bc, @loadChain T _ (env.configured (.fromToml toml)) blockchain clock = .ok bc := by
  have hsame := outcome_startup_eq_iff.mp (h env hpow blockchain clock)
  cases hload : @loadChain T _ (env.configured {}) blockchain clock <;>
    cases hload' : @loadChain T _ (env.configured (.fromToml toml)) blockchain clock <;>
    simp [hload, hload', Except.toOption] at hsame ⊢

/-- The same chain is loaded. -/
theorem loaded_eq (h : StartsAlike T true toml) (env : Env) (hpow : env.proofOfWork = true)
    (blockchain : Option (Except Error Json)) (clock : Clock) {bc bc' : Blockchain T}
    (hload : @loadChain T _ (env.configured {}) blockchain clock = .ok bc)
    (hload' : @loadChain T _ (env.configured (.fromToml toml)) blockchain clock = .ok bc') :
    bc.blocks = bc'.blocks ∧ bc.difficultyAdjuster = bc'.difficultyAdjuster := by
  have hsame := outcome_startup_eq_iff.mp (h env hpow blockchain clock)
  rw [hload, hload'] at hsame
  simpa only [Except.toOption, Option.map_some, Option.some.injEq, Blockchain.contents, hpow,
    if_true, Prod.mk.injEq] using hsame

theorem init (h : StartsAlike T true toml) : (Config.fromToml toml).blockgenDifficultyInit = 2 := by
  have hfresh := (h.loaded_eq (Env.constantHash true 0) rfl none Clock.epoch rfl rfl).2
  exact (ExactDouble.finite.inj (congrArg DifficultyAdjuster.difficulty hfresh)).symm

variable [StoredData T] {data : T}

/-- The data and the timestamp of a first block are accepted under both
    configurations or neither. -/
theorem first_iff (h : StartsAlike T proofOfWork toml) (hstored : StoredData.stored data = data)
    {zeros : Nat} (hzeros : 2 ≤ (2 : ℚ) ^ zeros)
    (hzeros' : (Config.fromToml toml).blockgenDifficultyInit ≤ 2 ^ zeros) (t : TimePoint)
    (clock : Clock) :
    @BlockData.valid T _ ((Env.constantHash proofOfWork zeros).configured {}) data 0 = .ok () ∧
        t - 60000 < clock 0 ↔
      @BlockData.valid T _ ((Env.constantHash proofOfWork zeros).configured (.fromToml toml))
          data 0 = .ok () ∧
        t - (Config.fromToml toml).blockgenTimeMaxDelta < clock 0 := by
  have hloads := h.loads_iff (Env.constantHash proofOfWork zeros) rfl
    (some (.ok (.array [(stamped zeros data none t).toJson]))) clock
  rw [loadChain_stamped_iff hstored hzeros, loadChain_stamped_iff hstored hzeros'] at hloads
  exact hloads

variable (hstored : StoredData.stored data = data)
  (hdata : ∀ (env : Env) (index : UInt64), @BlockData.valid T _ env data index = .ok ())

include hstored hdata

theorem maxDelta (h : StartsAlike T proofOfWork toml) :
    (Config.fromToml toml).blockgenTimeMaxDelta = 60000 := by
  obtain ⟨zeros, hzeros⟩ :=
    exists_zeros [.finite 2, .finite (Config.fromToml toml).blockgenDifficultyInit]
  have hfirst : ∀ t : TimePoint,
      t - 60000 < 0 ↔ t - (Config.fromToml toml).blockgenTimeMaxDelta < 0 := by
    intro t
    have hiff := h.first_iff hstored (hzeros _ (by simp)) (hzeros _ (by simp)) t Clock.epoch
    simp only [hdata, true_and] at hiff
    exact hiff
  generalize (Config.fromToml toml).blockgenTimeMaxDelta = δ at hfirst
  -- what each tolerance just does not let through
  have hdefault := hfirst 60000
  have hδ := hfirst δ
  rw [Int64.sub_self] at hdefault hδ
  apply TimePoint.eq_of_not_sub_lt
  · exact fun hlt => absurd (hδ.mp hlt) (by decide)
  · exact fun hlt => absurd (hdefault.mpr hlt) (by decide)

/-- The same timestamps lead to the same adjuster: a file with them is loaded under the
    defaults, so also under the configuration. -/
theorem replay_eq (h : StartsAlike T true toml) {now : TimePoint} (hnow : 0 ≤ now)
    {ts : List TimePoint} (htimes : ∀ t ∈ ts, t - 60000 < now) (hlength : ts.length ≤ 2 ^ 32) :
    @DifficultyAdjuster.replay (plainBuild.configured {}) ts =
      @DifficultyAdjuster.replay (plainBuild.configured (.fromToml toml)) ts := by
  obtain ⟨zeros, da, hda, hload⟩ := exists_loadChain_stampedAll hstored hdata hnow htimes hlength
  obtain ⟨bc, hload'⟩ := (h.loads_iff (Env.constantHash true zeros) rfl _ _).mp ⟨_, hload⟩
  obtain ⟨hblocks, hadjuster⟩ := h.loaded_eq (Env.constantHash true zeros) rfl _ _ hload hload'
  have hworked :=
    @Blockchain.fromJson_worked T _ ((Env.constantHash true zeros).configured (.fromToml toml))
      _ _ _ rfl hload'
  have hinStep :=
    @Blockchain.Worked.inStep T _ ((Env.constantHash true zeros).configured (.fromToml toml)) _
      hworked
  unfold Blockchain.InStep at hinStep
  simp only [Blockchain.timestamps, ← hblocks, timestamps_stampedAll, ← hadjuster] at hinStep
  exact hda.trans hinStep.symm

/-- The same, one block after the other, for `n + 1` blocks the last of which is
    later. -/
theorem after_eq (h : StartsAlike T true toml) (last : TimePoint) (hlast : 0 ≤ last)
    (hbound : last - 60000 < last) {n : ℕ} (hn : n < 2 ^ 32) :
    @DifficultyAdjuster.after (plainBuild.configured {}) (fun k => if k = n then last else 0) n =
      @DifficultyAdjuster.after (plainBuild.configured (.fromToml toml))
        (fun k => if k = n then last else 0) n := by
  apply h.replay_eq hstored hdata hlast
  · intro t ht
    obtain ⟨k, -, rfl⟩ := List.mem_map.mp ht
    split_ifs
    · exact hbound
    · exact TimePoint.lt_of_lt_of_le (by decide) hlast
  · simpa using hn

/-- Under the defaults there are no traps, so there are none under the configuration. -/
theorem period_ne_zero (h : StartsAlike T true toml) :
    @DifficultyAdjuster.period (plainBuild.configured (.fromToml toml)) ≠ 0 := by
  intro hperiod
  have htwo := h.after_eq hstored hdata 0 (by decide) (by decide) (n := 1) (by decide)
  rw [@DifficultyAdjuster.after_eq (plainBuild.configured {}) (by decide)] at htwo
  rw [@DifficultyAdjuster.after_succ (plainBuild.configured (.fromToml toml))] at htwo
  obtain ⟨da, hda, htraps⟩ := Option.bind_eq_some_iff.mp htwo.symm
  have hcounter :=
    @DifficultyAdjuster.replay_counter (plainBuild.configured (.fromToml toml)) _ _ hda
  rw [@DifficultyAdjuster.adjust_of_period_eq_zero (plainBuild.configured (.fromToml toml)) da
    hperiod (by rw [hcounter]; decide)] at htraps
  cases htraps

/-- The period is ten blocks: the last of `n + 1` blocks is at the end of a period under
    both configurations or neither. -/
theorem adjustAfter (h : StartsAlike T true toml) :
    (Config.fromToml toml).blockgenDifficultyAdjustAfter = 10 := by
  have hdvd : ∀ n : ℕ, n < 2 ^ 32 →
      (10 ∣ n ↔ (Config.fromToml toml).blockgenDifficultyAdjustAfter.toNat ∣ n) := by
    intro n hn
    have hafter := h.after_eq hstored hdata 1 (by decide) (by decide) hn
    rw [@DifficultyAdjuster.after_eq (plainBuild.configured {}) (by decide),
      @DifficultyAdjuster.after_eq (plainBuild.configured (.fromToml toml))
        (h.period_ne_zero hstored hdata)] at hafter
    have hafter := congrArg DifficultyAdjuster.timestamp (Option.some.inj hafter)
    generalize hA : (Config.fromToml toml).blockgenDifficultyAdjustAfter.toNat = A
    have htimes : (if n / 10 * 10 = n then (1 : TimePoint) else 0) =
        if n / A * A = n then 1 else 0 := by
      rw [← hA]
      exact hafter
    rw [Nat.dvd_iff_div_mul_eq, Nat.dvd_iff_div_mul_eq]
    split_ifs at htimes with h10 hA' hA'
    · exact iff_of_true h10 hA'
    · exact absurd htimes (by decide)
    · exact absurd htimes (by decide)
    · exact iff_of_false h10 hA'
  have hten := (hdvd 10 (by decide)).mp (dvd_refl 10)
  have hle := Nat.le_of_dvd (by decide) hten
  have heq := Nat.dvd_antisymm hten ((hdvd _ (by omega)).mpr (dvd_refl _))
  exact UInt64.toNat_inj.mp heq

/-- One adjustment multiplies by the same factor, which is a number under the defaults. -/
theorem adjustFactor_eq (h : StartsAlike T true toml) {last : TimePoint} (hlast : 0 ≤ last)
    (hbound : last - 60000 < last) {factor : ℚ}
    (hfactor : DifficultyAdjuster.adjustFactor 100000 last 16 = .finite factor) :
    DifficultyAdjuster.adjustFactor ((Config.fromToml toml).blockgenTimeExpected.toUInt64 * 10)
      last (Config.fromToml toml).blockgenDifficultyAdjustFactorLimit = .finite factor := by
  have hA := h.adjustAfter hstored hdata
  have hdifficulty : ∀ cfg : Config, cfg.blockgenDifficultyInit = 2 →
      cfg.blockgenDifficultyAdjustAfter = 10 →
      (@DifficultyAdjuster.after (plainBuild.configured cfg) (fun k => if k = 10 then last else 0)
        10).map DifficultyAdjuster.difficulty = some (.finite 2 *
          DifficultyAdjuster.adjustFactor (cfg.blockgenTimeExpected.toUInt64 * 10) last
            cfg.blockgenDifficultyAdjustFactorLimit) := by
    intro cfg hinit hadjustAfter
    have hperiod : @DifficultyAdjuster.period (plainBuild.configured cfg) = 10 :=
      congrArg UInt64.toNat hadjustAfter
    rw [@DifficultyAdjuster.after_eq (plainBuild.configured cfg) (by rw [hperiod]; decide)]
    simp [DifficultyAdjuster.difficultyAt, DifficultyAdjuster.factorAt,
      DifficultyAdjuster.totalTimeExpected, hperiod, Env.config, hinit, hadjustAfter]
  have hsame : ExactDouble.finite 2 * DifficultyAdjuster.adjustFactor 100000 last 16 =
      .finite 2 * DifficultyAdjuster.adjustFactor
        ((Config.fromToml toml).blockgenTimeExpected.toUInt64 * 10) last
        (Config.fromToml toml).blockgenDifficultyAdjustFactorLimit := by
    rw [← Option.some.injEq, ← hdifficulty _ h.init hA,
      ← h.after_eq hstored hdata last hlast hbound (by decide)]
    exact (hdifficulty {} rfl rfl).symm
  rw [hfactor, ExactDouble.finite_mul_finite] at hsame
  obtain ⟨two, factor', htwo, hfactor', hproduct⟩ := ExactDouble.exists_of_mul_eq_finite hsame.symm
  cases htwo
  rw [hfactor', mul_left_cancel₀ two_ne_zero hproduct]

/-- Without time between the blocks the quotient is infinite and the factor the limit. -/
theorem factorLimit (h : StartsAlike T true toml) :
    (Config.fromToml toml).blockgenDifficultyAdjustFactorLimit = 16 ∧
      (Config.fromToml toml).blockgenTimeExpected.toUInt64 * 10 ≠ 0 := by
  have hzero : ∀ expected : UInt64, ∀ limit : ℚ, expected ≠ 0 → limit ≠ 0 →
      DifficultyAdjuster.adjustFactor expected 0 limit = .finite limit := by
    intro expected limit hexpected hlimit
    rw [DifficultyAdjuster.adjustFactor_eq_clamped hlimit (.inl hexpected)]
    exact congrArg ExactDouble.finite (if_pos rfl)
  have hfactor := h.adjustFactor_eq hstored hdata (Int64.le_refl 0) (by decide)
    (hzero 100000 16 (by decide) (by norm_num))
  have hexpected : (Config.fromToml toml).blockgenTimeExpected.toUInt64 * 10 ≠ 0 := by
    intro hnone
    rw [hnone, DifficultyAdjuster.adjustFactor_of_zero] at hfactor
    cases hfactor
  have hlimit : (Config.fromToml toml).blockgenDifficultyAdjustFactorLimit ≠ 0 := by
    intro hnone
    rw [hnone, DifficultyAdjuster.adjustFactor_limit_zero (.inl hexpected), if_pos rfl,
      ExactDouble.finite.injEq] at hfactor
    norm_num at hfactor
  rw [hzero _ _ hexpected hlimit, ExactDouble.finite.injEq] at hfactor
  exact ⟨hfactor, hexpected⟩

theorem totalTimeExpected (h : StartsAlike T true toml) :
    (Config.fromToml toml).blockgenTimeExpected.toUInt64 * 10 = 100000 := by
  have hlast : (0 : TimePoint) ≤ 100000 := by decide
  have hlimit : (1 : ℚ) ≤ 16 := by norm_num
  obtain ⟨hlimit', hexpected'⟩ := h.factorLimit hstored hdata
  have hfactor := h.adjustFactor_eq hstored hdata hlast (by decide)
    (DifficultyAdjuster.adjustFactor_eq_clampedRatio hlimit (.inl (by decide)))
  rw [hlimit', DifficultyAdjuster.adjustFactor_eq_clampedRatio hlimit (.inl hexpected'),
    ExactDouble.finite.injEq,
    clampedRatio_eq_clampedRatio_iff hlimit (Nat.cast_nonneg _) (Nat.cast_nonneg _)] at hfactor
  have htime : (((100000 : TimePoint).toInt : ℤ) : ℚ) = 100000 := rfl
  have hexpected : ((100000 : UInt64).toNat : ℚ) = 100000 := rfl
  rw [htime, hexpected] at hfactor
  obtain hone | ⟨-, hslow⟩ | ⟨-, hfast⟩ | ⟨-, -, hratio⟩ := hfactor
  · norm_num at hone
  · norm_num [Slow] at hslow
  · norm_num [Fast] at hfast
  · have hnat := mul_right_cancel₀ (by norm_num) hratio
    have htoNat : (100000 : UInt64).toNat = 100000 := rfl
    apply UInt64.toNat_inj.mp
    rw [htoNat]
    exact_mod_cast hnat

theorem keepsDefaults (h : StartsAlike T proofOfWork toml) :
    KeepsDefaults proofOfWork (Config.fromToml toml) := by
  refine ⟨h.maxDelta hstored hdata, ?_, ?_, ?_, ?_⟩ <;> (rintro rfl)
  · exact h.init
  · exact h.adjustAfter hstored hdata
  · exact (h.factorLimit hstored hdata).1
  · rw [h.adjustAfter hstored hdata]
    exact h.totalTimeExpected hstored hdata

end StartsAlike

/-- The transactions of a first block: the reward of the default configuration, and
    some that transfer nothing. -/
def rewardAndEmpty (zeros k : Nat) : TransactionList where
  transactions :=
    { type := .reward, index := 0, hash := Digest.withZeroPrefix zeros, inputs := [],
      outputs := [⟨50, ""⟩] } ::
    List.replicate k
      { type := .standard, index := 0, hash := Digest.withZeroPrefix zeros, inputs := [],
        outputs := [] }

theorem stored_rewardAndEmpty (zeros k : Nat) :
    StoredData.stored (rewardAndEmpty zeros k) = rewardAndEmpty zeros k := by
  refine congrArg TransactionList.mk ?_
  simp only [rewardAndEmpty, List.map_cons, List.map_replicate]
  rfl

theorem rewardAndEmpty_valid_iff (proofOfWork : Bool) (zeros k : Nat) (cfg : Config) :
    @BlockData.valid TransactionList _ ((Env.constantHash proofOfWork zeros).configured cfg)
        (rewardAndEmpty zeros k) 0 = .ok () ↔
      k + 1 ≤ (cfg.transactionNumPerBlock + 1).toNat ∧ cfg.transactionRewardAmount = 50 := by
  let env := (Env.constantHash proofOfWork zeros).configured cfg
  have hlength : (rewardAndEmpty zeros k).transactions.length = k + 1 := by
    simp [rewardAndEmpty]
  refine TransactionList.valid_eq_ok.trans (and_congr ?_ ?_)
  · rw [hlength]
    rfl
  constructor
  · rintro ⟨hall, -⟩
    have hreward := (hall _ (List.mem_cons_self ..)).2
    obtain ⟨-, -, txo, houtputs, hamount⟩ := Transaction.validReward_eq_ok.mp hreward
    cases houtputs
    exact hamount.symm
  · intro hreward
    refine ⟨?_, ?_⟩
    · intro t ht
      rcases List.mem_cons.mp ht with rfl | ht
      · exact ⟨rfl, Transaction.validReward_eq_ok.mpr ⟨rfl, rfl, _, rfl, hreward.symm⟩⟩
      · rw [List.eq_of_mem_replicate ht]
        exact ⟨rfl, Transaction.validStandard_eq_ok.mpr ⟨rfl, List.forall_mem_nil _, rfl⟩⟩
    · intro i hi
      cases i with
      | zero => rfl
      | succ i => simp [rewardAndEmpty]

/-- The limits on transactions have their defaults if the order makes no difference. -/
theorem StartsAlike.transactions {proofOfWork : Bool} {toml : Toml}
    (h : StartsAlike TransactionList proofOfWork toml) :
    (Config.fromToml toml).transactionNumPerBlock = 10 ∧
      (Config.fromToml toml).transactionRewardAmount = 50 := by
  obtain ⟨zeros, hzeros⟩ :=
    exists_zeros [.finite 2, .finite (Config.fromToml toml).blockgenDifficultyInit]
  have hfirst := fun k => h.first_iff (stored_rewardAndEmpty zeros k) (hzeros _ (by simp))
    (hzeros _ (by simp)) 0 Clock.epoch
  simp only [rewardAndEmpty_valid_iff] at hfirst
  have hepoch : (0 : TimePoint) - 60000 < Clock.epoch 0 := by decide
  have hdefault : ((10 : UInt64) + 1).toNat = 11 := rfl
  rw [hdefault] at hfirst
  -- ten transactions after the reward are accepted, eleven are not
  obtain ⟨⟨hten, hreward⟩, htime⟩ := (hfirst 10).mp ⟨⟨by decide, trivial⟩, hepoch⟩
  have heleven : ¬ 11 + 1 ≤ ((Config.fromToml toml).transactionNumPerBlock + 1).toNat := by
    intro hle
    exact absurd ((hfirst 11).mpr ⟨⟨hle, hreward⟩, htime⟩).1.1 (by decide)
  have hone : (1 : UInt64).toNat = 1 := rfl
  have hbound := (Config.fromToml toml).transactionNumPerBlock.toNat_lt
  refine ⟨UInt64.toNat_inj.mp ?_, hreward⟩
  rw [UInt64.toNat_add, hone] at hten heleven
  have htenNat : (10 : UInt64).toNat = 10 := rfl
  omega

/-- The order of startup makes no difference for exactly those configuration files
    that leave all that the chain reads at its default. -/
theorem startsAlike_iff (proofOfWork : Bool) (toml : Toml) :
    (StartsAlike Text proofOfWork toml ↔ KeepsDefaults proofOfWork (.fromToml toml)) ∧
    (StartsAlike TransactionList proofOfWork toml ↔
      KeepsDefaults proofOfWork (.fromToml toml) ∧
        (Config.fromToml toml).transactionNumPerBlock = 10 ∧
        (Config.fromToml toml).transactionRewardAmount = 50) := by
  have hstoredText : StoredData.stored (⟨""⟩ : Text) = ⟨""⟩ := rfl
  have hstoredList : StoredData.stored (⟨[]⟩ : TransactionList) = ⟨[]⟩ := rfl
  refine ⟨⟨fun h => h.keepsDefaults hstoredText fun _ _ => rfl, ?_⟩, fun h => ⟨?_, ?_⟩, ?_⟩
  · rintro h env rfl blockchain clock
    have hrules : SameRules Text env {} (.fromToml toml) := h.sameRules fun _ _ => Iff.rfl
    exact outcome_startup_eq_iff.mpr (hrules.contents_eq blockchain clock)
  · exact h.keepsDefaults hstoredList fun env index => by
      simp [BlockData.valid, TransactionList.valid, TransactionList.validTransactions]
  · exact h.transactions
  · rintro ⟨h, hnumber, hreward⟩ env rfl blockchain clock
    have hrules : SameRules TransactionList env {} (.fromToml toml) :=
      h.sameRules fun d index => TransactionList.valid_configured_iff env {} (.fromToml toml)
        hreward.symm hnumber.symm d index
    exact outcome_startup_eq_iff.mpr (hrules.contents_eq blockchain clock)

/-- Without a chain file the order shows in the first difficulty alone, and only in a build
    with `PROOF_OF_WORK`. -/
theorem outcome_startup_none_iff {T : Type} [BlockData T] {env : Env} {toml : Toml}
    {clock : Clock} :
    outcome (startup T none (some (.ok toml)) clock) =
        outcome (configuredStartup T none (some (.ok toml)) clock) ↔
      (env.proofOfWork → (Config.fromToml toml).blockgenDifficultyInit = 2) := by
  rw [outcome_startup_eq_iff]
  simp only [loadChain, Except.toOption, Option.map_some, Option.some.injEq, Blockchain.contents,
    Blockchain.new, DifficultyAdjuster.fresh, Prod.mk.injEq, true_and]
  by_cases hpow : env.proofOfWork
  · simp only [hpow, if_true, Option.some.injEq, DifficultyAdjuster.mk.injEq,
      ExactDouble.finite.injEq, and_true, forall_true_left]
    exact eq_comm
  · simp [hpow]

/-- A file with `difficulty_init = 4` in the table `blockgen`. -/
def harderStart : Toml where
  interval _ _ := none
  double table name :=
    if table = "blockgen" ∧ name = "difficulty_init" then some 4 else none
  size _ _ := none

/-- Without a chain file the first block is mined at the difficulty 2. -/
theorem startup_ne_configuredStartup :
    letI := Env.constantHash true 2
    (Config.fromToml harderStart).blockgenDifficultyInit = 4 ∧
    (outcome (startup Text none (some (.ok harderStart)) .epoch)).map
        (fun start => start.2.map DifficultyAdjuster.difficulty) = some (some (.finite 2)) ∧
    (outcome (configuredStartup Text none (some (.ok harderStart)) .epoch)).map
        (fun start => start.2.map DifficultyAdjuster.difficulty) = some (some (.finite 4)) ∧
    outcome (startup Text none (some (.ok harderStart)) .epoch) ≠
      outcome (configuredStartup Text none (some (.ok harderStart)) .epoch) := by
  let env := Env.constantHash true 2
  have hstart : (outcome (startup Text none (some (.ok harderStart)) .epoch)).map
      (fun start => start.2.map DifficultyAdjuster.difficulty) = some (some (.finite 2)) := rfl
  have hconfigured : (outcome (configuredStartup Text none (some (.ok harderStart)) .epoch)).map
      (fun start => start.2.map DifficultyAdjuster.difficulty) = some (some (.finite 4)) := rfl
  refine ⟨rfl, hstart, hconfigured, ?_⟩
  intro h
  rw [h, hconfigured] at hstart
  exact absurd hstart (by decide +kernel)

end BuenzliCoin
