-- SUMMARY: The lookups that handling a message makes, and which messages make one that is undefined.
import BuenzliCoin.Node.Ledger

/-!
# Malformed messages

Transactions are decoded through `json_get`, which throws where a key is missing.
Blocks and the requests around them are decoded through `operator[]`, which is
undefined there; where it does throw, on a value that is no object, the handlers
answer with an error of their own.
-/

namespace BuenzliCoin

open Except

-- ---------------------------------------------------------------------------
-- Lookups
-- ---------------------------------------------------------------------------

/-- The error stands for an exception. -/
def Error.IsException : Error → Prop
  | .undefined _ | .crash => False
  | _ => True

/-- The computation returns or throws. -/
abbrev Defined {α : Type} (x : Except Error α) : Prop := x.OnlyFails Error.IsException

/-- The computation makes no lookup that is undefined. -/
abbrev LooksUp {α : Type} (x : Except Error α) : Prop :=
  x.OnlyFails fun e => ∀ what, e ≠ .undefined what

theorem Defined.looksUp {α : Type} {x : Except Error α} (h : Defined x) : LooksUp x :=
  h.mono fun e he what heq => by
    subst heq
    exact he

/-- Where nothing else goes wrong, it comes to the same. -/
theorem looksUp_iff_defined {α : Type} {x : Except Error α} (h : x.OnlyFails (· ≠ .crash)) :
    LooksUp x ↔ Defined x := by
  refine ⟨fun hlooks e he => ?_, Defined.looksUp⟩
  cases e with
  | undefined what => exact hlooks _ he what rfl
  | crash => exact h _ he rfl
  | _ => trivial

namespace Json

/-- `j.is_object()` -/
def isObject : Json → Bool
  | object _ => true
  | _ => false

/-- `j[key]` is defined: if `j` is an object, it has the key. -/
def Lookable (j : Json) (key : String) : Prop := j.isObject → j.contains key

instance (j : Json) (key : String) : Decidable (j.Lookable key) :=
  inferInstanceAs (Decidable (_ → _))

@[simp] theorem defined_atKey_iff {j : Json} {key : String} :
    Defined (j.atKey key) ↔ j.Lookable key := by
  cases j with
  | object members =>
    cases h : members.lookup key <;>
      simp [atKey, Lookable, isObject, contains, h, Error.IsException]
  | _ => simp [atKey, Lookable, isObject, typeError, Error.IsException]

theorem onlyFails_atKey (j : Json) (key : String) : (j.atKey key).OnlyFails (· ≠ .crash) := by
  unfold atKey
  split
  · split <;> simp
  · simp [typeError]

@[simp] theorem defined_get (j : Json) (key : String) : Defined (j.get key) := by
  unfold get
  split <;> simp [Error.IsException]

@[simp] theorem defined_getString (j : Json) : Defined j.getString := by
  cases j <;> simp [getString, typeError, Error.IsException]

@[simp] theorem defined_getUInt64 (j : Json) : Defined j.getUInt64 := by
  cases j <;> simp [getUInt64, typeError, Error.IsException]

@[simp] theorem defined_getUInt16 (j : Json) : Defined j.getUInt16 := by
  cases j <;> simp [getUInt16, typeError, Error.IsException]

/-- Looking up fields one after the other is defined, where each is converted before
    the next one is looked up. -/
def Reads (j : Json) : List (String × (Json → Prop)) → Prop
  | [] => True
  | (key, Converts) :: fields =>
    j.Lookable key ∧ ∀ value, j.find? key = some value → Converts value → j.Reads fields

end Json

-- ---------------------------------------------------------------------------
-- Decoders
-- ---------------------------------------------------------------------------

@[simp] theorem Digest.defined_fromString (str : String) : Defined (Digest.fromString str) := by
  have hnibble : ∀ c, Defined (charToNibble c) := by
    intro c
    unfold charToNibble
    split_ifs <;> simp [Error.IsException]
  have hchars : ∀ cs, Defined (fromChars cs) := by
    intro cs
    induction cs using fromChars.induct with
    | case1 hi lo rest ih => simp [fromChars, onlyFails_bind_iff, hnibble, ih]
    | case2 cs hshort =>
      unfold fromChars
      split
      · exact absurd rfl (hshort _ _ _)
      · exact onlyFails_ok _
  simp [fromString, hchars]

@[simp] theorem Text.defined_fromJson (j : Json) : Defined (Text.fromJson j) := by
  simp [fromJson]

/-- `Transaction::from_json` and all it calls look up through `json_get`. -/
@[simp] theorem Transaction.defined_fromJson (j : Json) : Defined (Transaction.fromJson j) := by
  have htype : ∀ j, Defined (TransactionType.fromJson j) := by
    intro j
    unfold TransactionType.fromJson
    split <;> simp [Error.IsException]
  have hinput : ∀ j, Defined (TxI.fromJson j) := by
    intro j
    simp [TxI.fromJson, onlyFails_bind_iff]
  have houtput : ∀ j, Defined (TxO.fromJson j) := by
    intro j
    simp [TxO.fromJson, onlyFails_bind_iff]
  simp [fromJson, onlyFails_bind_iff, htype, onlyFails_mapM hinput, onlyFails_mapM houtput]

@[simp] theorem TransactionList.defined_fromJson (j : Json) :
    Defined (TransactionList.fromJson j) := by
  simp [fromJson, onlyFails_mapM Transaction.defined_fromJson]

namespace Block

variable {T : Type} [BlockData T]

/-- The fields of a block, in the order in which `from_json` looks them up, each with
    the condition under which it goes on to the next. A hash before is looked up only
    if it is there. -/
def fields (T : Type) [BlockData T] : List (String × (Json → Prop)) :=
  [("data", fun j => ∃ d : T, BlockData.fromJson j = .ok d),
    ("timestamp", fun j => ∃ n, j.getUInt64 = .ok n),
    ("nonce", fun j => ∃ n, j.getUInt64 = .ok n),
    ("index", fun j => ∃ n, j.getUInt64 = .ok n),
    ("hash", fun _ => True)]

theorem defined_fromJson_iff (hdata : ∀ j, Defined (BlockData.fromJson j : Except Error T))
    {j : Json} : Defined (fromJson j : Except Error (Block T)) ↔ j.Reads (fields T) := by
  have hprev : ∀ f : Option Digest → Block T,
      Defined (
        if j.contains "hash_prev" then do
          let value ← j.atKey "hash_prev"
          let str ← value.getString
          let hashPrev ← some <$> Digest.fromString str
          pure (f hashPrev)
        else do
          let hashPrev ← pure none
          pure (f hashPrev)) := by
    intro f
    split_ifs with hcontains
    · simp [onlyFails_bind_iff, Json.Lookable, hcontains]
    · simp
  simp only [fromJson, onlyFails_bind_iff, Json.defined_atKey_iff, Json.atKey_eq_ok, hdata, hprev,
    Json.defined_getUInt64, Json.defined_getString, Digest.defined_fromString, true_and, and_true,
    implies_true, fields, Json.Reads, forall_exists_index]

/-- To decode a block takes lookups and conversions only. -/
theorem onlyFails_fromJson (hdata : ∀ j, Defined (BlockData.fromJson j : Except Error T))
    (j : Json) : (fromJson j : Except Error (Block T)).OnlyFails (· ≠ .crash) := by
  have hcaught : ∀ {α : Type} {x : Except Error α}, Defined x → x.OnlyFails (· ≠ .crash) := by
    rintro α x hx e he rfl
    exact hx _ he
  have hnumber : ∀ j : Json, j.getUInt64.OnlyFails (· ≠ .crash) := fun j => hcaught (by simp)
  have hstring : ∀ j : Json, j.getString.OnlyFails (· ≠ .crash) := fun j => hcaught (by simp)
  have hdigest : ∀ str, (Digest.fromString str).OnlyFails (· ≠ .crash) := fun str =>
    hcaught (by simp)
  simp only [fromJson, onlyFails_bind_iff, Json.onlyFails_atKey, hnumber, hstring, hdigest,
    hcaught (hdata _), true_and]
  split_ifs <;> simp [onlyFails_bind_iff, Json.onlyFails_atKey, hstring, hdigest]

theorem looksUp_fromJson_iff (hdata : ∀ j, Defined (BlockData.fromJson j : Except Error T))
    {j : Json} : LooksUp (fromJson j : Except Error (Block T)) ↔ j.Reads (fields T) := by
  rw [looksUp_iff_defined (onlyFails_fromJson hdata j), defined_fromJson_iff hdata]

end Block

namespace Blockchain

variable {T : Type} [BlockData T] [Env]

omit [BlockData T] in
theorem defined_emplaceBack (bc : Blockchain T) (b : Block T) : Defined (bc.emplaceBack b).1 := by
  unfold emplaceBack
  split_ifs <;> simp [Error.IsException]

theorem looksUp_appendNextBlock (bc : Blockchain T) (b : Block T) (now : TimePoint) :
    LooksUp (bc.appendNextBlock b now).1 := by
  have hcheck : Defined (bc.checkNextBlock b now) := by
    unfold checkNextBlock
    repeat' split
    all_goals simp [Error.IsException]
  unfold appendNextBlock
  split
  · next e he =>
    rw [he] at hcheck
    exact hcheck.looksUp
  · by_cases hpow : Env.proofOfWork
    · rw [if_pos hpow]
      split
      · simp
      · split_ifs
        · simp
        · exact (defined_emplaceBack _ b).looksUp
    · rw [if_neg hpow]
      exact (defined_emplaceBack _ b).looksUp

theorem defined_constructNextBlock {bc bc' : Blockchain T} {data : T} {clock : Clock} {fuel : Nat}
    {r : Except Error Unit} (h : bc.constructNextBlock data clock fuel = some (r, bc')) :
    Defined r := by
  have hemplaced : ∀ {bc₁ : Blockchain T} {b : Block T}, some (bc₁.emplaceBack b) = some (r, bc') →
      Defined r := by
    intro bc₁ b heq
    have hdefined := defined_emplaceBack bc₁ b
    rw [Option.some.inj heq] at hdefined
    exact hdefined
  simp only [constructNextBlock] at h
  split at h
  · cases h
    simp [Error.IsException]
  · by_cases hpow : Env.proofOfWork
    · rw [if_pos hpow] at h
      obtain ⟨_, -, h⟩ := Option.bind_eq_some_iff.mp h
      obtain ⟨_, -, h⟩ := Option.bind_eq_some_iff.mp h
      exact hemplaced h
    · rw [if_neg hpow] at h
      exact hemplaced h

/-- The loop of `from_json` looks up the fields of the blocks up to the first one
    that is not decoded or not appended. -/
theorem looksUp_appendAll_iff (hdata : ∀ j, Defined (BlockData.fromJson j : Except Error T))
    (start : Blockchain T) (js : List Json) (clock : Clock) :
    LooksUp (appendAll start js clock) ↔
      ∀ before j after, js = before ++ j :: after →
        (∃ bc, appendAll start before clock = .ok bc) → j.Reads (Block.fields T) := by
  induction js generalizing start clock with
  | nil => simp [appendAll]
  | cons j js ih =>
    have hhead : LooksUp (Block.fromJson j : Except Error (Block T)) ↔ _ :=
      Block.looksUp_fromJson_iff hdata
    refine onlyFails_bind_iff.trans ?_
    constructor
    · rintro ⟨hdecode, hlater⟩ before j' after heq ⟨bc, hbefore⟩
      cases before with
      | nil =>
        cases heq
        exact hhead.mp hdecode
      | cons j₀ before =>
        cases heq
        obtain ⟨b, longer, hread, hlonger, hbefore⟩ := appendAll_cons_eq_ok.mp hbefore
        have hrest := hlater b hread
        rw [hlonger] at hrest
        exact (ih longer (clock.drop 1)).mp hrest before j' after rfl ⟨bc, hbefore⟩
    · intro h
      refine ⟨hhead.mpr (h [] j js rfl ⟨start, rfl⟩), fun b hread => ?_⟩
      have happend := start.looksUp_appendNextBlock b (clock 0)
      split
      · next e bc herror =>
        rw [herror] at happend
        exact onlyFails_error.mpr (onlyFails_error.mp happend)
      · next longer hlonger =>
        refine (ih longer (clock.drop 1)).mpr ?_
        rintro before j' after rfl ⟨bc, hbefore⟩
        exact h (j :: before) j' after rfl
          ⟨bc, appendAll_cons_eq_ok.mpr ⟨b, longer, hread, hlonger, hbefore⟩⟩

end Blockchain

-- ---------------------------------------------------------------------------
-- Handlers
-- ---------------------------------------------------------------------------

open NodeData

/-- `HTTPError { HTTPServer::status::bad_request, .. }` -/
def Error.IsBadRequest : Error → Prop
  | .http status _ => status = 400
  | _ => False

def Error.IsWebSocket : Error → Prop
  | .webSocket _ => True
  | _ => False

/-- Each exception is caught and thrown again, and nothing else. -/
theorem Error.onlyFails_rethrow_iff {α : Type} {wrap : String → Error} {good : Error → Prop}
    {x : Except Error α} (hwrap : ∀ what, good (wrap what))
    (hundefined : ∀ what, ¬ good (.undefined what)) (hcrash : ¬ good .crash) :
    (Error.rethrow wrap x).OnlyFails good ↔ Defined x := by
  cases x with
  | ok a => simp
  | error e => cases e <;> simp [Error.rethrow, Error.IsException, hwrap, hundefined, hcrash]

theorem Error.onlyFails_rethrow_http_iff {α : Type} {text : String → String} {x : Except Error α} :
    (Error.rethrow (fun what => .http 400 (text what)) x).OnlyFails IsBadRequest ↔ Defined x :=
  onlyFails_rethrow_iff (fun _ => rfl) (fun _ h => h) fun h => h

theorem Error.onlyFails_rethrow_webSocket_iff {α : Type} {text : String → String}
    {x : Except Error α} :
    (Error.rethrow (fun what => .webSocket (text what)) x).OnlyFails IsWebSocket ↔ Defined x :=
  onlyFails_rethrow_iff (fun _ => trivial) (fun _ h => h) fun h => h

/-- What one build looks up besides the fields of blocks and of peers, and that
    it can be set up from what it has decoded. -/
class LookupData (T : Type) [NodeData T] where
  /-- The lookups of `handle_blocks_post` are defined. -/
  AssembleDefined : Json → Prop
  /-- The errors that answer a request which only this build serves. -/
  OwnError : Request T → Error → Prop
  defined_fromJson : ∀ j, Defined (BlockData.fromJson j : Except Error T)
  defined_assemble_iff : ∀ [Env] (m : Members T) (length : Nat) (j : Json),
    Defined (assemble m length j : Except Error T × Members T).1 ↔ AssembleDefined j
  onlyFails_serve : ∀ [Env] (m : Members T) (data : List T) (request : Request T),
    (serve m data request).2.1.OnlyFails (OwnError request)
  setup_isSome : ∀ [Env] {j : Json} {clock : Clock} {bc : Blockchain T},
    Blockchain.fromJson j clock = .ok bc → (setup (bc.blocks.map Block.data)).isSome

namespace Node

variable {T : Type} [NodeData T] [LookupData T]

/-- The errors with which the handler answers: its own `HTTPError` or `WebSocketError`,
    and what opening a connection throws after the `try` block. -/
def Call.OwnError : Call T → Error → Prop
  | .blocksPost .. | .blocksPersistPost .. => Error.IsBadRequest
  | .peersPost _ connection =>
    fun e => e.IsBadRequest ∨ ∃ what, connection = .error what ∧ e = .exception what
  | .requestLatestBlock | .receiveLatestBlock .. | .receiveAllBlocks _ => Error.IsWebSocket
  | .other request => LookupData.OwnError request
  | .blocksGet | .blocksLatestGet | .peersGet | .requestAllBlocks => fun _ => False

/-- The host and the port of a peer. -/
def peerFields : List (String × (Json → Prop)) :=
  [("host", fun j => ∃ str, j.getString = .ok str), ("port", fun _ => True)]

/-- The lookups of the peer that a block comes from are defined. -/
def OriginDefined (data : Json) : Prop :=
  data.Lookable "origin" ∧
    ∀ origin, data.find? "origin" = some origin → origin.Reads peerFields

variable [Env]

omit [LookupData T] in
/-- The block, once linked, is valid and stands beyond the next one. -/
def Ahead (n : Node T) (clock : Clock) (b : Block T) : Prop :=
  ({ b with data := link n.members b.data } : Block T).valid (clock 0) = .ok () ∧
    n.blockchain.length < b.index.toNat

/-- Where the data of the call is an object, it has the key that is looked up, and so
    have the values inside it that are looked into. -/
def LookupsDefined (n : Node T) (clock : Clock) : Call T → Prop
  | .blocksPost data _ => LookupData.AssembleDefined T data
  | .blocksPersistPost data _ => data.Lookable "file"
  | .peersPost data _ => data.Reads peerFields
  | .receiveLatestBlock data _ =>
    data.Lookable "block" ∧
      ∀ j, data.find? "block" = some j →
        j.Reads (Block.fields T) ∧
          ∀ b, Block.fromJson j = .ok b → n.Ahead clock b → OriginDefined data
  | .receiveAllBlocks data =>
    data.Lookable "blockchain" ∧
      ∀ j, data.find? "blockchain" = some j →
        ∀ before b after, j.items = before ++ b :: after →
          (∃ bc : Blockchain T, Blockchain.fromJson (.array before) clock = .ok bc) →
            b.Reads (Block.fields T)
  | _ => True

/-- If the call is over, the handler has returned, or thrown an error of its own. -/
def Answered (n : Node T) (clock : Clock) (call : Call T) : Prop :=
  ∀ reply, n.handle clock call = some reply → reply.answer.OnlyFails call.OwnError

/-! ## HTTP -/

theorem answered_blocksPost_iff (n : Node T) (clock : Clock) (data : Json) (fuel : Nat) :
    n.Answered clock (.blocksPost data fuel) ↔ LookupData.AssembleDefined T data := by
  have hassemble := LookupData.defined_assemble_iff n.members n.blockchain.length data
  have hrethrow : ∀ e, (Error.rethrow
      (fun what => Error.http 400 (malformed "POST /blocks" data what))
      (.error e) : Except Error Json).OnlyFails Error.IsBadRequest ↔ e.IsException := by
    intro e
    exact Error.onlyFails_rethrow_http_iff.trans onlyFails_error
  simp only [Answered, handle, handleBlocksPost, Call.OwnError, ← hassemble]
  split
  · next e members heq =>
    simp [heq, hrethrow]
  · next d members heq =>
    simp only [heq, onlyFails_ok, iff_true]
    intro reply hreply
    split at hreply
    · cases hreply
    · next e bc hconstruct =>
      cases hreply
      exact (hrethrow e).mpr (onlyFails_error.mp (Blockchain.defined_constructNextBlock hconstruct))
    · obtain ⟨members', -, hreply⟩ := Option.bind_eq_some_iff.mp hreply
      cases hreply
      exact onlyFails_ok _

theorem answered_blocksPersistPost_iff (n : Node T) (clock : Clock) (data : Json)
    (file : Except String Unit) :
    n.Answered clock (.blocksPersistPost data file) ↔ data.Lookable "file" := by
  simp only [Answered, handle, handleBlocksPersistPost, Option.some.injEq, forall_eq',
    Call.OwnError]
  rw [Error.onlyFails_rethrow_http_iff]
  simp only [onlyFails_bind_iff, Json.defined_atKey_iff, Json.defined_getString, true_and]
  refine ⟨And.left, fun h => ⟨h, fun _ _ _ _ => ?_⟩⟩
  cases file <;> simp [Error.IsException]

omit [Env] in
theorem defined_readPeer_iff {data : Json} :
    Defined (do
      let host ← (← data.atKey "host").getString
      let port ← (← data.atKey "port").getUInt16
      return (host, port)) ↔ data.Reads peerFields := by
  simp only [onlyFails_bind_iff, Json.defined_atKey_iff, Json.atKey_eq_ok, Json.defined_getString,
    Json.defined_getUInt16, onlyFails_pure, true_and, and_true, implies_true, peerFields,
    Json.Reads, forall_exists_index]

/-- Opening the connection is the only other thing that throws. -/
theorem answered_peersPost_iff (n : Node T) (clock : Clock) (data : Json)
    (connection : Except String Unit) :
    n.Answered clock (.peersPost data connection) ↔ data.Reads peerFields := by
  have hrequested : (requestedPeer data).OnlyFails
        (Call.OwnError (.peersPost data connection : Call T)) ↔ data.Reads peerFields := by
    refine (Error.onlyFails_rethrow_iff (fun _ => .inl rfl) ?_ ?_).trans defined_readPeer_iff
    · rintro what (h | ⟨_, -, h⟩)
      · exact h
      · cases h
    · rintro (h | ⟨_, -, h⟩)
      · exact h
      · cases h
  rw [← hrequested]
  simp only [Answered, handle, Option.some.injEq, forall_eq', handlePeersPost]
  cases requestedPeer data with
  | error e => exact onlyFails_error.trans onlyFails_error.symm
  | ok peer =>
    refine iff_of_true ?_ (onlyFails_ok peer)
    cases connection with
    | error what => exact onlyFails_error.mpr (.inr ⟨what, rfl, rfl⟩)
    | ok _ => exact onlyFails_ok _

/-! ## WebSocket -/

omit [LookupData T] [Env] in
theorem answered_requestLatestBlock (n : Node T) :
    n.handleRequestLatestBlock.answer.OnlyFails Error.IsWebSocket := by
  unfold handleRequestLatestBlock
  cases n.blockchain.latestBlock? with
  | none => exact onlyFails_error.mpr trivial
  | some b => exact onlyFails_ok _

omit [Env] in
/-- The origin is looked up twice, and is there the second time if it was the first. -/
theorem defined_readOrigin_iff {data : Json} :
    Defined (do
      let host ← (← (← data.atKey "origin").atKey "host").getString
      let port ← (← (← data.atKey "origin").atKey "port").getUInt16
      return (host, port)) ↔ OriginDefined data := by
  have horigin : Defined (data.atKey "origin") ↔ data.Lookable "origin" := Json.defined_atKey_iff
  cases hread : data.atKey "origin" with
  | error e =>
    have hmissing : ∀ origin, data.find? "origin" ≠ some origin := by
      intro origin hfind
      cases hread.symm.trans (Json.atKey_eq_ok.mpr hfind)
    rw [hread] at horigin
    simp only [OriginDefined, hmissing, false_implies, implies_true, and_true]
    exact onlyFails_error.trans (onlyFails_error.symm.trans horigin)
  | ok origin =>
    rw [hread] at horigin
    simp only [OriginDefined, horigin.mp (onlyFails_ok _), Json.atKey_eq_ok.mp hread, true_and,
      Option.some.injEq, forall_eq']
    exact defined_readPeer_iff

omit [LookupData T] in
theorem defined_requestFrom_iff (n : Node T) (data : Json) (connection : Except String Unit) :
    Defined (n.requestFrom data connection) ↔ OriginDefined data := by
  have hadd : ∀ peer : String × UInt16, Defined (
      let peerId := n.peers.find peer.1 peer.2
      if peerId = 0 then n.peers.add peer.1 peer.2 connection
      else pure (peerId, n.peers)) := by
    intro peer
    dsimp only
    split_ifs
    · cases connection <;> simp [WebSocketPeers.add, Error.IsException]
    · exact onlyFails_pure _
  refine onlyFails_bind_iff.trans ?_
  refine (and_iff_left fun peer _ => hadd peer).trans ?_
  exact (Error.onlyFails_rethrow_iff (fun _ => trivial) (fun _ h => h) fun h => h).trans
    defined_readOrigin_iff

omit [Env] in
theorem defined_receivedBlock_iff (n : Node T) (data : Json) :
    Defined (n.receivedBlock data) ↔
      data.Lookable "block" ∧
        ∀ j, data.find? "block" = some j → j.Reads (Block.fields T) := by
  refine onlyFails_bind_iff.trans (and_congr Json.defined_atKey_iff ?_)
  refine forall_congr' fun j => imp_congr Json.atKey_eq_ok ?_
  refine onlyFails_bind_iff.trans ((and_iff_left fun _ _ => onlyFails_pure _).trans ?_)
  exact Block.defined_fromJson_iff LookupData.defined_fromJson

omit [LookupData T] in
/-- The origin is looked up only for a block that stands beyond the next one. -/
theorem defined_judge_of_receivedBlock {n : Node T} {clock : Clock} {data : Json}
    {connection : Except String Unit} {b : Block T} (h : n.receivedBlock data = .ok b) :
    Defined (n.judge data clock connection) ↔
      (b.valid (clock 0) = .ok () ∧ n.blockchain.length < b.index.toNat →
        OriginDefined data) := by
  simp only [judge, h, bind, Except.bind]
  cases b.valid (clock 0) with
  | error e => simp [Error.IsException]
  | ok _ =>
    simp only [true_and]
    by_cases hbeyond : b.index.toNat > n.blockchain.length
    · rw [if_pos hbeyond]
      refine onlyFails_bind_iff.trans ((and_iff_left fun _ _ => onlyFails_pure _).trans ?_)
      exact (n.defined_requestFrom_iff data connection).trans (imp_iff_right hbeyond).symm
    · rw [if_neg hbeyond]
      refine iff_of_true ?_ fun h => absurd h hbeyond
      split_ifs <;> exact onlyFails_ok _

theorem defined_judge_iff (n : Node T) (clock : Clock) (data : Json)
    (connection : Except String Unit) :
    Defined (n.judge data clock connection) ↔
      n.LookupsDefined clock (.receiveLatestBlock data connection) := by
  have hreceived := n.defined_receivedBlock_iff data
  constructor
  · intro hjudge
    have hdecode : Defined (n.receivedBlock data) := (onlyFails_bind_iff.mp hjudge).1
    refine ⟨(hreceived.mp hdecode).1, fun j hfind => ⟨(hreceived.mp hdecode).2 j hfind, ?_⟩⟩
    intro b hread hahead
    exact (defined_judge_of_receivedBlock
      (receivedBlock_eq_ok.mpr ⟨j, b, hfind, hread, rfl⟩)).mp hjudge hahead
  · rintro ⟨hlookup, hlater⟩
    cases hdecode : n.receivedBlock data with
    | error e =>
      have hdefined := hreceived.mpr ⟨hlookup, fun j hfind => (hlater j hfind).1⟩
      rw [hdecode] at hdefined
      simp only [judge, hdecode, bind, Except.bind]
      exact onlyFails_error.mpr (onlyFails_error.mp hdefined)
    | ok linked =>
      obtain ⟨j, b, hfind, hread, rfl⟩ := receivedBlock_eq_ok.mp hdecode
      exact (defined_judge_of_receivedBlock hdecode).mpr ((hlater j hfind).2 b hread)

theorem answered_receiveLatestBlock_iff (n : Node T) (clock : Clock) (data : Json)
    (connection : Except String Unit) :
    n.Answered clock (.receiveLatestBlock data connection) ↔
      n.LookupsDefined clock (.receiveLatestBlock data connection) := by
  have hjudge := n.defined_judge_iff clock data connection
  have hrethrow : ∀ e, (Error.rethrow
      (fun what => Error.webSocket (malformed "receive_latest_block" data what))
      (.error e) : Except Error Json).OnlyFails Error.IsWebSocket ↔ e.IsException := by
    intro e
    exact Error.onlyFails_rethrow_webSocket_iff.trans onlyFails_error
  rw [← hjudge]
  simp only [Answered, handle, handleReceiveLatestBlock, Call.OwnError]
  cases hverdict : n.judge data clock connection with
  | error e =>
    simp only [Option.some.injEq, forall_eq']
    exact (hrethrow e).trans onlyFails_error.symm
  | ok verdict =>
    refine iff_of_true (fun reply hreply => ?_) (onlyFails_ok verdict)
    cases verdict with
    | ignore =>
      cases hreply
      exact onlyFails_ok _
    | requestAll b peerId peers =>
      obtain ⟨members, -, hreply⟩ := Option.bind_eq_some_iff.mp hreply
      cases hreply
      exact onlyFails_ok _
    | append b =>
      have happend := n.blockchain.looksUp_appendNextBlock b (clock 1)
      dsimp only at hreply
      split at hreply
      · cases hreply
      · next e bc hne heq =>
        cases hreply
        rw [heq] at happend
        refine (hrethrow e).mpr ?_
        cases e with
        | undefined what => exact absurd rfl (onlyFails_error.mp happend what)
        | crash => exact absurd rfl hne
        | _ => trivial
      · obtain ⟨members, -, hreply⟩ := Option.bind_eq_some_iff.mp hreply
        cases hreply
        exact onlyFails_ok _

theorem looksUp_receivedChain_iff (n : Node T) (data : Json) (clock : Clock) :
    LooksUp (receivedChain data clock : Except Error (Blockchain T)) ↔
      n.LookupsDefined clock (.receiveAllBlocks data) := by
  have hlookup : LooksUp (data.atKey "blockchain") ↔ data.Lookable "blockchain" := by
    rw [looksUp_iff_defined (data.onlyFails_atKey "blockchain"), Json.defined_atKey_iff]
  refine onlyFails_bind_iff.trans (and_congr hlookup ?_)
  refine forall_congr' fun j => imp_congr Json.atKey_eq_ok ?_
  refine onlyFails_bind_iff.trans ((and_iff_left fun bc _ => ?_).trans ?_)
  · split <;> simp
  · exact Blockchain.looksUp_appendAll_iff LookupData.defined_fromJson .new j.items clock

theorem answered_receiveAllBlocks_iff (n : Node T) (clock : Clock) (data : Json) :
    n.Answered clock (.receiveAllBlocks data) ↔
      n.LookupsDefined clock (.receiveAllBlocks data) := by
  rw [← n.looksUp_receivedChain_iff data clock]
  simp only [Answered, handle, handleReceiveAllBlocks, Call.OwnError]
  cases hchain : (receivedChain data clock : Except Error (Blockchain T)) with
  | error e =>
    cases e with
    | crash => simp
    | _ => simp [Error.rethrow, Error.IsWebSocket]
  | ok bc =>
    refine iff_of_true (fun reply hreply => ?_) (onlyFails_ok bc)
    obtain ⟨exceeds, -, hreply⟩ := Option.bind_eq_some_iff.mp hreply
    cases exceeds with
    | false =>
      cases hreply
      exact onlyFails_ok _
    | true =>
      obtain ⟨members, -, hreply⟩ := Option.bind_eq_some_iff.mp hreply
      cases hreply
      exact onlyFails_ok _

theorem answered_iff_lookupsDefined (n : Node T) (clock : Clock) (call : Call T) :
    n.Answered clock call ↔ n.LookupsDefined clock call := by
  have hreturns : ∀ {reply : Reply T}, n.handle clock call = some reply →
      reply.answer.OnlyFails call.OwnError → (n.Answered clock call ↔ True) := by
    rintro reply hhandle hanswer
    refine iff_of_true (fun reply' hreply' => ?_) trivial
    cases hhandle.symm.trans hreply'
    exact hanswer
  cases call with
  | blocksPost data fuel => exact n.answered_blocksPost_iff clock data fuel
  | blocksPersistPost data file => exact n.answered_blocksPersistPost_iff clock data file
  | peersPost data connection => exact n.answered_peersPost_iff clock data connection
  | receiveLatestBlock data connection =>
    exact n.answered_receiveLatestBlock_iff clock data connection
  | receiveAllBlocks data => exact n.answered_receiveAllBlocks_iff clock data
  | requestLatestBlock => exact hreturns rfl n.answered_requestLatestBlock
  | other request => exact hreturns rfl (LookupData.onlyFails_serve n.members _ request)
  | blocksGet => exact hreturns rfl (onlyFails_ok _)
  | blocksLatestGet => exact hreturns rfl (onlyFails_ok _)
  | peersGet => exact hreturns rfl (onlyFails_ok _)
  | requestAllBlocks => exact hreturns rfl (onlyFails_ok _)

end Node

-- ---------------------------------------------------------------------------
-- The two builds
-- ---------------------------------------------------------------------------

/-- The text of a block is the whole request. -/
instance : LookupData Text where
  AssembleDefined _ := True
  OwnError request := nomatch request
  defined_fromJson := Text.defined_fromJson
  defined_assemble_iff _ _ j := iff_of_true (Text.defined_fromJson j) trivial
  onlyFails_serve _ _ request := nomatch request
  setup_isSome _ := rfl

/-- The errors that answer the requests about transactions. -/
def TransactionRequest.OwnError : TransactionRequest → Error → Prop
  | .transactionsPost _ => Error.IsBadRequest
  | .receiveTransaction _ => Error.IsWebSocket
  | .transactionsLatestGet | .transactionsUnconfirmedGet | .transactionsUnspentGet =>
    fun _ => False

namespace TransactionMembers

variable [Env]

theorem defined_assemble_iff (m : TransactionMembers) (length : Nat) (data : Json) :
    Defined (m.assemble length data).1 ↔ data.Lookable "address" := by
  have haddress : Defined (do (← data.atKey "address").getString) ↔ data.Lookable "address" :=
    onlyFails_bind_iff.trans
      ((and_iff_left fun j _ => j.defined_getString).trans Json.defined_atKey_iff)
  rw [← haddress]
  unfold assemble
  split
  · next e heq =>
    rw [heq]
    exact onlyFails_error.trans onlyFails_error.symm
  · next address heq =>
    rw [heq]
    exact iff_of_true (onlyFails_ok _) (onlyFails_ok address)

/-- The handlers of transactions answer with nothing but their own errors. -/
theorem onlyFails_serve (m : TransactionMembers) (data : List TransactionList)
    (request : TransactionRequest) :
    (m.serve data request).2.1.OnlyFails request.OwnError := by
  cases request with
  | transactionsLatestGet => exact onlyFails_ok _
  | transactionsUnconfirmedGet => exact onlyFails_ok _
  | transactionsUnspentGet => exact onlyFails_ok _
  | transactionsPost json =>
    have hadd : ∀ t : Transaction, Defined (m.unconfirmedPool.add t) := by
      intro t
      unfold TransactionUnconfirmedPool.add
      repeat' split
      all_goals simp [Error.IsException]
    simp only [serve, handleTransactionsPost]
    split
    · next e heq =>
      refine onlyFails_error.mpr (?_ : e.IsBadRequest)
      refine onlyFails_error.mp (heq ▸ Error.onlyFails_rethrow_http_iff.mpr ?_)
      simp [onlyFails_bind_iff, hadd]
    · exact onlyFails_ok _
  | receiveTransaction json =>
    simp only [serve, handleReceiveTransaction]
    split
    · next e heq =>
      refine onlyFails_error.mpr (?_ : e.IsWebSocket)
      refine onlyFails_error.mp (heq ▸ Error.onlyFails_rethrow_webSocket_iff.mpr ?_)
      simp
    · split <;> exact onlyFails_ok _

end TransactionMembers

instance : LookupData TransactionList where
  AssembleDefined data := data.Lookable "address"
  OwnError := TransactionRequest.OwnError
  defined_fromJson := TransactionList.defined_fromJson
  defined_assemble_iff := TransactionMembers.defined_assemble_iff
  onlyFails_serve := TransactionMembers.onlyFails_serve
  setup_isSome h := by
    have hinputs := Blockchain.inputs_eq_nil_of_fromJson h
    exact Option.isSome_iff_exists.mpr ⟨_, TransactionMembers.setup_of_inputs_eq_nil hinputs⟩

namespace Node

/-- In both builds a handler answers a message with a result or with its own error
    exactly if the message has the keys that the handler looks up through `operator[]`.
    Of transactions it needs none: those lookups are checked. -/
theorem everyMessage_answered_iff [Env] (clock : Clock) :
    (∀ (n : Node Text) (call : Call Text), n.Answered clock call ↔ n.LookupsDefined clock call) ∧
    (∀ (n : Node TransactionList) (call : Call TransactionList),
      n.Answered clock call ↔ n.LookupsDefined clock call) :=
  ⟨fun n call => n.answered_iff_lookupsDefined clock call,
    fun n call => n.answered_iff_lookupsDefined clock call⟩

/-- The empty object crashes a fresh node, whether it is sent as a message of a peer
    or posted. -/
theorem not_answered_of_emptyObject :
    letI := plainBuild
    ¬ (new "localhost" 8332 : Node Text).Answered .epoch
      (.receiveLatestBlock (.object []) (.ok ())) ∧
    ¬ (new "localhost" 8332 : Node Text).Answered .epoch (.receiveAllBlocks (.object [])) ∧
    ¬ (new "localhost" 8332 : Node Text).Answered .epoch (.peersPost (.object []) (.ok ())) ∧
    ¬ (new "localhost" 8332 : Node TransactionList).Answered .epoch
      (.blocksPost (.object []) 0) := by
  let env := plainBuild
  have hmissing : ∀ key, ¬ (Json.object []).Lookable key := fun key hlookable =>
    absurd (hlookable rfl) (by simp [Json.contains])
  refine ⟨fun h => ?_, fun h => ?_, fun h => ?_, fun h => ?_⟩
  · exact hmissing "block" ((answered_iff_lookupsDefined _ _ _).mp h).1
  · exact hmissing "blockchain" ((answered_iff_lookupsDefined _ _ _).mp h).1
  · exact hmissing "host" ((answered_iff_lookupsDefined _ _ _).mp h).1
  · exact hmissing "address" ((answered_iff_lookupsDefined _ _ _).mp h)

end Node

end BuenzliCoin
