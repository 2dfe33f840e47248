-- SUMMARY: The commands of the wallet against a node, and what a node comes to that only wallets post to.
import BuenzliCoin.Node.Failure
import BuenzliCoin.Wallet.Transfer

/-!
# Commands

The wallet posts a bare JSON string to `/blocks`, where the node looks for the field
`address` of an object, and does not look at the status of the answer. So its
command `mine` reports success, and no block is ever mined.
-/

namespace BuenzliCoin

open GoString Runs

-- ---------------------------------------------------------------------------
-- Commands
-- ---------------------------------------------------------------------------

/-- The body of the answer to a `GET` request, if it is JSON. -/
def Node.get [Env] (n : Node TransactionList) (request : TransactionRequest) :
    Except Failure Json :=
  match (n.ledger.serve (n.blockchain.blocks.map Block.data) request).2.1 with
  | .ok answer => .ok answer
  | .error _ => .error Unmarshal.mismatch

/-- The node answers, and takes what is posted. -/
def Services.facing [Env] (services : Services) (n : Node TransactionList) : Services :=
  { services with
    unspent := n.get .transactionsUnspentGet
    latest := n.get .transactionsLatestGet
    post := .ok () }

def noSuchWallet (name : GoString) : Failure :=
  .error (ofString "wallet '" ++ name ++ ofString "' does not exist")

/-- `mineIntoWallet(to)`, and what it posts. -/
def mineIntoWallet (dir recipient : GoString) (s : Storage) (services : Services) :
    Except Failure Unit × List Json :=
  match findWallet dir recipient s with
  | (.error e, _) => (.error (.error e), [])
  | (.ok none, _) => (.error (noSuchWallet recipient), [])
  | (.ok (some w), _) => (services.post, [Marshal.string w.address])

/-- `walletBalance(of)` -/
def walletBalance (dir owner : GoString) (s : Storage) (services : Services) :
    Except Failure Int64 :=
  match findWallet dir owner s with
  | (.error e, _) => .error (.error e)
  | (.ok none, _) => .error (noSuchWallet owner)
  | (.ok (some w), _) => do
    let unspentOutputs ← walletUnspentOutputs w services
    return unspentOutputs.foldl (fun balance unspentOutput =>
      balance + unspentOutput.output.amount) 0

/-- The subcommands with the values of their flags. `create` comes with the key pair
    that it generates. -/
inductive WalletCommand where
  | list
  | create (name : GoString) (key : KeyPair)
  | mine (recipient : GoString)
  | balance (owner : GoString)
  | transfer (sender recipient : GoString) (amount : Int64)

/-- A request to the node that may change it. -/
inductive WalletPost where
  | blocks (body : Json)
  | transactions (body : Json)

/-- The call that the node handles. -/
def WalletPost.input (clock : Clock) (fuel : Nat) :
    WalletPost → Clock × Node.Call TransactionList
  | blocks body => (clock, .blocksPost body fuel)
  | transactions body => (clock, .other (.transactionsPost body))

namespace WalletCommand

/-- The check of the flags in `run`. -/
def checkFlags : WalletCommand → Except Failure Unit
  | list => .ok ()
  | create name _ =>
    if name = [] then .error (.error (ofString "-name argument is required")) else .ok ()
  | mine recipient =>
    if recipient = [] then .error (.error (ofString "-to argument is required")) else .ok ()
  | balance owner =>
    if owner = [] then .error (.error (ofString "-of argument is required")) else .ok ()
  | transfer sender recipient amount =>
    if sender = [] then .error (.error (ofString "-from argument is required"))
    else if recipient = [] then .error (.error (ofString "-to argument is required"))
    else if amount ≤ 0 then .error (.error (ofString "-amount argument must be positive"))
    else .ok ()

/-- What a command prints if it succeeds, the storage after it, and what it posts. -/
def perform (dir : GoString) (s : Storage) (services : Services) (command : WalletCommand) :
    Except Failure GoString × Storage × List WalletPost :=
  match command.checkFlags with
  | .error e => (.error e, s, [])
  | .ok () =>
    match command with
    | list =>
      let (ws, s) := getWallets dir s
      ((ws.mapError Failure.error).map fun ws =>
        ws.flatMap fun w => w.name ++ ofString ": " ++ w.address ++ [newline], s, [])
    | create name key =>
      let (done, s) := createWallet dir name key s
      ((done.mapError Failure.error).map fun _ => [], s, [])
    | mine recipient =>
      let (done, posted) := mineIntoWallet dir recipient s services
      (done.map fun _ => [], s.openFile (walletsFilePath dir), posted.map .blocks)
    | balance owner =>
      ((walletBalance dir owner s services).map fun balance => itoa balance ++ [newline],
        s.openFile (walletsFilePath dir), [])
    | transfer sender recipient amount =>
      let (done, posted) := walletTransfer dir sender recipient amount s services
      (done.map fun _ => [], s.openFile (walletsFilePath dir), posted.map .transactions)

/-- A command of a wallet that faces the node, which then handles what is posted. -/
def step [Env] (dir : GoString) (services : Services) (st : Storage × Node TransactionList)
    (input : (Clock × Nat) × WalletCommand) : Option (Storage × Node TransactionList) :=
  let (s, posted) := (input.2.perform dir st.1 (services.facing st.2)).2
  (run Node.step st.2 (posted.map (·.input input.1.1 input.1.2))).map (s, ·)

theorem step_eq [Env] (dir : GoString) (services : Services) (st : Storage × Node TransactionList)
    (input : (Clock × Nat) × WalletCommand) :
    step dir services st input =
      (run Node.step st.2 ((input.2.perform dir st.1 (services.facing st.2)).2.2.map
        (·.input input.1.1 input.1.2))).map
        ((input.2.perform dir st.1 (services.facing st.2)).2.1, ·) := rfl

end WalletCommand

-- ---------------------------------------------------------------------------
-- What is posted
-- ---------------------------------------------------------------------------

theorem mineIntoWallet_posted (dir recipient : GoString) (s : Storage) (services : Services) :
    (mineIntoWallet dir recipient s services).2 = [] ∨
      ∃ address, (mineIntoWallet dir recipient s services).2 = [.string address] := by
  unfold mineIntoWallet
  split
  · exact .inl rfl
  · exact .inl rfl
  · exact .inr ⟨_, rfl⟩

variable [Env]

/-- A node without blocks has no latest transactions, and the wallet panics. -/
theorem prepareTransfer_of_no_blocks {w : Wallet} {recipient : GoString} {amount : Int64}
    {s : Storage} {services : Services} {n : Node TransactionList}
    (hempty : n.blockchain.blocks = []) :
    ∃ e, prepareTransfer w recipient amount s (services.facing n) = .error e := by
  have hlatest : (services.facing n).latest = .ok .null := by
    simp [Services.facing, Node.get, TransactionMembers.serve, hempty]
  unfold prepareTransfer
  cases walletUnspentOutputs w (services.facing n) with
  | error e => exact ⟨e, rfl⟩
  | ok own =>
    rw [hlatest]
    exact ⟨.panic, rfl⟩

theorem walletTransfer_posted (dir sender recipient : GoString) (amount : Int64) (s : Storage)
    (services : Services) (n : Node TransactionList) :
    (walletTransfer dir sender recipient amount s (services.facing n)).2 = [] ∨
      n.blockchain.blocks ≠ [] ∧
      ∃ j, (walletTransfer dir sender recipient amount s (services.facing n)).2 = [j] := by
  unfold walletTransfer
  split
  · exact .inl rfl
  · exact .inl rfl
  · next w s' _ =>
    split
    · exact .inl rfl
    · next trans hprepare =>
      refine .inr ⟨fun hempty => ?_, _, rfl⟩
      obtain ⟨e, he⟩ := prepareTransfer_of_no_blocks hempty
      cases he.symm.trans hprepare

/-- A command posts at most once: a JSON string to `/blocks`, or something to
    `/transactions` if there are blocks. -/
theorem WalletCommand.perform_posted (dir : GoString) (s : Storage) (services : Services)
    (n : Node TransactionList) (command : WalletCommand) :
    (command.perform dir s (services.facing n)).2.2 = [] ∨
    (∃ address, (command.perform dir s (services.facing n)).2.2 = [.blocks (.string address)]) ∨
    n.blockchain.blocks ≠ [] ∧
      ∃ j, (command.perform dir s (services.facing n)).2.2 = [.transactions j] := by
  unfold perform
  cases command.checkFlags with
  | error e => exact .inl rfl
  | ok _ =>
    cases command with
    | mine recipient =>
      obtain hnone | ⟨address, hone⟩ := mineIntoWallet_posted dir recipient s (services.facing n)
      · exact .inl (congrArg (List.map WalletPost.blocks) hnone)
      · exact .inr (.inl ⟨address, congrArg (List.map WalletPost.blocks) hone⟩)
    | transfer sender recipient amount =>
      obtain hnone | ⟨hblocks, j, hone⟩ :=
        walletTransfer_posted dir sender recipient amount s services n
      · exact .inl (congrArg (List.map WalletPost.transactions) hnone)
      · exact .inr (.inr ⟨hblocks, j, congrArg (List.map WalletPost.transactions) hone⟩)
    | _ => exact .inl rfl

-- ---------------------------------------------------------------------------
-- Nothing is mined
-- ---------------------------------------------------------------------------

/-- A string has no field `address`. -/
theorem Node.handle_blocksPost_string (n : Node TransactionList) (clock : Clock) (fuel : Nat)
    (address : String) :
    ∃ what, n.handle clock (.blocksPost (.string address) fuel) =
      some { node := n, answer := .error (.http 400 what) } :=
  ⟨_, rfl⟩

/-- The chain and the unspent outputs are those of `n`, and so is all the rest if there
    are no blocks. -/
structure Node.Unmined (n n' : Node TransactionList) : Prop where
  blockchain : n'.blockchain = n.blockchain
  unspentOutputs : n'.unspentOutputs = n.unspentOutputs
  unchanged : n.blockchain.blocks = [] → n' = n

omit [Env] in
theorem Node.Unmined.refl (n : Node TransactionList) : Unmined n n := ⟨rfl, rfl, fun _ => rfl⟩

/-- A transaction that is offered does not change the chain. -/
theorem Node.unmined_of_transactionsPost {n n' : Node TransactionList} {clock : Clock} {j : Json}
    (hblocks : n.blockchain.blocks ≠ [])
    (hstep : n.step (clock, .other (.transactionsPost j)) = some n') : Unmined n n' := by
  obtain ⟨reply, hhandle, rfl⟩ := step_eq_some.mp hstep
  obtain ⟨hblockchain, hutxos⟩ := handle_other_unchanged hhandle
  exact ⟨hblockchain, hutxos, fun hempty => absurd hempty hblocks⟩

theorem WalletCommand.unmined_of_step {dir : GoString} {services : Services}
    {st st' : Storage × Node TransactionList} {input : (Clock × Nat) × WalletCommand}
    (hstep : step dir services st input = some st') : Node.Unmined st.2 st'.2 := by
  rw [step_eq] at hstep
  obtain ⟨n', hrun, rfl⟩ := Option.map_eq_some_iff.mp hstep
  obtain hnone | ⟨address, hone⟩ | ⟨hblocks, j, hone⟩ :=
    perform_posted dir st.1 services st.2 input.2
  · rw [hnone] at hrun
    cases hrun
    exact .refl _
  · rw [hone] at hrun
    obtain ⟨what, hhandle⟩ := st.2.handle_blocksPost_string input.1.1 input.1.2 address
    simp only [List.map_singleton, WalletPost.input, run, Node.step, hhandle, Option.map_some,
      Option.bind_some, Option.some.injEq] at hrun
    rw [← hrun]
    exact .refl _
  · rw [hone] at hrun
    simp only [List.map_singleton, WalletPost.input, run] at hrun
    obtain ⟨n'', hpost, hn⟩ := Option.bind_eq_some_iff.mp hrun
    cases hn
    exact Node.unmined_of_transactionsPost hblocks hpost

/-- Whatever commands are given, with whatever flags and in whatever order: as long as a
    node hears of nothing else, its chain and its list of unspent outputs stay as they
    are, and if it has no blocks, so does everything. -/
theorem WalletCommand.everyState_unmined (dir : GoString) (services : Services) (s : Storage)
    (n : Node TransactionList) (inputs : List ((Clock × Nat) × WalletCommand)) :
    EveryState (step dir services) (fun st => n.Unmined st.2) (s, n) inputs := by
  refine EveryState.of_invariant (fun st input st' h hstep => ?_) (Node.Unmined.refl n)
  have hlast := unmined_of_step hstep
  refine ⟨hlast.blockchain.trans h.blockchain, hlast.unspentOutputs.trans h.unspentOutputs, ?_⟩
  intro hempty
  have hsame := h.unchanged hempty
  rw [← hsame] at hempty ⊢
  exact hlast.unchanged hempty

end BuenzliCoin
