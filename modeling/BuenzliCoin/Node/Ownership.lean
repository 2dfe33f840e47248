-- SUMMARY: Who may spend what on the chain of a node, and that no coin gets lost.
import BuenzliCoin.Ledger.Custody
import BuenzliCoin.Node.Supply

/-!
# Ownership

Along a run of regular calls, every output on the chain is either listed as unspent
or named by an input on the chain, and every input on the chain carries a signature
by the address of the output that it names. If the sums fit, what is listed as
unspent is exactly what has been minted.
-/

namespace BuenzliCoin

open CoinHistory Runs TransactionUnspentOutputs

namespace Node

variable [Env]

-- ---------------------------------------------------------------------------
-- Signatures
-- ---------------------------------------------------------------------------

/-- The input names one of the coins, and is signed by its address. -/
def SignedFor (coins : List UTxO) (t : Transaction) (txi : TxI) : Prop :=
  ∃ utxo ∈ coins, utxo.ref = txi.ref ∧ t.hash = t.determineHash ∧
    Env.verify utxo.output.address t.hash txi.signature = .ok true

theorem SignedFor.mono {coins coins' : List UTxO} {t : Transaction} {txi : TxI}
    (h : SignedFor coins t txi) (hsub : coins ⊆ coins') : SignedFor coins' t txi := by
  obtain ⟨utxo, hmem, hsigned⟩ := h
  exact ⟨utxo, hsub hmem, hsigned⟩

/-- Validation checks the inputs of a transaction against its snapshot. -/
theorem signedFor_of_valid {t : Transaction} {txi : TxI}
    (hnodup : (t.unspentOutputs.map UTxO.ref).Nodup) (hvalid : t.valid = .ok ())
    (htxi : txi ∈ t.inputs) : SignedFor t.unspentOutputs t txi := by
  obtain ⟨-, hstandard⟩ := standard_of_mem_inputs hvalid htxi
  obtain ⟨hhash, hinputs, -⟩ := Transaction.validStandard_eq_ok.mp hstandard
  have hinput := hinputs txi htxi
  obtain ⟨utxo, hmem, href⟩ := List.mem_map.mp (Transaction.mem_of_inputAddress_ne hinput.found)
  refine ⟨utxo, hmem, href, hhash, ?_⟩
  rw [← Transaction.inputAddress_of_mem hnodup hmem href]
  exact hinput.signed

/-- The inputs on the chain are signed by the addresses of the outputs they name, which
    are on the chain as well. -/
structure Authorized (n : Node TransactionList) : Prop extends n.Tracked where
  signed : ∀ t ∈ n.blockchain.transactions, ∀ txi ∈ t.inputs,
    SignedFor (created n.blockchain.history) t txi

theorem Authorized.step {n n' : Node TransactionList} {input : Clock × Call TransactionList}
    (hn : n.Authorized) (hregular : n.Regular input) (hstep : n.step input = some n') :
    n'.Authorized := by
  have hhistory := historyStep_of_step hregular.skips hstep
  refine ⟨hn.toTracked.historyStep hregular hhistory, ?_⟩
  cases hhistory with
  | same hblocks hutxos hpool =>
    simp only [Blockchain.history, Blockchain.transactions_congr hblocks]
    exact hn.signed
  | @extended b hadds hblocks hvalid hlinked hutxos hpool =>
    intro t ht txi htxi
    rw [Blockchain.history_concat hblocks, created_append]
    rw [Blockchain.transactions_concat hblocks, List.mem_append] at ht
    rcases ht with ht | ht
    · exact (hn.signed t ht txi htxi).mono (List.subset_append_left ..)
    · have hsnapshot : t.unspentOutputs.Sublist (created n.blockchain.history) := by
        rcases hlinked t ht with hpooled | hlisted
        · exact hn.pool t hpooled
        · rw [hn.unspentOutputs] at hlisted
          exact hlisted.trans (unspent_sublist _)
      have hnodup := hn.sound.createdNodup.sublist (hsnapshot.map _)
      have hsigned := signedFor_of_valid hnodup (TransactionList.valid_of_mem hvalid ht) htxi
      exact hsigned.mono fun utxo hmem => List.mem_append_left _ (hsnapshot.subset hmem)
  | adopted hadopts hutxos hpool =>
    -- A chain that was decoded has no inputs.
    intro t ht txi htxi
    obtain ⟨j, clock, hdecoded⟩ := hadopts.decoded
    rw [Blockchain.inputs_eq_nil_of_fromJson hdecoded t ht] at htxi
    cases htxi

/-- If the sums fit, an accepted transaction creates exactly what it spends and mints. -/
theorem total_newUnspentOutputs_eq {h : List (Transfer OutputRef UTxO)} {t : Transaction}
    (hs : Sound UTxO.ref h) (hvalid : t.valid = .ok ())
    (hlinked : t.unspentOutputs.Sublist (created h))
    (hsum : t.type = .standard → total UTxO.amount t.newUnspentOutputs < 2 ^ 64)
    (hspent : (t.refs.map (amountAt UTxO.ref UTxO.amount (created h))).sum < 2 ^ 64) :
    total UTxO.amount t.newUnspentOutputs =
      (t.refs.map (amountAt UTxO.ref UTxO.amount (created h))).sum + minted t := by
  have hle := total_newUnspentOutputs_le hs hvalid hlinked hsum
  refine le_antisymm hle ?_
  cases htype : t.type with
  | reward =>
    have hreward := hvalid
    rw [Transaction.valid, htype] at hreward
    obtain ⟨-, hinputs, txo, houtputs, hamount⟩ := Transaction.validReward_eq_ok.mp hreward
    simp [total, Transaction.newUnspentOutputs, UTxO.amount, minted, Transaction.refs, hinputs,
      houtputs, hamount, htype]
  | standard =>
    have hstandard := hvalid
    rw [Transaction.valid, htype] at hstandard
    obtain ⟨-, hinputs, hbalance⟩ := Transaction.validStandard_eq_ok.mp hstandard
    have hamounts : (t.inputs.map fun txi => Transaction.amountIn t.unspentOutputs txi.ref) =
        t.refs.map (amountAt UTxO.ref UTxO.amount (created h)) := by
      rw [Transaction.refs, List.map_map]
      refine List.map_congr_left fun txi htxi => ?_
      have hfound := Transaction.mem_of_inputAddress_ne (hinputs txi htxi).found
      exact amountAt_of_sublist hlinked hs.createdNodup hfound
    rw [hamounts, Nat.mod_eq_of_lt hspent, Nat.mod_eq_of_lt (hsum htype)] at hbalance
    simp [hbalance, minted, htype]

/-- A regular call that brings in no sum that overflows, at a time when the rewards for
    all blocks would not overflow either. -/
structure ConservingSums (n : Node TransactionList) (input : Clock × Call TransactionList) :
    Prop extends n.RegularSums input where
  rewardsFit : config.transactionRewardAmount.toNat * n.blockchain.length < 2 ^ 64

/-- What is listed as unspent is what has been minted. -/
structure Conserved (n : Node TransactionList) : Prop extends n.Funded where
  exact : total UTxO.amount n.unspentOutputs = (n.blockchain.transactions.map minted).sum

theorem Conserved.total_lt {n : Node TransactionList} (h : n.Conserved)
    (hfit : config.transactionRewardAmount.toNat * n.blockchain.length < 2 ^ 64) :
    total UTxO.amount n.unspentOutputs < 2 ^ 64 :=
  (h.supply.trans (sum_map_transactions_le h.minting)).trans_lt hfit

theorem Conserved.step {n n' : Node TransactionList} {input : Clock × Call TransactionList}
    (hn : n.Conserved) (hsums : n.ConservingSums input) (hstep : n.step input = some n') :
    n'.Conserved := by
  have hregular := hsums.toRegular
  have hfunded := hn.toFunded.step hsums.toRegularSums hstep
  refine ⟨hfunded, ?_⟩
  have hexact := hn.exact
  cases historyStep_of_step hregular.skips hstep with
  | same hblocks hutxos hpool =>
    rw [hutxos, Blockchain.transactions_congr hblocks]
    exact hexact
  | @extended b hadds hblocks hvalid hlinked hutxos hpool =>
    have hfits := hn.fitsBlock hregular hadds
    have hcreates : ∀ t ∈ b.data.transactions, total UTxO.amount t.newUnspentOutputs + 0 =
        (t.refs.map (amountAt UTxO.ref UTxO.amount (created n.blockchain.history))).sum +
          minted t := by
      intro t ht
      have hspent := hfits.sum_amountAt_le UTxO.amount hn.sound (List.mem_map_of_mem ht)
      rw [← hn.unspentOutputs] at hspent
      refine total_newUnspentOutputs_eq hn.sound (TransactionList.valid_of_mem hvalid ht) ?_
        (hsums.sumsFit _ hadds t ht) (hspent.trans_lt (hn.total_lt hsums.rewardsFit))
      rcases hlinked t ht with hpooled | hlisted
      · exact hn.pool t hpooled
      · rw [hn.unspentOutputs] at hlisted
        exact hlisted.trans (unspent_sublist _)
    have htotal := total_unspent_append_block UTxO.amount hn.sound hfits hcreates
    rw [hn.unspentOutputs] at hexact
    rw [hfunded.unspentOutputs, Blockchain.history_concat hblocks,
      Blockchain.transactions_concat hblocks, List.map_append, List.sum_append, ← hexact, ← htotal]
    simp
  | adopted hadopts hutxos hpool =>
    have hfits := hregular.fitsBlock hadopts
    let start : List (Transfer OutputRef UTxO) := []
    have hcreates : ∀ t ∈ n'.blockchain.transactions, total UTxO.amount t.newUnspentOutputs + 0 =
        (t.refs.map (amountAt UTxO.ref UTxO.amount (created start))).sum + minted t := by
      intro t ht
      obtain ⟨j, clock, hdecoded⟩ := hadopts.decoded
      obtain ⟨hvalid, hunlinked⟩ := Blockchain.unlinked_of_fromJson hdecoded t ht
      refine total_newUnspentOutputs_eq sound_nil hvalid ?_ (hsums.adoptedSumsFit _ hadopts t ht) ?_
      · rw [hunlinked]
        exact List.nil_sublist _
      · rw [Transaction.refs, Blockchain.inputs_eq_nil_of_fromJson hdecoded t ht]
        exact Nat.two_pow_pos 64
    have htotal := total_unspent_append_block UTxO.amount sound_nil hfits hcreates
    have hnil : total UTxO.amount (unspent UTxO.ref start) = 0 := rfl
    have hzero : (n'.blockchain.transactions.map fun _ => 0).sum = 0 := by simp
    rw [hnil, hzero, Nat.zero_add, Nat.add_zero] at htotal
    rw [hfunded.unspentOutputs]
    exact htotal

end Node

-- ---------------------------------------------------------------------------
-- A reward that is spent once
-- ---------------------------------------------------------------------------

end BuenzliCoin
