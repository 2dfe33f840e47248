-- SUMMARY: Coins leave an address only with its signature.
import BuenzliCoin.Ledger.Validation

namespace BuenzliCoin

open Transaction

namespace TransactionUnspentOutputs

variable [Env]

/-- A reward spends nothing, so a valid transaction with an input is standard. -/
theorem standard_of_mem_inputs {t : Transaction} {txi : TxI} (hvalid : t.valid = .ok ())
    (htxi : txi ∈ t.inputs) : t.type = .standard ∧ t.validStandard = .ok () := by
  unfold Transaction.valid at hvalid
  cases htype : t.type with
  | standard =>
    rw [htype] at hvalid
    exact ⟨rfl, hvalid⟩
  | reward =>
    rw [htype] at hvalid
    rw [(validReward_eq_ok.mp hvalid).2.1] at htxi
    cases htxi

/-- An entry that a list of accepted transactions takes out was signed away by
    the holder of its address. -/
theorem exists_signed_input {us : TransactionUnspentOutputs} {ts : TransactionList} {index : UInt64}
    {utxo : UTxO} (hnodup : (us.map UTxO.ref).Nodup)
    (hlinked : ∀ t ∈ ts.transactions, t.unspentOutputs = us) (hvalid : ts.valid index = .ok ())
    (hmem : utxo ∈ us) (hgone : utxo ∉ us.updateAll ts.transactions) :
    ∃ t ∈ ts.transactions, t.type = .standard ∧ t.hash = t.determineHash ∧
      ∃ txi ∈ t.inputs, txi.ref = utxo.ref ∧
        Env.verify utxo.output.address t.hash txi.signature = .ok true := by
  obtain ⟨t, ht, txi, htxi, href⟩ := exists_input_of_updateAll hmem hgone
  have htransaction := TransactionList.valid_of_mem hvalid ht
  obtain ⟨htype, hstandard⟩ := standard_of_mem_inputs htransaction htxi
  obtain ⟨hhash, hinputs, -⟩ := validStandard_eq_ok.mp hstandard
  -- The snapshot holds one entry under this reference, the one that is gone.
  have haddress : t.inputAddress txi = utxo.output.address := by
    rw [← hlinked t ht] at hnodup hmem
    exact inputAddress_of_mem hnodup hmem href.symm
  refine ⟨t, ht, htype, hhash, txi, htxi, href, ?_⟩
  rw [← haddress]
  exact (hinputs txi htxi).signed

end TransactionUnspentOutputs

/-- An unspent output, and a block that pays it on. -/
def coin : UTxO := ⟨⟨[0x01]⟩, 0, ⟨50, "alice"⟩⟩

def payment : TransactionList :=
  letI := Env.withHash false fun _ => ⟨[]⟩
  ⟨[(reward "miner" 1).updateUnspentOutputs [coin],
    { type := .standard
      index := 1
      hash := ⟨[]⟩
      inputs := [⟨⟨[0x01]⟩, 0, ⟨[0x0a]⟩⟩]
      outputs := [⟨50, "bob"⟩]
      unspentOutputs := [coin] }]⟩

theorem TransactionUnspentOutputs.exists_signed_input_payment :
    letI := Env.withHash false fun _ => ⟨[]⟩
    coin ∉ updateAll [coin] payment.transactions ∧
    ∃ t ∈ payment.transactions, t.type = .standard ∧ t.hash = t.determineHash ∧
      ∃ txi ∈ t.inputs, txi.ref = coin.ref ∧
        Env.verify coin.output.address t.hash txi.signature = .ok true := by
  let env := Env.withHash false fun _ => ⟨[]⟩
  have hgone : coin ∉ updateAll [coin] payment.transactions := by decide +kernel
  have hvalid : payment.valid 1 = .ok () := rfl
  have hmem : coin ∈ [coin] := List.mem_singleton_self coin
  exact ⟨hgone, exists_signed_input (by decide) (by decide) hvalid hmem hgone⟩

end BuenzliCoin
