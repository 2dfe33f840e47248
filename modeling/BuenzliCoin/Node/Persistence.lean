-- SUMMARY: Which chains of a node are read back of their JSON form.
import BuenzliCoin.Node.Ledger
import BuenzliCoin.Node.Validity

namespace BuenzliCoin

namespace Node

variable [Env]

omit [Env] in
/-- Chains with the same blocks, but for snapshots, have transactions with the
    same inputs. -/
theorem inputs_eq_nil_of_stored {bc bc' : Blockchain TransactionList}
    (hsame : bc.blocks.map Block.stored = bc'.blocks.map Block.stored)
    (h : ∀ t ∈ bc.transactions, t.inputs = []) : ∀ t ∈ bc'.transactions, t.inputs = [] := by
  intro t ht
  obtain ⟨b, hb, ht⟩ := Blockchain.mem_transactions.mp ht
  have hstored : b.stored ∈ bc.blocks.map Block.stored := hsame ▸ List.mem_map_of_mem hb
  obtain ⟨b', hb', heq⟩ := List.mem_map.mp hstored
  have hmem : t.unlinked ∈ b'.stored.data.transactions := by
    rw [heq]
    exact List.mem_map_of_mem ht
  obtain ⟨t', ht', heq'⟩ := List.mem_map.mp hmem
  have hinputs : t'.unlinked.inputs = t.unlinked.inputs := congrArg Transaction.inputs heq'
  apply hinputs.symm.trans
  exact h t' (Blockchain.mem_transactions.mpr ⟨b', hb', ht'⟩)

/-- Without `PROOF_OF_WORK`, the chain of a node is read back of its JSON form
    exactly if no transaction in it spends anything. -/
theorem ReachableBy.fromJson_toJson_iff {n : Node TransactionList} {t : TimePoint} {clock : Clock}
    (hpow : ¬ Env.proofOfWork) (hδ : 0 < config.blockgenTimeMaxDelta) (hn : n.ReachableBy t)
    (hclock : ∀ i, t ≤ clock i) :
    (∃ bc, Blockchain.fromJson n.blockchain.toJson clock = .ok bc ∧
      bc.blocks.map Block.stored = n.blockchain.blocks.map Block.stored) ↔
    ∀ t ∈ n.blockchain.transactions, t.inputs = [] := by
  constructor
  · rintro ⟨bc, hread, hsame⟩
    exact inputs_eq_nil_of_stored hsame (Blockchain.inputs_eq_nil_of_fromJson hread)
  · intro hinputs
    have hvalid := hn.validFrom hδ
    have hdata : ∀ b ∈ n.blockchain.blocks,
        (StoredData.stored b.data).valid b.index = .ok () := by
      intro b hb
      have hdata := (Block.valid_eq_ok.mp (hvalid.blocks b hb)).1
      refine TransactionList.valid_updateUnspentOutputs hdata ?_ []
      exact fun t ht => hinputs t (Blockchain.mem_transactions.mpr ⟨b, hb, ht⟩)
    have hread :=
      Blockchain.fromJson_toJson_of_valid hpow hvalid hdata hn.numbered.length_le hclock
    refine ⟨_, hread, ?_⟩
    simp only [List.map_map]
    exact List.map_congr_left fun b _ => b.stored_stored

end Node

theorem Node.ReachableBy.fromJson_toJson_afterReward :
    letI := plainBuild
    (∃ bc, Blockchain.fromJson afterReward.blockchain.toJson .epoch = .ok bc ∧
      bc.blocks.map Block.stored = afterReward.blockchain.blocks.map Block.stored) ↔
    ∀ t ∈ afterReward.blockchain.transactions, t.inputs = [] := by
  let env := plainBuild
  have hn : afterReward.ReachableBy 0 :=
    (ReachableBy.new "localhost" 8332 0).handle (by decide) (by decide) handle_reward
  have hclock : ∀ i, 0 ≤ Clock.epoch i := fun _ => Int64.le_refl 0
  exact fromJson_toJson_iff (by decide) (by decide) hn hclock

/-- A node whose chain spends the reward for its first block, which the node
    itself has mined, cannot read that chain. -/
theorem Node.not_fromJson_toJson_spending :
    letI := plainBuild
    ∃ n : Node TransactionList, n.ReachableBy 0 ∧ n.blockchain.length = 2 ∧
      ¬ ∃ bc, Blockchain.fromJson n.blockchain.toJson .epoch = .ok bc ∧
        bc.blocks.map Block.stored = n.blockchain.blocks.map Block.stored := by
  let env := plainBuild
  obtain ⟨n, -, hn, htransactions, hlength, -⟩ :=
    run_spending (k := 1) (by decide) (by decide +kernel)
  refine ⟨n, hn, hlength, ?_⟩
  rintro ⟨bc, hread, hsame⟩
  have hinputs := inputs_eq_nil_of_stored hsame (Blockchain.inputs_eq_nil_of_fromJson hread)
  rw [htransactions] at hinputs
  have hspending := hinputs ((spending 1).updateUnspentOutputs [aliceCoin]) (by simp)
  cases hspending

end BuenzliCoin
