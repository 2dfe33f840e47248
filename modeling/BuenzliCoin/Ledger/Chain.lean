-- SUMMARY: The transactions of a chain, and why a chain that was decoded spends nothing.
import BuenzliCoin.Chain.Validity
import BuenzliCoin.Ledger.Validation

namespace BuenzliCoin

/-! # Transactions of a chain -/

namespace Blockchain

/-- All transactions of a chain, block by block. -/
def transactions (bc : Blockchain TransactionList) : List Transaction :=
  bc.blocks.flatMap fun b => b.data.transactions

@[simp] theorem transactions_new [Env] : (new : Blockchain TransactionList).transactions = [] := rfl

theorem transactions_concat {bc bc' : Blockchain TransactionList} {b : Block TransactionList}
    (h : bc'.blocks = bc.blocks ++ [b]) :
    bc'.transactions = bc.transactions ++ b.data.transactions := by
  simp [transactions, h]

theorem transactions_congr {bc bc' : Blockchain TransactionList} (h : bc'.blocks = bc.blocks) :
    bc'.transactions = bc.transactions := by
  simp [transactions, h]

theorem mem_transactions {bc : Blockchain TransactionList} {t : Transaction} :
    t ∈ bc.transactions ↔ ∃ b ∈ bc.blocks, t ∈ b.data.transactions := by
  simp [transactions]

end Blockchain

/-! # Decoded transactions -/

theorem Transaction.unlinked_of_fromJson {j : Json} {t : Transaction} (h : fromJson j = .ok t) :
    t.unspentOutputs = [] := by
  simp only [fromJson, Except.bind_eq_ok_iff, Except.pure_eq_ok_iff] at h
  obtain ⟨_, -, _, -, _, -, _, -, _, -, _, -, _, -, _, -, _, -, _, -, _, -, rfl⟩ := h
  rfl

theorem Block.unlinked_of_fromJson {j : Json} {b : Block TransactionList} (h : fromJson j = .ok b) :
    ∀ t ∈ b.data.transactions, t.unspentOutputs = [] := by
  obtain ⟨dataJson, hdata⟩ := data_of_fromJson h
  obtain ⟨ts, hts, hb⟩ := Except.bind_eq_ok_iff.mp hdata
  intro t ht
  rw [← Except.pure_eq_ok_iff.mp hb] at ht
  obtain ⟨tj, -, htj⟩ := Except.exists_of_mapM_eq_ok hts ht
  exact Transaction.unlinked_of_fromJson htj

section

variable [Env]

/-- Without a snapshot no input finds the output that it spends. -/
theorem Transaction.inputs_eq_nil_of_unlinked {t : Transaction} (hvalid : t.valid = .ok ())
    (hunlinked : t.unspentOutputs = []) : t.inputs = [] := by
  rw [List.eq_nil_iff_forall_not_mem]
  intro txi htxi
  unfold valid at hvalid
  cases htype : t.type with
  | reward =>
    rw [htype] at hvalid
    rw [(validReward_eq_ok.mp hvalid).2.1] at htxi
    cases htxi
  | standard =>
    rw [htype] at hvalid
    have hfound := mem_of_inputAddress_ne ((validStandard_eq_ok.mp hvalid).2.1 txi htxi).found
    rw [hunlinked] at hfound
    cases hfound

/-- A transaction that spends nothing is valid with any snapshot. -/
theorem Transaction.valid_updateUnspentOutputs {t : Transaction} (h : t.inputs = [])
    (us : List UTxO) : (t.updateUnspentOutputs us).valid = t.valid := by
  obtain ⟨type, index, hash, inputs, outputs, unspentOutputs⟩ := t
  cases h
  rfl

/-- A list stays valid if its transactions do. -/
theorem TransactionList.valid_linked {ts : TransactionList} {index : UInt64} {us : List UTxO}
    (hvalid : ts.valid index = .ok ())
    (hlinked : ∀ t ∈ ts.transactions, t.valid = .ok () →
      (t.updateUnspentOutputs us).valid = .ok ()) :
    (TransactionList.mk (ts.transactions.map fun t => t.updateUnspentOutputs us)).valid index =
      .ok () := by
  obtain ⟨hlength, hts, htypes⟩ := valid_eq_ok.mp hvalid
  refine valid_eq_ok.mpr ⟨?_, ?_, ?_⟩
  · rw [List.length_map]
    exact hlength
  · intro t' ht'
    obtain ⟨t, ht, rfl⟩ := List.mem_map.mp ht'
    exact ⟨(hts t ht).1, hlinked t ht (hts t ht).2⟩
  · intro k hk
    rw [List.length_map] at hk
    simp only [List.getElem_map]
    exact htypes k hk

/-- Lists of transactions that spend nothing are valid with any snapshots. -/
theorem TransactionList.valid_updateUnspentOutputs {ts : TransactionList} {index : UInt64}
    (hvalid : ts.valid index = .ok ()) (hinputs : ∀ t ∈ ts.transactions, t.inputs = [])
    (us : List UTxO) :
    (TransactionList.mk (ts.transactions.map fun t => t.updateUnspentOutputs us)).valid index =
      .ok () := by
  refine valid_linked hvalid fun t ht ht' => ?_
  rw [Transaction.valid_updateUnspentOutputs (hinputs t ht)]
  exact ht'

theorem Blockchain.valid_of_fromJson {j : Json} {clock : Clock} {bc : Blockchain TransactionList}
    (h : fromJson j clock = .ok bc) : ∀ b ∈ bc.blocks, b.data.valid b.index = .ok () := by
  refine fromJson_induction
    (P := fun bc => ∀ b ∈ bc.blocks, b.data.valid b.index = .ok ()) h (by simp) ?_
  intro bc b i bc' hbc hstep b' hb'
  rw [hstep.blocks, List.mem_append, List.mem_singleton] at hb'
  rcases hb' with hb' | rfl
  · exact hbc b' hb'
  · exact hstep.dataValid

theorem Blockchain.unlinked_of_fromJson {j : Json} {clock : Clock}
    {bc : Blockchain TransactionList} (h : fromJson j clock = .ok bc) :
    ∀ t ∈ bc.transactions, t.valid = .ok () ∧ t.unspentOutputs = [] := by
  intro t ht
  obtain ⟨b, hb, ht⟩ := mem_transactions.mp ht
  obtain ⟨bj, -, hbj⟩ := Except.exists_of_mapM_eq_ok (fromJson_blocks h) hb
  have hvalid := valid_of_fromJson h b hb
  exact ⟨TransactionList.valid_of_mem hvalid ht, Block.unlinked_of_fromJson hbj t ht⟩

/-- `from_json` does not link the transactions it decodes, so it accepts no chain
    that spends an output. -/
theorem Blockchain.inputs_eq_nil_of_fromJson {j : Json} {clock : Clock}
    {bc : Blockchain TransactionList} (h : fromJson j clock = .ok bc) :
    ∀ t ∈ bc.transactions, t.inputs = [] := by
  intro t ht
  obtain ⟨hvalid, hunlinked⟩ := unlinked_of_fromJson h t ht
  exact Transaction.inputs_eq_nil_of_unlinked hvalid hunlinked

end

end BuenzliCoin
