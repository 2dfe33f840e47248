-- SUMMARY: What holds of every chain that the operations of the class can build, and that it can be stored.
import BuenzliCoin.Chain.Validity
import BuenzliCoin.Chain.Work

namespace BuenzliCoin

namespace Blockchain

variable {T : Type} [BlockData T] [Env]

-- ---------------------------------------------------------------------------
-- Structure
-- ---------------------------------------------------------------------------

omit [BlockData T] [Env] in
/-- `bc = std::move(other)`: the chain that was assigned to, and what is left of
    the other one, whose vector is empty from then on. -/
def moveAssign (_bc other : Blockchain T) : Blockchain T × Blockchain T :=
  (other, { other with blocks := [] })

/-- A chain that the operations of the class have made out of the empty one,
    whether they returned or threw. -/
inductive Built : Blockchain T → Prop where
  | new : Built new
  | constructNextBlock {bc bc' : Blockchain T} {data : T} {clock : Clock} {fuel : Nat}
      {r : Except Error Unit} (built : Built bc)
      (call : bc.constructNextBlock data clock fuel = some (r, bc')) : Built bc'
  | appendNextBlock {bc bc' : Blockchain T} {b : Block T} {now : TimePoint}
      {r : Except Error Unit} (built : Built bc)
      (call : bc.appendNextBlock b now = (r, bc')) : Built bc'
  | fromJson {bc : Blockchain T} {j : Json} {clock : Clock} (call : fromJson j clock = .ok bc) :
      Built bc
  | moveAssign {bc other : Blockchain T} (built : Built bc) (builtOther : Built other) :
      Built (bc.moveAssign other).1
  | movedFrom {bc other : Blockchain T} (built : Built bc) (builtOther : Built other) :
      Built (bc.moveAssign other).2

/-- Positions, links and hashes are what they should be. -/
structure WellBuilt (bs : List (Block T)) : Prop where
  numbered : Numbered bs
  linked : Linked bs
  hash : ∀ b ∈ bs, b.hash = b.determineHash

theorem wellBuilt_nil : WellBuilt ([] : List (Block T)) where
  numbered := numbered_nil
  linked := linked_nil
  hash b hb := by cases hb

/-- Whichever way a block enters, and whatever mining has made of it. -/
theorem WellBuilt.added {bc bc' : Blockchain T} {b : Block T} (h : WellBuilt bc.blocks)
    (hadded : Added bc b bc') : WellBuilt bc'.blocks where
  numbered := h.numbered.added hadded
  linked := h.linked.added hadded
  hash := forall_mem_added hadded.blocks h.hash hadded.hash

theorem WellBuilt.constructNextBlock {bc bc' : Blockchain T} {data : T} {clock : Clock}
    {fuel : Nat} {r : Except Error Unit} (h : WellBuilt bc.blocks)
    (hcall : bc.constructNextBlock data clock fuel = some (r, bc')) : WellBuilt bc'.blocks := by
  obtain ⟨e, -, rfl, -⟩ | ⟨e, -, -, -, hbc'⟩ | ⟨-, b, hstep⟩ := constructNextBlock_cases hcall
  · exact h
  · rw [blocks_of_adjust hbc']
    exact h
  · exact h.added hstep.toAdded

theorem WellBuilt.appendNextBlock {bc bc' : Blockchain T} {b : Block T} {now : TimePoint}
    {r : Except Error Unit} (h : WellBuilt bc.blocks)
    (hcall : bc.appendNextBlock b now = (r, bc')) : WellBuilt bc'.blocks := by
  obtain ⟨e, -, hblocks, -⟩ | ⟨-, hstep⟩ := appendNextBlock_cases hcall
  · rw [hblocks]
    exact h
  · exact h.added hstep.toAdded

theorem Built.wellBuilt {bc : Blockchain T} (h : Built bc) : WellBuilt bc.blocks := by
  induction h with
  | new => exact wellBuilt_nil
  | constructNextBlock _ hcall ih => exact ih.constructNextBlock hcall
  | appendNextBlock _ hcall ih => exact ih.appendNextBlock hcall
  | fromJson hcall =>
    refine fromJson_induction (P := fun bc => WellBuilt bc.blocks) hcall wellBuilt_nil ?_
    intro bc b i bc' hbc hstep
    exact hbc.added hstep.toAdded
  | moveAssign _ _ _ ihOther => exact ihOther
  | movedFrom _ _ _ _ => exact wellBuilt_nil

/-- The blocks of a chain are numbered from 0 on, each holds the hash of the one
    before it, and each hashes to what it says. -/
theorem Built.structure {bc : Blockchain T} (h : Built bc) :
    (∀ i (hi : i < bc.blocks.length), bc.blocks[i].index.toNat = i) ∧
    (∀ hi : 0 < bc.blocks.length, bc.blocks[0].hashPrev = none) ∧
    (∀ i (hi : i + 1 < bc.blocks.length), bc.blocks[i + 1].hashPrev = some bc.blocks[i].hash) ∧
    ∀ b ∈ bc.blocks, b.hash = b.determineHash := by
  obtain ⟨hnumbered, hlinked, hhash⟩ := h.wellBuilt
  refine ⟨hnumbered.index, ?_, ?_, hhash⟩
  · intro hi
    apply (hlinked.first bc.blocks[0] _).2
    rw [List.head?_eq_getElem?, List.getElem?_eq_getElem hi]
  · intro i hi
    exact (hlinked.next.getElem i hi).2

end Blockchain

/-- A chain of two mined blocks, moved into another one. -/
theorem Blockchain.Built.structure_mined :
    letI := oneZeroBit
    ∃ bc : Blockchain Text, Built bc ∧ bc.blocks.length = 2 ∧
      (∀ i (hi : i < bc.blocks.length), bc.blocks[i].index.toNat = i) ∧
      (∀ hi : 0 < bc.blocks.length, bc.blocks[0].hashPrev = none) ∧
      (∀ i (hi : i + 1 < bc.blocks.length), bc.blocks[i + 1].hashPrev = some bc.blocks[i].hash) ∧
      ∀ b ∈ bc.blocks, b.hash = b.determineHash := by
  let env := oneZeroBit
  let first : Block Text := ((Block.first ⟨"first"⟩ 0).attempt Clock.epoch 0).hashed
  let second : Block Text := ((Block.next ⟨"second"⟩ first 0).attempt Clock.epoch 0).hashed
  let one : Blockchain Text := ⟨[first], { DifficultyAdjuster.fresh with counter := 1 }⟩
  let two : Blockchain Text := ⟨[first, second], { DifficultyAdjuster.fresh with counter := 2 }⟩
  have hfirst : Blockchain.new.constructNextBlock ⟨"first"⟩ Clock.epoch 1 =
      some (.ok (), one) := rfl
  have hsecond : one.constructNextBlock ⟨"second"⟩ Clock.epoch 1 = some (.ok (), two) := rfl
  have hbuilt :=
    Built.moveAssign .new (.constructNextBlock (.constructNextBlock .new hfirst) hsecond)
  exact ⟨_, hbuilt, rfl, Built.structure hbuilt⟩

-- ---------------------------------------------------------------------------
-- Storage
-- ---------------------------------------------------------------------------

namespace Blockchain

variable {T : Type} [BlockData T] [Env]

/-- A chain that calls of `construct_next_block` and `append_next_block` have
    made out of the empty one under a clock that never goes backwards; no
    reading so far was after the given time. -/
inductive GrownBy : TimePoint → Blockchain T → Prop where
  | new (t : TimePoint) : GrownBy t new
  | constructNextBlock {t t' : TimePoint} {bc bc' : Blockchain T} {data : T} {clock : Clock}
      {fuel : Nat} {r : Except Error Unit} (grown : GrownBy t bc)
      (nonDecreasing : clock.NonDecreasing) (readings : ∀ i, t ≤ clock i ∧ clock i ≤ t')
      (call : bc.constructNextBlock data clock fuel = some (r, bc')) : GrownBy t' bc'
  | appendNextBlock {t now : TimePoint} {bc bc' : Blockchain T} {b : Block T}
      {r : Except Error Unit} (grown : GrownBy t bc) (later : t ≤ now)
      (call : bc.appendNextBlock b now = (r, bc')) : GrownBy now bc'

theorem GrownBy.built {t : TimePoint} {bc : Blockchain T} (h : GrownBy t bc) : Built bc := by
  induction h with
  | new => exact .new
  | constructNextBlock _ _ _ hcall ih => exact .constructNextBlock ih hcall
  | appendNextBlock _ _ hcall ih => exact .appendNextBlock ih hcall

/-- One more block, constructed at an instant. -/
theorem GrownBy.constructAt {t t' : TimePoint} {bc bc' : Blockchain T} {data : T} {fuel : Nat}
    {r : Except Error Unit} (h : GrownBy t bc) (ht' : 0 ≤ t') (hle : t ≤ t')
    (hcall : bc.constructNextBlock data (.const t' ht') fuel = some (r, bc')) : GrownBy t' bc' :=
  .constructNextBlock h (Clock.nonDecreasing_const t' ht')
    (Clock.const_between ht' hle (Int64.le_refl t')) hcall

/-- Where nothing is mined, each block was valid when it was added. -/
theorem GrownBy.valid {t : TimePoint} {bc : Blockchain T} (hpow : ¬ Env.proofOfWork)
    (h : GrownBy t bc) : ∀ b ∈ bc.blocks, b.valid t = .ok () := by
  induction h with
  | new => simp
  | @constructNextBlock t t' bc bc' data clock fuel r _ _ hclock hcall ih =>
    have hle : t ≤ t' := TimePoint.le_trans (hclock 0).1 (hclock 0).2
    intro b' hb'
    obtain ⟨e, -, rfl, -⟩ | ⟨e, -, -, -, hbc'⟩ | ⟨-, b, hstep⟩ := constructNextBlock_cases hcall
    · exact Block.valid_mono (ih b' hb') hle
    · rw [blocks_of_adjust hbc'] at hb'
      exact Block.valid_mono (ih b' hb') hle
    · exact forall_mem_added hstep.blocks (fun b' hb' => Block.valid_mono (ih b' hb') hle)
        (Block.valid_mono (hstep.block_valid hpow) (hclock 1).2) b' hb'
  | appendNextBlock _ hle hcall ih =>
    intro b' hb'
    obtain ⟨e, -, hblocks, -⟩ | ⟨-, hstep⟩ := appendNextBlock_cases hcall
    · rw [hblocks] at hb'
      exact Block.valid_mono (ih b' hb') hle
    · exact forall_mem_added hstep.blocks (fun b' hb' => Block.valid_mono (ih b' hb') hle)
        hstep.valid b' hb'

/-- A chain of texts that is stored can be loaded at any later time. -/
theorem GrownBy.loads {t : TimePoint} {bc : Blockchain Text}
    (hpow : ¬ Env.proofOfWork) (h : GrownBy t bc) (clock : Clock) (hclock : ∀ i, t ≤ clock i) :
    ∃ bc', fromJson bc.toJson clock = .ok bc' ∧ bc'.blocks = bc.blocks := by
  obtain ⟨hnumbered, hlinked, -⟩ := h.built.wellBuilt
  have hstored : bc.blocks.map Block.stored = bc.blocks :=
    (List.map_congr_left fun b _ => Text.stored_block b).trans (List.map_id _)
  refine ⟨_, fromJson_toJson_of_linked hpow (h.valid hpow) ?_ ?_ hnumbered.length_le hclock,
    hstored⟩
  · rw [hstored]
    exact hlinked
  · intro b hb
    exact (Block.valid_eq_ok.mp (h.valid hpow b hb)).1

end Blockchain

/-- Two texts, the second constructed a second after the first. -/
theorem Blockchain.GrownBy.loads_two_texts :
    letI := plainBuild
    ∃ bc : Blockchain Text, GrownBy 1000 bc ∧ bc.blocks.length = 2 ∧
      ∃ bc', fromJson bc.toJson (.const 2000 (by decide)) = .ok bc' ∧ bc'.blocks = bc.blocks := by
  let env := plainBuild
  have hfirst : (Blockchain.new : Blockchain Text).constructNextBlock ⟨"first"⟩ .epoch 0 =
      some (.ok (), _) := constructNextBlock_of_valid (by decide) rfl (by decide) (by decide)
  have hgrown := (GrownBy.new 0).constructAt (by decide) (by decide) hfirst
  have hsecond : (⟨[Block.first ⟨"first"⟩ 0], .fresh⟩ : Blockchain Text).constructNextBlock
      ⟨"second"⟩ (.const 1000 (by decide)) 0 = some (.ok (), _) :=
    constructNextBlock_of_valid (by decide) rfl (by decide) (by decide)
  have hgrown' := hgrown.constructAt (by decide) (by decide) hsecond
  refine ⟨_, hgrown', rfl, GrownBy.loads (by decide) hgrown' _ ?_⟩
  intro i
  exact show (1000 : TimePoint) ≤ 2000 by decide

end BuenzliCoin
