-- SUMMARY: What a rejected block leaves behind, and how appending block by block compares with whole-chain validation.
import BuenzliCoin.Chain.Validity
import BuenzliCoin.Chain.Work

namespace BuenzliCoin

namespace Blockchain

variable {T : Type} [BlockData T] [Env]

-- ---------------------------------------------------------------------------
-- Calls that throw
-- ---------------------------------------------------------------------------

end Blockchain

namespace Blockchain

variable {T : Type} [BlockData T] [Env]

-- ---------------------------------------------------------------------------
-- Block by block
-- ---------------------------------------------------------------------------

/-- The loop that appends the blocks of a list, at a fixed time. -/
def appendEach (bc : Blockchain T) : List (Block T) → TimePoint → Except Error (Blockchain T)
  | [], _ => .ok bc
  | b :: bs, now =>
    match bc.appendNextBlock b now with
    | (.error e, _) => .error e
    | (.ok (), bc) => appendEach bc bs now

theorem appendEach_cons_eq_ok {bc bc' : Blockchain T} {b : Block T} {bs : List (Block T)}
    {now : TimePoint} :
    appendEach bc (b :: bs) now = .ok bc' ↔
      ∃ next, bc.appendNextBlock b now = (.ok (), next) ∧ appendEach next bs now = .ok bc' := by
  rw [appendEach]
  cases hcall : bc.appendNextBlock b now with
  | mk r next =>
    cases r with
    | error e => simp
    | ok _ => simp

/-- It is the loop of `from_json`, after decoding. -/
theorem appendAll_const {bc bc' : Blockchain T} {js : List Json} {now : TimePoint}
    (hnow : 0 ≤ now) :
    appendAll bc js (.const now hnow) = .ok bc' ↔
      ∃ bs, js.mapM Block.fromJson = .ok bs ∧ appendEach bc bs now = .ok bc' := by
  induction js generalizing bc with
  | nil => simp [appendAll, appendEach, pure, Except.pure]
  | cons j js ih =>
    have hdrop : (Clock.const now hnow).drop 1 = .const now hnow := rfl
    rw [appendAll_cons_eq_ok, hdrop]
    simp only [ih, Clock.const_apply, List.mapM_cons, Except.bind_eq_ok_iff,
      Except.pure_eq_ok_iff]
    constructor
    · rintro ⟨b, next, hb, hcall, bs, hbs, hrest⟩
      exact ⟨b :: bs, ⟨b, hb, bs, hbs, rfl⟩, appendEach_cons_eq_ok.mpr ⟨next, hcall, hrest⟩⟩
    · rintro ⟨_, ⟨b, hb, bs, hbs, rfl⟩, h⟩
      obtain ⟨next, hcall, hrest⟩ := appendEach_cons_eq_ok.mp h
      exact ⟨b, next, hb, hcall, bs, hbs, hrest⟩

/-- Without `PROOF_OF_WORK` a list is appended to the end exactly if its blocks are
    valid and linked to the chain and to each other. -/
theorem appendEach_eq_ok_iff {bc bc' : Blockchain T} {bs : List (Block T)} {now : TimePoint}
    (hpow : ¬ Env.proofOfWork) (hlinked : Linked bc.blocks)
    (hroom : bc.blocks.length + bs.length ≤ Env.maxSize) :
    appendEach bc bs now = .ok bc' ↔
      (∀ b ∈ bs, b.valid now = .ok ()) ∧ Linked (bc.blocks ++ bs) ∧
      bc' = { bc with blocks := bc.blocks ++ bs } := by
  induction bs generalizing bc with
  | nil => simp [appendEach, hlinked, eq_comm]
  | cons b bs ih =>
    rw [appendEach_cons_eq_ok, List.forall_mem_cons]
    rw [List.length_cons] at hroom
    constructor
    · rintro ⟨next, hcall, hrest⟩
      obtain ⟨e, herror, -⟩ | ⟨-, hstep⟩ := appendNextBlock_cases hcall
      · cases herror
      · have hlength : next.blocks.length + bs.length ≤ Env.maxSize := by
          rw [hstep.blocks, List.length_append, List.length_singleton]
          omega
        obtain ⟨hvalid, hlinked', rfl⟩ := (ih (hlinked.added hstep.toAdded) hlength).mp hrest
        have hblocks : next.blocks ++ bs = bc.blocks ++ b :: bs := by
          rw [hstep.blocks, List.append_assoc, List.singleton_append]
        have hadjuster := hstep.adjuster
        rw [if_neg hpow] at hadjuster
        rw [hblocks] at hlinked' ⊢
        exact ⟨⟨hstep.valid, hvalid⟩, hlinked', by rw [hadjuster]⟩
    · rintro ⟨⟨hb, hvalid⟩, hlinked', rfl⟩
      have hcall := appendNextBlock_of_valid hpow hlinked'.links hb (by omega)
      have hblocks : bc.blocks ++ [b] ++ bs = bc.blocks ++ b :: bs := List.append_cons .. |>.symm
      have hnext : Linked (bc.blocks ++ [b]) := by
        rw [← hblocks] at hlinked'
        exact hlinked'.of_append
      refine ⟨_, hcall, (ih hnext ?_).mpr ⟨hvalid, ?_, ?_⟩⟩
      · rw [List.length_append, List.length_singleton]
        omega
      · rw [hblocks]
        exact hlinked'
      · rw [hblocks]

/-- What `valid` checks at a fixed time: next to what appending checks, that no
    block is dated much earlier than the one before it. -/
theorem valid_const_iff {bc : Blockchain T} {now : TimePoint} (hnow : 0 ≤ now)
    (hne : bc.blocks ≠ []) :
    bc.valid (.const now hnow) = .ok () ↔
      (∀ b ∈ bc.blocks, b.valid now = .ok ()) ∧ Linked bc.blocks ∧
      bc.blocks.IsChain fun prev b =>
        prev.timestamp - config.blockgenTimeMaxDelta < b.timestamp := by
  rw [valid_eq_ok, and_iff_right hne]
  simp only [Clock.const_apply]
  constructor
  · rintro ⟨hvalid, hgenesis, hsuccessors⟩
    refine ⟨?_, ⟨?_, ?_⟩, ?_⟩
    · intro b hb
      obtain ⟨k, hk, rfl⟩ := List.getElem_of_mem hb
      exact hvalid k hk
    · exact fun b hb => Block.isGenesis_iff.mp (hgenesis b hb)
    · exact hsuccessors.imp fun prev b h => (Block.isSuccessorOf_iff.mp h).2
    · exact hsuccessors.imp fun prev b h => (Block.isSuccessorOf_iff.mp h).1
  · rintro ⟨hvalid, hlinked, htimes⟩
    refine ⟨fun k hk => hvalid _ (List.getElem_mem hk), ?_, ?_⟩
    · exact fun b hb => (hlinked.first b hb).isGenesis rfl
    · rw [List.isChain_iff_getElem] at htimes ⊢
      intro i hi
      exact (List.isChain_iff_getElem.mp hlinked.next i hi).isSuccessorOf rfl (htimes i hi)

/-- Appending a list block by block agrees with validating it as a whole exactly if
    the list, should its blocks be valid and linked, has no block that is dated
    much earlier than the one before it: `valid_next_block` leaves this check
    out. -/
theorem appendEach_agrees_iff {bs : List (Block T)} {now : TimePoint} (hpow : ¬ Env.proofOfWork)
    (hnow : 0 ≤ now) (hne : bs ≠ []) (hroom : bs.length ≤ Env.maxSize) :
    ((∃ bc, appendEach new bs now = .ok bc) ↔
        (Blockchain.mk bs .fresh).valid (.const now hnow) = .ok ()) ↔
      ((∀ b ∈ bs, b.valid now = .ok ()) → Linked bs →
        bs.IsChain fun prev b =>
          prev.timestamp - config.blockgenTimeMaxDelta < b.timestamp) := by
  have happend : (∃ bc, appendEach new bs now = .ok bc) ↔
      (∀ b ∈ bs, b.valid now = .ok ()) ∧ Linked bs := by
    have hlength : (new : Blockchain T).blocks.length + bs.length ≤ Env.maxSize := by
      simpa using hroom
    simp only [appendEach_eq_ok_iff hpow linked_nil hlength, new_blocks, List.nil_append]
    simp
  rw [happend, valid_const_iff hnow hne]
  dsimp only
  tauto

end Blockchain

/-- Two blocks, the second of them dated by the given time. -/
def dated (timestamp : TimePoint) : List (Block Text) :=
  letI := plainBuild
  [Block.first ⟨"first"⟩ 100000, Block.next ⟨"second"⟩ (Block.first ⟨"first"⟩ 100000) timestamp]

theorem Blockchain.appendEach_dated {timestamp : TimePoint} (h : timestamp - 60000 < 100000) :
    letI := plainBuild
    ∃ bc, appendEach new (dated timestamp) 100000 = .ok bc := by
  let env := plainBuild
  have hvalid : ∀ b ∈ dated timestamp, b.valid 100000 = .ok () := by
    refine List.forall_mem_cons.mpr ⟨?_, List.forall_mem_singleton.mpr ?_⟩
    · exact Block.valid_eq_ok.mpr ⟨rfl, by decide, rfl⟩
    · exact Block.valid_eq_ok.mpr ⟨rfl, h, rfl⟩
  have hlinked : Linked (dated timestamp) := by
    refine ⟨?_, .cons_cons ⟨rfl, rfl⟩ (.singleton _)⟩
    intro b hb
    cases hb
    exact ⟨rfl, rfl⟩
  have hroom : (new : Blockchain Text).blocks.length + (dated timestamp).length ≤ Env.maxSize :=
    show 2 ≤ 2 ^ 32 by decide
  exact ⟨_, (appendEach_eq_ok_iff (by decide) linked_nil hroom).mpr ⟨hvalid, hlinked, rfl⟩⟩

theorem Blockchain.appendEach_agrees_dated :
    letI := plainBuild
    (∃ bc, appendEach new (dated 100000) 100000 = .ok bc) ∧
    (Blockchain.mk (dated 100000) .fresh).valid (.const 100000 (by decide)) = .ok () := by
  let env := plainBuild
  have hroom : (dated 100000).length ≤ Env.maxSize := show 2 ≤ 2 ^ 32 by decide
  have hne : dated 100000 ≠ [] := List.cons_ne_nil _ _
  have hnow : (0 : TimePoint) ≤ 100000 := by decide
  have hagrees := (appendEach_agrees_iff (by decide) hnow hne hroom).mpr fun _ _ =>
    .cons_cons (by decide) (.singleton _)
  have happend := appendEach_dated (show (100000 : TimePoint) - 60000 < 100000 by decide +kernel)
  exact ⟨happend, hagrees.mp happend⟩

/-- A block that is dated more than a minute before the one it follows. -/
theorem Blockchain.not_appendEach_agrees_dated :
    letI := plainBuild
    (∃ bc, appendEach new (dated 0) 100000 = .ok bc) ∧
    (Blockchain.mk (dated 0) .fresh).valid (.const 100000 (by decide)) ≠ .ok () := by
  let env := plainBuild
  refine ⟨appendEach_dated (by decide), fun hvalid => ?_⟩
  obtain ⟨-, -, htimes⟩ := (valid_const_iff (by decide) (by simp [dated])).mp hvalid
  have htime := (List.isChain_cons_cons.mp htimes).1
  exact absurd htime (by decide)

end BuenzliCoin
