-- SUMMARY: Histories of transfers over coins: what is unspent, single spending, and conservation of the total.
import Mathlib.Algebra.BigOperators.Group.List.Basic
import Mathlib.Algebra.GroupWithZero.Nat
import Mathlib.Algebra.Order.BigOperators.Group.List
import Mathlib.Data.List.Nodup

/-!
# Coin histories

A transfer spends coins by their keys and creates coins. A history is the list
of the transfers so far. The coins that are unspent after a history are those
created and not spent in it, whatever data structure an implementation keeps
them in.
-/

namespace CoinHistory

/-- A transfer of coins of type `C`, which are named by keys of type `K`. -/
structure Transfer (K C : Type*) where
  spends : List K
  creates : List C

variable {K C : Type*} [DecidableEq K] (key : C → K) (amount : C → ℕ)

def created (h : List (Transfer K C)) : List C := h.flatMap Transfer.creates

def spent (h : List (Transfer K C)) : List K := h.flatMap Transfer.spends

def unspent (h : List (Transfer K C)) : List C := (created h).filter fun c => key c ∉ spent h

def total (cs : List C) : ℕ := (cs.map amount).sum

/-- The amount a list of coins holds under a key. -/
def amountAt (cs : List C) (k : K) : ℕ := total amount (cs.filter fun c => key c = k)

/-- Each coin is created once and spent at most once, and only created coins
    are spent. -/
structure Sound (h : List (Transfer K C)) : Prop where
  createdNodup : ((created h).map key).Nodup
  spentNodup : (spent h).Nodup
  spentCreated : ∀ k ∈ spent h, k ∈ (created h).map key

/-- What makes a transfer fit a history: the coins it creates are new, and it
    spends unspent coins, none of them twice. -/
structure Fits (h : List (Transfer K C)) (t : Transfer K C) : Prop where
  fresh : ((created h ++ t.creates).map key).Nodup
  spendsNodup : t.spends.Nodup
  spendsUnspent : ∀ k ∈ t.spends, k ∈ (unspent key h).map key

omit [DecidableEq K] in
@[simp] theorem created_append (h h' : List (Transfer K C)) :
    created (h ++ h') = created h ++ created h' := List.flatMap_append

omit [DecidableEq K] in
@[simp] theorem spent_append (h h' : List (Transfer K C)) : spent (h ++ h') = spent h ++ spent h' :=
  List.flatMap_append

omit [DecidableEq K] in
@[simp] theorem created_singleton (t : Transfer K C) : created [t] = t.creates := by simp [created]

omit [DecidableEq K] in
@[simp] theorem spent_singleton (t : Transfer K C) : spent [t] = t.spends := by simp [spent]

omit [DecidableEq K] in
theorem total_append (cs cs' : List C) :
    total amount (cs ++ cs') = total amount cs + total amount cs' := by simp [total]

variable {key} {amount}

theorem mem_unspent {h : List (Transfer K C)} {c : C} :
    c ∈ unspent key h ↔ c ∈ created h ∧ key c ∉ spent h := by simp [unspent]

theorem not_mem_spent_of_mem_unspent {h : List (Transfer K C)} {k : K}
    (hk : k ∈ (unspent key h).map key) : k ∉ spent h := by
  obtain ⟨c, hc, rfl⟩ := List.mem_map.mp hk
  exact (mem_unspent.mp hc).2

theorem mem_created_of_mem_unspent {h : List (Transfer K C)} {k : K}
    (hk : k ∈ (unspent key h).map key) : k ∈ (created h).map key := by
  obtain ⟨c, hc, rfl⟩ := List.mem_map.mp hk
  exact List.mem_map_of_mem (mem_unspent.mp hc).1

theorem unspent_sublist (h : List (Transfer K C)) : (unspent key h).Sublist (created h) :=
  List.filter_sublist

/-! ## One transfer -/

omit [DecidableEq K] in
theorem sound_nil : Sound key ([] : List (Transfer K C)) where
  createdNodup := by simp [created]
  spentNodup := by simp [spent]
  spentCreated := by simp [spent]

/-- A transfer that fits keeps a history sound. -/
theorem Sound.append {h : List (Transfer K C)} {t : Transfer K C} (hs : Sound key h)
    (ht : Fits key h t) : Sound key (h ++ [t]) where
  createdNodup := by simpa using ht.fresh
  spentNodup := by
    rw [spent_append, spent_singleton]
    apply List.Nodup.append hs.spentNodup ht.spendsNodup
    intro k hk hk'
    exact not_mem_spent_of_mem_unspent (ht.spendsUnspent k hk') hk
  spentCreated := by
    intro k hk
    rw [spent_append, spent_singleton, List.mem_append] at hk
    rw [created_append, List.map_append, List.mem_append]
    rcases hk with hk | hk
    · exact .inl (hs.spentCreated k hk)
    · exact .inl (mem_created_of_mem_unspent (ht.spendsUnspent k hk))

/-- A coin that a fitting transfer creates has a key that nothing has spent. -/
theorem Fits.creates_not_spent {h : List (Transfer K C)} {t : Transfer K C} (hs : Sound key h)
    (ht : Fits key h t) : ∀ c ∈ t.creates, key c ∉ spent h ∧ key c ∉ t.spends := by
  intro c hc
  have hdisjoint : key c ∉ (created h).map key := by
    intro hmem
    have hnodup := ht.fresh
    rw [List.map_append] at hnodup
    exact (List.nodup_append.mp hnodup).2.2 _ hmem _ (List.mem_map_of_mem hc) rfl
  exact ⟨fun hk => hdisjoint (hs.spentCreated _ hk),
    fun hk => hdisjoint (mem_created_of_mem_unspent (ht.spendsUnspent _ hk))⟩

/-- What is unspent after a transfer that fits. -/
theorem unspent_append {h : List (Transfer K C)} {t : Transfer K C} (hs : Sound key h)
    (ht : Fits key h t) :
    unspent key (h ++ [t]) = ((unspent key h).filter fun c => key c ∉ t.spends) ++ t.creates := by
  have hold : (created h).filter (fun c => key c ∉ spent (h ++ [t])) =
      (unspent key h).filter fun c => key c ∉ t.spends := by
    rw [unspent, List.filter_filter]
    apply List.filter_congr
    intro c _
    simp [not_or, and_comm]
  have hnew : t.creates.filter (fun c => key c ∉ spent (h ++ [t])) = t.creates := by
    rw [List.filter_eq_self]
    intro c hc
    have hnot := ht.creates_not_spent hs c hc
    simpa [not_or] using hnot
  rw [unspent, created_append, created_singleton, List.filter_append, hold, hnew]

/-! ## Amounts -/

variable (key amount) in
@[simp] theorem amountAt_nil (k : K) : amountAt key amount [] k = 0 := rfl

theorem amountAt_cons (c : C) (cs : List C) (k : K) :
    amountAt key amount (c :: cs) k =
      (if key c = k then amount c else 0) + amountAt key amount cs k := by
  by_cases hk : key c = k <;> simp [amountAt, total, hk]

theorem amountAt_of_not_mem {cs : List C} {k : K} (hk : k ∉ cs.map key) :
    amountAt key amount cs k = 0 := by
  have hnone : cs.filter (fun c => key c = k) = [] := by
    rw [List.filter_eq_nil_iff]
    intro c hc hck
    exact hk (List.mem_map.mpr ⟨c, hc, by simpa using hck⟩)
  simp [amountAt, total, hnone]

/-- With distinct keys, a part of a list that holds a key holds its amount. -/
theorem amountAt_of_sublist {cs ds : List C} (hsub : cs.Sublist ds) (hds : (ds.map key).Nodup)
    {k : K} (hk : k ∈ cs.map key) : amountAt key amount cs k = amountAt key amount ds k := by
  induction hsub with
  | slnil => rfl
  | @cons cs ds d hsub ih =>
    rw [List.map_cons, List.nodup_cons] at hds
    have hne : key d ≠ k := by
      rintro rfl
      exact hds.1 ((hsub.map key).subset hk)
    rw [amountAt_cons, if_neg hne, zero_add, ih hds.2 hk]
  | @cons_cons cs ds d hsub ih =>
    rw [List.map_cons, List.nodup_cons] at hds
    rw [amountAt_cons, amountAt_cons]
    by_cases hkey : key d = k
    · have hcs : k ∉ cs.map key := fun hmem => hds.1 (hkey ▸ (hsub.map key).subset hmem)
      have hds' : k ∉ ds.map key := hkey ▸ hds.1
      rw [amountAt_of_not_mem hcs, amountAt_of_not_mem hds']
    · rw [if_neg hkey, zero_add, zero_add]
      refine ih hds.2 ?_
      rw [List.map_cons, List.mem_cons] at hk
      exact hk.resolve_left (Ne.symm hkey)

variable (amount) in
/-- With distinct keys, what a list holds under the key of a coin is the coin. -/
theorem amountAt_of_mem {cs : List C} {c : C} (hcs : (cs.map key).Nodup) (hc : c ∈ cs) :
    amountAt key amount cs (key c) = amount c := by
  have hone : amountAt key amount [c] (key c) = amount c := by simp [amountAt, total]
  rw [← hone]
  exact (amountAt_of_sublist (List.singleton_sublist.mpr hc) hcs (List.mem_singleton_self _)).symm

variable (amount) in
omit [DecidableEq K] in
/-- To count nothing for some coins is to leave them out. -/
theorem total_ite (p : C → Prop) [DecidablePred p] (cs : List C) :
    total (fun c => if p c then amount c else 0) cs = total amount (cs.filter fun c => p c) := by
  induction cs with
  | nil => rfl
  | cons c cs ih =>
    simp only [total] at ih ⊢
    by_cases hc : p c <;> simp [hc, ih]

variable (key amount) in
/-- Taking the coins under distinct keys out of a list takes their amounts out
    of the total. -/
theorem total_filter_not_mem {ks : List K} (hks : ks.Nodup) (cs : List C) :
    total amount (cs.filter fun c => key c ∉ ks) + (ks.map (amountAt key amount cs)).sum =
      total amount cs := by
  induction cs with
  | nil => simp [total, funext (amountAt_nil key amount)]
  | cons c cs ih =>
    have hsum : (ks.map (amountAt key amount (c :: cs))).sum =
        (if key c ∈ ks then amount c else 0) + (ks.map (amountAt key amount cs)).sum := by
      have hcongr : ks.map (amountAt key amount (c :: cs)) =
          ks.map fun k => (if key c = k then amount c else 0) + amountAt key amount cs k :=
        List.map_congr_left fun k _ => amountAt_cons c cs k
      rw [hcongr, List.sum_map_add]
      congr 1
      clear ih hcongr
      induction ks with
      | nil => rfl
      | cons k ks ih =>
        rw [List.nodup_cons] at hks
        rw [List.map_cons, List.sum_cons, ih hks.2]
        by_cases hk : key c = k
        · subst hk
          simp [hks.1]
        · simp [hk]
    rw [hsum]
    by_cases hc : key c ∈ ks
    · have hfilter : (c :: cs).filter (fun c => key c ∉ ks) = cs.filter fun c => key c ∉ ks := by
        simp [hc]
      rw [hfilter, if_pos hc]
      simp only [total, List.map_cons, List.sum_cons] at ih ⊢
      omega
    · have hfilter : (c :: cs).filter (fun c => key c ∉ ks) =
          c :: cs.filter fun c => key c ∉ ks := by simp [hc]
      rw [hfilter, if_neg hc]
      simp only [total, List.map_cons, List.sum_cons] at ih ⊢
      omega

omit [DecidableEq K] in
variable (amount) in
/-- A list is made up of the coins that pass a test and those that do not. -/
theorem total_filter_add_filter_not (p : C → Bool) (cs : List C) :
    total amount (cs.filter p) + total amount (cs.filter fun c => !p c) = total amount cs := by
  induction cs with
  | nil => rfl
  | cons c cs ih =>
    simp only [total] at ih ⊢
    cases hc : p c <;> simp only [List.filter_cons, hc, Bool.not_false, Bool.not_true, if_true,
      if_false, Bool.false_eq_true, List.map_cons, List.sum_cons] <;> omega

variable (key amount) in
/-- The coins under distinct keys hold what the keys hold. -/
theorem total_filter_mem {ks : List K} (hks : ks.Nodup) (cs : List C) :
    total amount (cs.filter fun c => key c ∈ ks) = (ks.map (amountAt key amount cs)).sum := by
  have hsplit := total_filter_add_filter_not amount (fun c => decide (key c ∈ ks)) cs
  have hrest := total_filter_not_mem key amount hks cs
  simp only [decide_not] at hrest
  omega

variable (amount) in
/-- Conservation: what a fitting transfer does to the total. -/
theorem total_unspent_append {h : List (Transfer K C)} {t : Transfer K C} (hs : Sound key h)
    (ht : Fits key h t) :
    total amount (unspent key (h ++ [t])) + (t.spends.map (amountAt key amount (created h))).sum =
      total amount (unspent key h) + total amount t.creates := by
  have hamounts : t.spends.map (amountAt key amount (created h)) =
      t.spends.map (amountAt key amount (unspent key h)) :=
    List.map_congr_left fun k hk =>
      (amountAt_of_sublist (unspent_sublist h) hs.createdNodup (ht.spendsUnspent k hk)).symm
  rw [unspent_append hs ht, total_append, hamounts]
  have htaken := total_filter_not_mem key amount ht.spendsNodup (unspent key h)
  omega

/-! ## Blocks of transfers -/

variable (key) in
/-- What makes a list of transfers fit a history as a whole: the coins they
    create are new, and they spend coins that were unspent before the first of
    them, no coin twice. -/
structure FitsBlock (h ts : List (Transfer K C)) : Prop where
  fresh : ((created h ++ created ts).map key).Nodup
  spendsNodup : (spent ts).Nodup
  spendsUnspent : ∀ k ∈ spent ts, k ∈ (unspent key h).map key

theorem FitsBlock.head {h ts : List (Transfer K C)} {t : Transfer K C}
    (ht : FitsBlock key h (t :: ts)) : Fits key h t where
  fresh := by
    refine ht.fresh.sublist (List.Sublist.map key ?_)
    exact (List.Sublist.refl _).append (List.sublist_append_left ..)
  spendsNodup := ht.spendsNodup.sublist (List.sublist_append_left ..)
  spendsUnspent k hk := ht.spendsUnspent k (List.mem_append_left _ hk)

theorem FitsBlock.tail {h ts : List (Transfer K C)} {t : Transfer K C} (hs : Sound key h)
    (ht : FitsBlock key h (t :: ts)) : FitsBlock key (h ++ [t]) ts where
  fresh := by
    rw [created_append, created_singleton, List.append_assoc]
    exact ht.fresh
  spendsNodup := ht.spendsNodup.sublist (List.sublist_append_right ..)
  spendsUnspent k hk := by
    obtain ⟨c, hc, rfl⟩ := List.mem_map.mp (ht.spendsUnspent k (List.mem_append_right _ hk))
    have hnot : key c ∉ t.spends := by
      intro hmem
      exact (List.nodup_append.mp ht.spendsNodup).2.2 _ hmem _ hk rfl
    rw [unspent_append hs ht.head]
    refine List.mem_map_of_mem (List.mem_append_left _ ?_)
    exact List.mem_filter.mpr ⟨hc, by simpa using hnot⟩

theorem Sound.append_block {h ts : List (Transfer K C)} (hs : Sound key h)
    (hts : FitsBlock key h ts) : Sound key (h ++ ts) := by
  induction ts generalizing h with
  | nil => simpa using hs
  | cons t ts ih =>
    have hrest := ih (hs.append hts.head) (hts.tail hs)
    simpa using hrest

/-- The coins that the later transfers of a block spend are older than those of the first. -/
theorem FitsBlock.amountAt_tail {h ts : List (Transfer K C)} {t : Transfer K C} (hs : Sound key h)
    (ht : FitsBlock key h (t :: ts)) {t' : Transfer K C} (ht' : t' ∈ ts) :
    t'.spends.map (amountAt key amount (created (h ++ [t]))) =
      t'.spends.map (amountAt key amount (created h)) := by
  refine List.map_congr_left fun k hk => ?_
  have hspent : k ∈ spent (t :: ts) :=
    List.mem_append_right _ (List.mem_flatMap.mpr ⟨t', ht', hk⟩)
  refine (amountAt_of_sublist ?_ (hs.append ht.head).createdNodup ?_).symm
  · rw [created_append]
    exact List.sublist_append_left ..
  · exact mem_created_of_mem_unspent (ht.spendsUnspent k hspent)

variable (amount) in
/-- No transfer of a block spends more than there is. -/
theorem FitsBlock.sum_amountAt_le {h ts : List (Transfer K C)} (hs : Sound key h)
    (ht : FitsBlock key h ts) {t : Transfer K C} (hmem : t ∈ ts) :
    (t.spends.map (amountAt key amount (created h))).sum ≤ total amount (unspent key h) := by
  have hamounts : t.spends.map (amountAt key amount (created h)) =
      t.spends.map (amountAt key amount (unspent key h)) := by
    refine List.map_congr_left fun k hk => ?_
    have hunspent := ht.spendsUnspent k (List.mem_flatMap.mpr ⟨t, hmem, hk⟩)
    exact (amountAt_of_sublist (unspent_sublist h) hs.createdNodup hunspent).symm
  have hnodup : t.spends.Nodup := (List.nodup_flatMap.mp ht.spendsNodup).1 t hmem
  rw [hamounts, ← total_filter_not_mem key amount hnodup (unspent key h)]
  exact Nat.le_add_left ..

variable (amount) in
/-- What a block adds to the total is what its transfers mint, less what they burn. -/
theorem total_unspent_append_block {ι : Type*} {f : ι → Transfer K C} {mint burn : ι → ℕ}
    {h : List (Transfer K C)} {xs : List ι} (hs : Sound key h) (hxs : FitsBlock key h (xs.map f))
    (hmint : ∀ x ∈ xs, total amount (f x).creates + burn x =
      ((f x).spends.map (amountAt key amount (created h))).sum + mint x) :
    total amount (unspent key (h ++ xs.map f)) + (xs.map burn).sum =
      total amount (unspent key h) + (xs.map mint).sum := by
  induction xs generalizing h with
  | nil => simp
  | cons x xs ih =>
    have hrest := ih (hs.append hxs.head) (hxs.tail hs) fun y hy => by
      rw [hxs.amountAt_tail hs (List.mem_map_of_mem hy)]
      exact hmint y (List.mem_cons_of_mem x hy)
    have hfirst := total_unspent_append amount hs hxs.head
    have hcreates := hmint x (List.mem_cons_self ..)
    rw [List.append_assoc, List.singleton_append] at hrest
    simp only [List.map_cons, List.sum_cons]
    omega

variable (amount) in
/-- If every transfer of a block creates no more than it spends and mints, the
    block adds no more to the total than it mints. -/
theorem total_unspent_append_block_le {ι : Type*} {f : ι → Transfer K C} {mint : ι → ℕ}
    {h : List (Transfer K C)} {xs : List ι} (hs : Sound key h) (hxs : FitsBlock key h (xs.map f))
    (hmint : ∀ x ∈ xs, total amount (f x).creates ≤
      ((f x).spends.map (amountAt key amount (created h))).sum + mint x) :
    total amount (unspent key (h ++ xs.map f)) ≤
      total amount (unspent key h) + (xs.map mint).sum := by
  rw [← total_unspent_append_block amount hs hxs fun x hx => Nat.add_sub_of_le (hmint x hx)]
  exact Nat.le_add_right ..

end CoinHistory
