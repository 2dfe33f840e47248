-- SUMMARY: The compact text of JSON values without signed and floating numbers determines the value.
import BuenzliCoin.Base.Json
import BuenzliCoin.Lib.Readable

namespace BuenzliCoin

open Readable

-- ---------------------------------------------------------------------------
-- Numbers
-- ---------------------------------------------------------------------------

/-- The decimal digits of a number. -/
def decimal (n : UInt64) : List Char := (toString n).toList

theorem decimal_eq (n : UInt64) : decimal n = Nat.toDigits 10 n.toNat := Nat.toList_repr

theorem isDigit_of_mem_decimal {n : UInt64} {c : Char} (h : c ∈ decimal n) : c.isDigit := by
  rw [decimal_eq] at h
  exact Nat.isDigit_of_mem_toDigits (by decide) (by decide) h

theorem decimal_injective : Function.Injective decimal := by
  intro m n h
  rw [decimal_eq, decimal_eq] at h
  apply UInt64.toNat_inj.mp
  rw [← Nat.ofDigitChars_ten_toDigits (n := m.toNat), h, Nat.ofDigitChars_ten_toDigits]

theorem decimal_ne_nil (n : UInt64) : decimal n ≠ [] := by
  rw [decimal_eq]
  exact Nat.toDigits_ne_nil

/-- No digit follows. -/
def NoDigit (s : List Char) : Prop := ∀ c, s.head? = some c → ¬ c.isDigit

theorem decimal_readsBack (n : UInt64) :
    ReadsBack (fun _ => True) (fun _ => NoDigit) decimal n := by
  intro n' s s' _ hs hs' heq
  obtain ⟨hdigits, hrest⟩ := append_inj_of_letters (p := Char.isDigit)
    (fun c => isDigit_of_mem_decimal) (fun c => isDigit_of_mem_decimal) hs hs' heq
  exact ⟨decimal_injective hdigits, hrest⟩

namespace Json

-- ---------------------------------------------------------------------------
-- Strings
-- ---------------------------------------------------------------------------

/-- The value of a hexadecimal digit. -/
def nibbleValue (c : Char) : Nat := if c.toNat < 58 then c.toNat - 48 else c.toNat - 87

/-- Reads one character of a dumped string. -/
def unescapeChar : List Char → Option (Char × List Char)
  | '\\' :: 'u' :: '0' :: '0' :: hi :: lo :: s =>
    some (Char.ofNat (16 * nibbleValue hi + nibbleValue lo), s)
  | '\\' :: 'b' :: s => some (Char.ofNat 8, s)
  | '\\' :: 't' :: s => some (Char.ofNat 9, s)
  | '\\' :: 'n' :: s => some (Char.ofNat 10, s)
  | '\\' :: 'f' :: s => some (Char.ofNat 12, s)
  | '\\' :: 'r' :: s => some (Char.ofNat 13, s)
  | '\\' :: c :: s => some (c, s)
  | c :: s => some (c, s)
  | [] => none

/-- Other characters than these are written as they are. -/
theorem escapeChar_eq_singleton {c : Char} (hcontrol : ¬ c.toNat < 32) (hquote : c ≠ '"')
    (hbackslash : c ≠ '\\') : escapeChar c = [c] := by
  have hne : ∀ n < 32, c.toNat ≠ n := fun n hn heq => hcontrol (heq ▸ hn)
  rw [escapeChar, if_neg hquote, if_neg hbackslash, if_neg (hne 8 (by decide)),
    if_neg (hne 9 (by decide)), if_neg (hne 10 (by decide)), if_neg (hne 12 (by decide)),
    if_neg (hne 13 (by decide)), if_neg hcontrol]

theorem unescapeChar_cons {c : Char} (hbackslash : c ≠ '\\') (s : List Char) :
    unescapeChar (c :: s) = some (c, s) := by
  unfold unescapeChar
  split <;> simp_all

theorem unescapeChar_escapeChar (c : Char) (s : List Char) :
    unescapeChar (escapeChar c ++ s) = some (c, s) := by
  by_cases hcontrol : c.toNat < 32
  · rw [← Char.ofNat_toNat c]
    generalize c.toNat = n at hcontrol
    interval_cases n <;> rfl
  by_cases hquote : c = '"'
  · rw [hquote]
    rfl
  by_cases hbackslash : c = '\\'
  · rw [hbackslash]
    rfl
  rw [escapeChar_eq_singleton hcontrol hquote hbackslash]
  exact unescapeChar_cons hbackslash s

theorem escapeChar_ne_quote (c : Char) (s r : List Char) : escapeChar c ++ s ≠ '"' :: r := by
  intro h
  have hread := unescapeChar_escapeChar c s
  by_cases hquote : c = '"'
  · rw [hquote] at h
    cases h
  · rw [h] at hread
    cases hread
    exact hquote rfl

theorem toList_dumpString (s : String) :
    (dumpString s).toList = '"' :: (s.toList.flatMap escapeChar ++ ['"']) := by
  simp [dumpString]

/-- A dumped string ends at the first quote that is not escaped. -/
theorem dumpString_readsBack (s : String) :
    ReadsBack (fun _ => True) (fun _ _ => True) (fun s => (dumpString s).toList) s := by
  intro t r r' _ _ _ heq
  simp only [toList_dumpString, List.cons_append, List.append_assoc, List.cons.injEq, true_and,
    List.nil_append] at heq
  have hchars : ReadsBack (fun cs => ∀ c ∈ cs, True) (fun _ => Closed '"')
      (fun cs => cs.flatMap escapeChar) s.toList := by
    apply flatMap_readsBack (F := fun _ _ => True)
    · exact fun _ _ _ => trivial
    · exact fun _ _ => trivial
    · exact fun c s r _ => escapeChar_ne_quote c s r
    · exact fun _ _ => trivial
    · exact fun c _ => readsBack_of_reader unescapeChar_escapeChar c
  obtain ⟨hlist, hrest⟩ := hchars t.toList _ _ (fun _ _ => trivial) ⟨r, rfl⟩ ⟨r', rfl⟩ heq
  exact ⟨String.toList_inj.mp hlist, (List.cons.inj hrest).2⟩

-- ---------------------------------------------------------------------------
-- Values
-- ---------------------------------------------------------------------------

/-- A value made of strings and unsigned numbers. -/
inductive Plain : Json → Prop where
  | unsigned (n : UInt64) : Plain (numberUnsigned n)
  | string (s : String) : Plain (string s)
  | array {items : List Json} (h : ∀ j ∈ items, Plain j) : Plain (array items)
  | object {members : List (String × Json)} (h : ∀ m ∈ members, Plain m.2) : Plain (object members)

/-- A number may be followed by anything but a digit, other values by anything. -/
def Follows : Json → List Char → Prop
  | numberUnsigned _, s => NoDigit s
  | _, _ => True

variable [Env]

/-- A member of an object. -/
def dumpMember (m : String × Json) : List Char :=
  (dumpString m.1).toList ++ ':' :: (dump m.2).toList

theorem toList_dumpItems (items : List Json) :
    (dumpItems items).toList = separated ',' (fun j => (dump j).toList) items := by
  induction items with
  | nil => simp [dumpItems, separated]
  | cons j items ih =>
    cases items with
    | nil => simp [dumpItems, separated]
    | cons k items => simp [dumpItems, separated, ih]

theorem toList_dumpMembers (members : List (String × Json)) :
    (dumpMembers members).toList = separated ',' dumpMember members := by
  induction members with
  | nil => simp [dumpMembers, separated]
  | cons m members ih =>
    obtain ⟨key, j⟩ := m
    cases members with
    | nil => simp [dumpMembers, separated, dumpMember]
    | cons m members => simp [dumpMembers, separated, dumpMember, ih]

theorem toList_dump_unsigned (n : UInt64) : (dump (numberUnsigned n)).toList = decimal n := by
  rw [dump, decimal]

theorem toList_dump_string (s : String) :
    (dump (string s)).toList = '"' :: (s.toList.flatMap escapeChar ++ ['"']) := by
  rw [dump, toList_dumpString]

theorem toList_dump_array (items : List Json) : (dump (array items)).toList =
    '[' :: (separated ',' (fun j => (dump j).toList) items ++ [']']) := by
  simp [dump, toList_dumpItems]

theorem toList_dump_object (members : List (String × Json)) : (dump (object members)).toList =
    '\x7b' :: (separated ',' dumpMember members ++ ['\x7d']) := by
  simp [dump, toList_dumpMembers]

/-- The characters that the text of a value may start with. -/
def Lead : Json → Char → Prop
  | numberUnsigned _, c => c.isDigit
  | string _, c => c = '"'
  | array _, c => c = '['
  | object _, c => c = '\x7b'
  | _, _ => False

theorem Plain.exists_lead {j : Json} (hj : Plain j) :
    ∃ c r, (dump j).toList = c :: r ∧ Lead j c := by
  cases hj with
  | unsigned n =>
    obtain ⟨c, r, hdigits⟩ := List.exists_cons_of_ne_nil (decimal_ne_nil n)
    refine ⟨c, r, by rw [toList_dump_unsigned, hdigits], ?_⟩
    exact isDigit_of_mem_decimal (hdigits ▸ List.mem_cons_self ..)
  | string s => exact ⟨_, _, toList_dump_string s, rfl⟩
  | array _ => exact ⟨_, _, toList_dump_array _, rfl⟩
  | object _ => exact ⟨_, _, toList_dump_object _, rfl⟩

/-- Two values that the same text starts with start with the same character. -/
theorem Plain.exists_common_lead {j j' : Json} {s s' : List Char} (hj : Plain j) (hj' : Plain j')
    (heq : (dump j).toList ++ s = (dump j').toList ++ s') : ∃ c, Lead j c ∧ Lead j' c := by
  obtain ⟨c, r, hc, hlead⟩ := hj.exists_lead
  obtain ⟨c', r', hc', hlead'⟩ := hj'.exists_lead
  rw [hc, hc', List.cons_append, List.cons_append] at heq
  obtain rfl := (List.cons.inj heq).1
  exact ⟨c, hlead, hlead'⟩

theorem Plain.ne_bracket {j : Json} (hj : Plain j) (s r : List Char) :
    (dump j).toList ++ s ≠ ']' :: r := by
  intro heq
  obtain ⟨c, r', hc, hlead⟩ := hj.exists_lead
  rw [hc, List.cons_append] at heq
  obtain rfl := (List.cons.inj heq).1
  cases hj with
  | unsigned n => exact absurd hlead (by simp [Lead])
  | _ => cases hlead

omit [Env] in
theorem follows_of_head {c : Char} (hc : ¬ c.isDigit) (j : Json) (s : List Char) :
    Follows j (c :: s) := by
  cases j with
  | numberUnsigned n =>
    intro d hd
    cases hd
    exact hc
  | _ => exact trivial

theorem array_readsBack {items : List Json} (h : ∀ j ∈ items, Plain j)
    (hitems : ∀ j ∈ items, ReadsBack Plain Follows (fun j => (dump j).toList) j) :
    ReadsBack (fun js => ∀ j ∈ js, Plain j) (fun _ => Closed ']')
      (separated ',' fun j => (dump j).toList) items := by
  apply separated_readsBack (F := Follows) (by decide)
  · exact follows_of_head (by decide)
  · exact follows_of_head (by decide)
  · exact fun j s r hj => hj.ne_bracket s r
  · exact h
  · exact hitems

theorem dumpMember_readsBack (key : String) {j : Json}
    (h : ReadsBack Plain Follows (fun j => (dump j).toList) j) :
    ReadsBack (fun m => True ∧ Plain m.2) (fun m => Follows m.2) dumpMember (key, j) := by
  have hpair := (dumpString_readsBack key).pair (h.cons ':') fun _ _ _ => trivial
  rintro ⟨key', j'⟩ s s' hj' hs hs' heq
  exact hpair (key', j') s s' hj' hs hs' heq

theorem object_readsBack {members : List (String × Json)} (h : ∀ m ∈ members, Plain m.2)
    (hmembers : ∀ m ∈ members, ReadsBack Plain Follows (fun j => (dump j).toList) m.2) :
    ReadsBack (fun ms => ∀ m ∈ ms, True ∧ Plain m.2) (fun _ => Closed '\x7d')
      (separated ',' dumpMember) members := by
  apply separated_readsBack (F := fun m => Follows m.2) (by decide)
  · exact fun m => follows_of_head (by decide) m.2
  · exact fun m => follows_of_head (by decide) m.2
  · intro m s r _ heq
    rw [dumpMember, toList_dumpString] at heq
    cases heq
  · exact fun m hm => ⟨trivial, h m hm⟩
  · exact fun m hm => dumpMember_readsBack m.1 (hmembers m hm)

/-- The text of a plain value is that of no other plain value. -/
theorem Plain.readsBack {j : Json} (hj : Plain j) :
    ReadsBack Plain Follows (fun j => (dump j).toList) j := by
  induction hj with
  | unsigned n =>
    intro j' s s' hj' hs hs' heq
    obtain ⟨c, hlead, hlead'⟩ := (Plain.unsigned n).exists_common_lead hj' heq
    cases hj' with
    | unsigned n' =>
      simp only [toList_dump_unsigned] at heq
      obtain ⟨rfl, hrest⟩ := decimal_readsBack n n' s s' trivial hs hs' heq
      exact ⟨rfl, hrest⟩
    | _ =>
      cases hlead'
      exact absurd hlead (by simp [Lead])
  | string t =>
    intro j' s s' hj' hs hs' heq
    obtain ⟨c, hlead, hlead'⟩ := (Plain.string t).exists_common_lead hj' heq
    cases hlead
    cases hj' with
    | string t' =>
      simp only [dump] at heq
      obtain ⟨rfl, hrest⟩ := dumpString_readsBack t t' s s' trivial trivial trivial heq
      exact ⟨rfl, hrest⟩
    | unsigned n => exact absurd hlead' (by simp [Lead])
    | _ => cases hlead'
  | @array items h ih =>
    intro j' s s' hj' hs hs' heq
    obtain ⟨c, hlead, hlead'⟩ := (Plain.array h).exists_common_lead hj' heq
    cases hlead
    cases hj' with
    | @array items' h' =>
      simp only [toList_dump_array, List.cons_append, List.append_assoc, List.cons.injEq, true_and,
        List.nil_append] at heq
      obtain ⟨rfl, hrest⟩ := array_readsBack h ih items' _ _ h' ⟨s, rfl⟩ ⟨s', rfl⟩ heq
      exact ⟨rfl, (List.cons.inj hrest).2⟩
    | unsigned n => exact absurd hlead' (by simp [Lead])
    | _ => cases hlead'
  | @object members h ih =>
    intro j' s s' hj' hs hs' heq
    obtain ⟨c, hlead, hlead'⟩ := (Plain.object h).exists_common_lead hj' heq
    cases hlead
    cases hj' with
    | @object members' h' =>
      simp only [toList_dump_object, List.cons_append, List.append_assoc, List.cons.injEq, true_and,
        List.nil_append] at heq
      obtain ⟨rfl, hrest⟩ := object_readsBack h ih members' _ _ (fun m hm => ⟨trivial, h' m hm⟩)
        ⟨s, rfl⟩ ⟨s', rfl⟩ heq
      exact ⟨rfl, (List.cons.inj hrest).2⟩
    | unsigned n => exact absurd hlead' (by simp [Lead])
    | _ => cases hlead'

end Json

end BuenzliCoin
