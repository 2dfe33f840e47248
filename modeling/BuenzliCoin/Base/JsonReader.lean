-- SUMMARY: A reader of the texts that dump writes, and that it reads all of them back.
import BuenzliCoin.Base.JsonText
import BuenzliCoin.Lib.Reader

namespace BuenzliCoin

open Readable

namespace Json

-- ---------------------------------------------------------------------------
-- Values that are written
-- ---------------------------------------------------------------------------

/-- `std::less` compares the bytes of two keys, which is to compare their characters. -/
@[simp]
def charsLt : List Char → List Char → Bool
  | _, [] => false
  | [], _ :: _ => true
  | c :: cs, d :: ds => c.toNat < d.toNat || (c.toNat = d.toNat && charsLt cs ds)

@[simp]
def keyLt (key key' : String) : Bool := charsLt key.toList key'.toList

/-- A value without signed and floating numbers, in which the members of objects
    have different keys and are in their order. -/
inductive Written : Json → Prop where
  | null : Written null
  | boolean (b : Bool) : Written (boolean b)
  | unsigned (n : UInt64) : Written (numberUnsigned n)
  | string (s : String) : Written (string s)
  | array {items : List Json} (h : ∀ j ∈ items, Written j) : Written (array items)
  | object {members : List (String × Json)} (sorted : members.Pairwise fun m m' => keyLt m.1 m'.1)
      (h : ∀ m ∈ members, Written m.2) : Written (object members)

-- ---------------------------------------------------------------------------
-- The reader
-- ---------------------------------------------------------------------------

/-- Reads the characters of a string up to the closing quote, at most `n` of them. -/
def readChars : Nat → Reader (List Char) Char
  | 0, _ => none
  | n + 1, s =>
    if s.head? = some '"' then some ([], s.tail)
    else do
      let (c, s) ← unescapeChar s
      let (cs, s) ← readChars n s
      return (c :: cs, s)

def readString (n : Nat) (s : List Char) : Option (String × List Char) :=
  if s.head? = some '"' then do
    let (cs, s) ← readChars n s.tail
    return (String.ofList cs, s)
  else none

def readNumber (s : List Char) : Option (Json × List Char) :=
  let digits := s.takeWhile Char.isDigit
  if digits = [] then none
  else some (numberUnsigned (UInt64.ofNat (Nat.ofDigitChars 10 digits 0)), s.dropWhile Char.isDigit)

def readMember (read : Reader Json Char) (n : Nat) (s : List Char) :
    Option ((String × Json) × List Char) := do
  let (key, s) ← readString n s
  if s.head? = some ':' then
    let (j, s) ← read s.tail
    return ((key, j), s)
  else none

/-- Reads a value that is nested less than `n` deep and has fewer than `n` items,
    members or characters in one place. -/
def readValue : Nat → Reader Json Char
  | 0, _ => none
  | n + 1, s =>
    match s.head? with
    | some 'n' => some (null, s.drop 4)
    | some 't' => some (boolean true, s.drop 4)
    | some 'f' => some (boolean false, s.drop 5)
    | some '"' => (readString n s).map fun p => (string p.1, p.2)
    | some '[' =>
      (readBracketed ',' ']' (readValue n) n s.tail).map fun p => (array p.1, p.2)
    | some '\x7b' =>
      (readBracketed ',' '\x7d' (readMember (readValue n) n) n s.tail).map fun p =>
        (object p.1, p.2)
    | _ => readNumber s

/-- What `json::parse` throws, with its `what()`. -/
inductive ParseException where
  | parseError (what : String)
  /-- The text is JSON, but no double is as large as one of its numbers. -/
  | outOfRange (what : String)

def ParseException.what : ParseException → String
  | .parseError what | .outOfRange what => what

/-- Reads a text that is a value and nothing else. -/
def readDump (text : String) : Except ParseException Json :=
  match readValue (text.toList.length + 1) text.toList with
  | some (j, []) => .ok j
  | _ => .error (.parseError "parse error")

-- ---------------------------------------------------------------------------
-- Reading back
-- ---------------------------------------------------------------------------

theorem readChars_escaped {cs : List Char} {n : Nat} (hn : cs.length < n) (s : List Char) :
    readChars n (cs.flatMap escapeChar ++ '"' :: s) = some (cs, s) := by
  induction cs generalizing n with
  | nil =>
    obtain ⟨n, rfl⟩ := Nat.exists_eq_add_of_lt hn
    simp [readChars]
  | cons c cs ih =>
    obtain ⟨n, rfl⟩ := Nat.exists_eq_add_of_le' (show 1 ≤ n by omega)
    have htext : (c :: cs).flatMap escapeChar ++ '"' :: s =
        escapeChar c ++ (cs.flatMap escapeChar ++ '"' :: s) := by simp
    have hhead : (escapeChar c ++ (cs.flatMap escapeChar ++ '"' :: s)).head? ≠ some '"' := by
      intro h
      exact escapeChar_ne_quote c _ _ (List.eq_cons_of_mem_head? h)
    rw [htext, readChars, if_neg hhead, unescapeChar_escapeChar]
    simp [ih (show cs.length < n by simpa using hn)]

theorem length_le_length_escaped (cs : List Char) : cs.length ≤ (cs.flatMap escapeChar).length := by
  induction cs with
  | nil => exact Nat.zero_le _
  | cons c cs ih =>
    have hhead : 0 < (escapeChar c).length := by
      refine List.length_pos_iff.mpr fun hnil => ?_
      have hread := unescapeChar_escapeChar c []
      rw [hnil] at hread
      cases hread
    simp only [List.flatMap_cons, List.length_append, List.length_cons]
    omega

theorem readString_dumpString (str : String) {n : Nat} (hn : (dumpString str).toList.length ≤ n)
    (s : List Char) : readString n ((dumpString str).toList ++ s) = some (str, s) := by
  have hchars := length_le_length_escaped str.toList
  rw [toList_dumpString] at hn ⊢
  simp only [List.length_cons, List.length_append, List.length_nil] at hn
  have hread : readChars n (str.toList.flatMap escapeChar ++ '"' :: s) = some (str.toList, s) :=
    readChars_escaped (by omega) s
  simp [readString, hread]

theorem readNumber_decimal (m : UInt64) {s : List Char} (hs : NoDigit s) :
    readNumber (decimal m ++ s) = some (numberUnsigned m, s) := by
  have hdigits : ∀ c ∈ decimal m, c.isDigit := fun c => isDigit_of_mem_decimal
  have hvalue : UInt64.ofNat (Nat.ofDigitChars 10 (decimal m) 0) = m := by
    rw [decimal_eq, Nat.ofDigitChars_ten_toDigits, UInt64.ofNat_toNat]
  simp only [readNumber, takeWhile_append_of_stop hdigits hs, dropWhile_append_of_stop hdigits hs,
    if_neg (decimal_ne_nil m), hvalue]

variable [Env]

/-- No value starts with a closing bracket. -/
theorem Written.exists_head {j : Json} (hj : Written j) :
    ∃ c r, (dump j).toList = c :: r ∧ c ≠ ']' := by
  cases hj with
  | null => exact ⟨'n', _, by rw [dump]; rfl, by decide⟩
  | boolean b =>
    cases b with
    | false => exact ⟨'f', _, by rw [dump]; rfl, by decide⟩
    | true => exact ⟨'t', _, by rw [dump]; rfl, by decide⟩
  | unsigned n =>
    obtain ⟨c, r, hdigits⟩ := List.exists_cons_of_ne_nil (decimal_ne_nil n)
    refine ⟨c, r, by rw [toList_dump_unsigned, hdigits], ?_⟩
    rintro rfl
    exact absurd (isDigit_of_mem_decimal (hdigits ▸ List.mem_cons_self ..)) (by decide)
  | string str => exact ⟨_, _, toList_dump_string str, by decide⟩
  | array _ => exact ⟨_, _, toList_dump_array _, by decide⟩
  | object _ _ => exact ⟨_, _, toList_dump_object _, by decide⟩

theorem Written.dump_ne_nil {j : Json} (hj : Written j) : (dump j).toList ≠ [] := by
  obtain ⟨c, r, hc, -⟩ := hj.exists_head
  rw [hc]
  exact List.cons_ne_nil _ _

theorem Written.dump_append_ne {j : Json} (hj : Written j) (s r : List Char) :
    (dump j).toList ++ s ≠ ']' :: r := by
  obtain ⟨c, r', hc, hne⟩ := hj.exists_head
  rw [hc]
  exact fun heq => hne (List.cons.inj heq).1

/-- A member is read if its value is. -/
theorem readMember_dumpMember {m : String × Json} {n : Nat} {s : List Char}
    (hn : (dumpMember m).length < n)
    (hread : (dump m.2).toList.length < n → readValue n ((dump m.2).toList ++ s) = some (m.2, s)) :
    readMember (readValue n) n (dumpMember m ++ s) = some (m, s) := by
  have htext : dumpMember m ++ s =
      (dumpString m.1).toList ++ ':' :: ((dump m.2).toList ++ s) := by
    simp [dumpMember]
  simp only [dumpMember, List.length_append, List.length_cons] at hn
  have hkey := readString_dumpString m.1 (n := n) (by omega)
    (':' :: ((dump m.2).toList ++ s))
  rw [htext]
  simp [readMember, hkey, hread (by omega)]

omit [Env] in
theorem readValue_unsigned (m : UInt64) {n : Nat} {s : List Char} (hs : NoDigit s) :
    readValue (n + 1) (decimal m ++ s) = some (numberUnsigned m, s) := by
  obtain ⟨c, r, hdigits⟩ := List.exists_cons_of_ne_nil (decimal_ne_nil m)
  have hdigit : c.isDigit := isDigit_of_mem_decimal (hdigits ▸ List.mem_cons_self ..)
  rw [← readNumber_decimal m hs, hdigits, readValue]
  split
  all_goals first
    | rfl
    | next heq =>
      cases heq
      exact absurd hdigit (by decide)

/-- Every value is read back from its text, if no digit follows a number. -/
theorem readValue_dump {j : Json} (hj : Written j) {n : Nat} (hn : (dump j).toList.length < n)
    {s : List Char} (hs : Follows j s) : readValue n ((dump j).toList ++ s) = some (j, s) := by
  induction hj generalizing n s with
  | null =>
    obtain ⟨n, rfl⟩ := Nat.exists_eq_add_of_lt hn
    rw [dump]
    rfl
  | boolean b =>
    obtain ⟨n, rfl⟩ := Nat.exists_eq_add_of_lt hn
    cases b <;> (rw [dump]; rfl)
  | unsigned m =>
    obtain ⟨n, rfl⟩ := Nat.exists_eq_add_of_lt hn
    rw [toList_dump_unsigned]
    exact readValue_unsigned m hs
  | string str =>
    obtain ⟨n, rfl⟩ := Nat.exists_eq_add_of_le' (Nat.one_le_of_lt hn)
    rw [dump] at hn ⊢
    have hread := readString_dumpString str (n := n) (by omega) s
    rw [toList_dumpString, List.cons_append] at hread ⊢
    simp only [readValue, List.head?_cons, hread, Option.map_some]
  | @array items h ih =>
    obtain ⟨n, rfl⟩ := Nat.exists_eq_add_of_le' (Nat.one_le_of_lt hn)
    have htext : (dump (array items)).toList ++ s =
        '[' :: (separated ',' (fun j => (dump j).toList) items ++ ']' :: s) := by
      simp [toList_dump_array]
    have hlength : (separated ',' (fun j => (dump j).toList) items).length < n := by
      rw [toList_dump_array] at hn
      simp only [List.length_cons, List.length_append, List.length_nil] at hn
      omega
    have hitem : ∀ j ∈ items, Undoes (readValue n) (fun j => (dump j).toList) Follows j := by
      intro j hj s hs
      have hle := length_le_length_separated ',' (fun j => (dump j).toList) hj
      exact ih j hj (Nat.lt_of_le_of_lt hle hlength) hs
    have hcount := length_le_length_separated_of_ne_nil ',' fun j hj => (h j hj).dump_ne_nil
    have hread : readBracketed ',' ']' (readValue n) n
        (separated ',' (fun j => (dump j).toList) items ++ ']' :: s) = some (items, s) :=
      readBracketed_separated (by decide) (fun j _ => follows_of_head (by decide) j)
        (fun j _ => follows_of_head (by decide) j) (fun j hj => (h j hj).dump_append_ne) hitem
        (Nat.le_of_lt (Nat.lt_of_le_of_lt hcount hlength))
    simp only [htext, readValue, List.head?_cons, List.tail_cons, hread, Option.map_some]
  | @object members sorted h ih =>
    obtain ⟨n, rfl⟩ := Nat.exists_eq_add_of_le' (Nat.one_le_of_lt hn)
    have htext : (dump (object members)).toList ++ s =
        '\x7b' :: (separated ',' dumpMember members ++ '\x7d' :: s) := by
      simp [toList_dump_object]
    have hlength : (separated ',' dumpMember members).length < n := by
      rw [toList_dump_object] at hn
      simp only [List.length_cons, List.length_append, List.length_nil] at hn
      omega
    have hmember : ∀ m ∈ members,
        Undoes (readMember (readValue n) n) dumpMember (fun m => Follows m.2) m := by
      intro m hm s hs
      have hle := length_le_length_separated ',' dumpMember hm
      exact readMember_dumpMember (Nat.lt_of_le_of_lt hle hlength) fun hn => ih m hm hn hs
    have hquote : ∀ (m : String × Json) (s : List Char), ∃ r, dumpMember m ++ s = '"' :: r :=
      fun m s => ⟨_, by rw [dumpMember, toList_dumpString]; rfl⟩
    have hcount : members.length ≤ (separated ',' dumpMember members).length := by
      refine length_le_length_separated_of_ne_nil ',' fun m _ hnil => ?_
      obtain ⟨r, hr⟩ := hquote m []
      rw [hnil] at hr
      cases hr
    have hread : readBracketed ',' '\x7d' (readMember (readValue n) n) n
        (separated ',' dumpMember members ++ '\x7d' :: s) = some (members, s) := by
      refine readBracketed_separated (by decide) (fun m _ => follows_of_head (by decide) m.2)
        (fun m _ => follows_of_head (by decide) m.2) ?_ hmember
        (Nat.le_of_lt (Nat.lt_of_le_of_lt hcount hlength))
      intro m _ s r heq
      obtain ⟨r', hr'⟩ := hquote m s
      cases heq.symm.trans hr'
    simp only [htext, readValue, List.head?_cons, List.tail_cons, hread, Option.map_some]

/-- A text that was dumped is read back. -/
theorem readDump_dump {j : Json} (hj : Written j) : readDump j.dump = .ok j := by
  have hfollows : Follows j [] := by
    cases hj with
    | unsigned n => exact fun c hc => nomatch hc
    | _ => trivial
  have hread := readValue_dump hj (Nat.lt_succ_self _) hfollows
  rw [List.append_nil] at hread
  rw [readDump, hread]

end Json

-- ---------------------------------------------------------------------------
-- json::parse
-- ---------------------------------------------------------------------------

class JsonParser where
  /-- `json::parse` -/
  parse : String → Except Json.ParseException Json

/-- What `dump` has written, `parse` reads back. -/
def ReadsDumps [Env] [JsonParser] : Prop := ∀ j : Json, j.Written → JsonParser.parse j.dump = .ok j

/-- A parser of nothing but what `dump` writes. -/
abbrev dumpReader : JsonParser := ⟨Json.readDump⟩

theorem readsDumps_dumpReader [Env] : letI := dumpReader; ReadsDumps :=
  fun _ hj => Json.readDump_dump hj

end BuenzliCoin
