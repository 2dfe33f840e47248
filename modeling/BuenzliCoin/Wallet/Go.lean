-- SUMMARY: What the wallet uses of Go's standard library on strings: paths, base64, trimming, and lines.
import Mathlib.Data.List.DropRight
import Mathlib.Data.UInt
import BuenzliCoin.Base.Digest

/-!
# Go strings

A string of Go is a sequence of bytes, whatever their encoding.
-/

namespace BuenzliCoin

abbrev GoString := List UInt8

namespace GoString

/-- A string literal, and any text in UTF-8. -/
def ofString (s : String) : GoString := s.toUTF8.data.toList

theorem ofString_append (s t : String) : ofString (s ++ t) = ofString s ++ ofString t := by
  simp [ofString]

theorem ofString_join (ss : List String) : ofString (String.join ss) = ss.flatMap ofString := by
  induction ss with
  | nil => rfl
  | cons s ss ih => rw [String.join_cons, ofString_append, ih, List.flatMap_cons]

theorem ofString_eq_flatMap (s : String) :
    ofString s = s.toList.flatMap String.utf8EncodeChar := by
  conv_lhs => rw [← String.ofList_toList (s := s)]
  rw [ofString, String.toUTF8_eq_toByteArray, String.toByteArray_ofList, List.utf8Encode,
    List.toList_data_toByteArray]

theorem ofString_injective : Function.Injective ofString := by
  intro s t h
  exact String.toByteArray_inj.mp (ByteArray.ext (Array.toList_inj.mp h))

def newline : UInt8 := 10
def carriageReturn : UInt8 := 13
def space : UInt8 := 32
def slash : UInt8 := 47
def equalsSign : UInt8 := 61

/-- `strings.Trim(s, "=")` -/
def trimEquals (s : GoString) : GoString :=
  (s.dropWhile (· = equalsSign)).rdropWhile (· = equalsSign)

end GoString

open GoString

-- ---------------------------------------------------------------------------
-- Package path/filepath
-- ---------------------------------------------------------------------------

namespace Filepath

def dot : GoString := ofString "."
def dotDot : GoString := ofString ".."

/-- What `Clean` makes of one component; the components so far come last first. -/
def push (rooted : Bool) (path : List GoString) (component : GoString) : List GoString :=
  if component = [] ∨ component = dot then path
  else if component = dotDot then
    match path with
    | last :: rest => if last = dotDot then dotDot :: path else rest
    | [] => if rooted then [] else [dotDot]
  else component :: path

/-- `filepath.Clean` on Unix. -/
def clean (path : GoString) : GoString :=
  let rooted : Bool := path.head? = some slash
  let body := [slash].intercalate ((path.splitOn slash).foldl (push rooted) []).reverse
  if rooted then slash :: body
  else if body = [] then dot
  else body

/-- `filepath.Join` of two elements. -/
def join (dir file : GoString) : GoString :=
  if dir ≠ [] then clean (dir ++ [slash] ++ file)
  else if file ≠ [] then clean file
  else []

/-- A name that stands for an entry of a directory. -/
structure IsEntry (file : GoString) : Prop where
  noSlash : slash ∉ file
  nonempty : file ≠ []
  notDot : file ≠ dot
  notDotDot : file ≠ dotDot

theorem IsEntry.splitOn {file : GoString} (h : IsEntry file) : file.splitOn slash = [file] := by
  apply List.splitOnP_eq_singleton
  intro c hc
  have hne : c ≠ slash := by
    rintro rfl
    exact h.noSlash hc
  simpa using hne

theorem IsEntry.push_eq {file : GoString} (h : IsEntry file) (rooted : Bool)
    (path : List GoString) : push rooted path file = file :: path := by
  simp only [push, h.nonempty, h.notDot, h.notDotDot, or_self, if_false]

theorem intercalate_concat (sep : GoString) (path : List GoString) :
    ∃ before, ∀ file, sep.intercalate (path ++ [file]) = before ++ file := by
  induction path with
  | nil => exact ⟨[], fun file => by simp [List.intercalate]⟩
  | cons first path ih =>
    obtain ⟨before, hbefore⟩ := ih
    refine ⟨first ++ sep ++ before, fun file => ?_⟩
    have hne : path ++ [file] ≠ [] := by simp
    obtain ⟨second, rest, hrest⟩ := List.exists_cons_of_ne_nil hne
    rw [List.append_assoc, List.append_assoc, ← hbefore file, List.cons_append, hrest]
    simp [List.intercalate]

/-- Of a path that ends with an entry, `Clean` keeps the entry. -/
theorem clean_eq_append {dir : GoString} (hdir : dir ≠ []) :
    ∃ before, ∀ file, IsEntry file → clean (dir ++ [slash] ++ file) = before ++ file := by
  let rooted : Bool := dir.head? = some slash
  obtain ⟨before, hbefore⟩ := intercalate_concat [slash]
    ((dir.splitOn slash).foldl (push rooted) []).reverse
  refine ⟨if rooted then slash :: before else before, fun file h => ?_⟩
  have hhead : (dir ++ [slash] ++ file).head? = dir.head? := by
    obtain ⟨c, rest, rfl⟩ := List.exists_cons_of_ne_nil hdir
    rfl
  have hsplit : (dir ++ [slash] ++ file).splitOn slash = dir.splitOn slash ++ [file] := by
    rw [List.append_assoc, ← h.splitOn]
    exact List.splitOnP_append_cons dir file (beq_self_eq_true slash)
  have hbody : before ++ file ≠ [] := by simp [h.nonempty]
  simp only [clean, hhead, hsplit, List.foldl_append, List.foldl_cons, List.foldl_nil, h.push_eq,
    List.reverse_cons]
  rw [hbefore, if_neg hbody]
  split
  · rfl
  · rfl

/-- The path of an entry ends with its name, after what the directory alone decides. -/
theorem join_eq_append (dir : GoString) :
    ∃ before, ∀ file, IsEntry file → join dir file = before ++ file := by
  by_cases hdir : dir = []
  · refine ⟨[], fun file h => ?_⟩
    have hhead : file.head? ≠ some slash := fun hhead => h.noSlash (List.mem_of_mem_head? hhead)
    simp [join, hdir, h.nonempty, clean, hhead, h.splitOn, h.push_eq, List.intercalate]
  · obtain ⟨before, hbefore⟩ := clean_eq_append hdir
    refine ⟨before, fun file h => ?_⟩
    rw [join, if_pos hdir]
    exact hbefore file h

/-- Different entries of a directory have different paths. -/
theorem join_injective {dir file file' : GoString} (h : IsEntry file) (h' : IsEntry file')
    (heq : join dir file = join dir file') : file = file' := by
  obtain ⟨before, hbefore⟩ := join_eq_append dir
  rw [hbefore file h, hbefore file' h'] at heq
  exact List.append_cancel_left heq

end Filepath

-- ---------------------------------------------------------------------------
-- Package encoding/base64
-- ---------------------------------------------------------------------------

namespace Base64

def alphabet : GoString :=
  ofString "ABCDEFGHIJKLMNOPQRSTUVWXYZabcdefghijklmnopqrstuvwxyz0123456789+/"

/-- The character for the six low bits. -/
def digit (val : Nat) : UInt8 := alphabet.getD (val % 64) equalsSign

/-- `base64.StdEncoding.EncodeToString`, which pads with equals signs. -/
def encodeToString : List UInt8 → GoString
  | a :: b :: c :: rest =>
    let val := a.toNat * 2 ^ 16 + b.toNat * 2 ^ 8 + c.toNat
    digit (val / 2 ^ 18) :: digit (val / 2 ^ 12) :: digit (val / 2 ^ 6) :: digit val ::
      encodeToString rest
  | [a, b] =>
    let val := a.toNat * 2 ^ 16 + b.toNat * 2 ^ 8
    [digit (val / 2 ^ 18), digit (val / 2 ^ 12), digit (val / 2 ^ 6), equalsSign]
  | [a] =>
    let val := a.toNat * 2 ^ 16
    [digit (val / 2 ^ 18), digit (val / 2 ^ 12), equalsSign, equalsSign]
  | [] => []

theorem digit_mem (val : Nat) : digit val ∈ alphabet := by
  have hlength : val % 64 < alphabet.length := Nat.mod_lt val (show 0 < 64 by decide)
  rw [digit, List.getD_eq_getElem?_getD, List.getElem?_eq_getElem hlength]
  exact List.getElem_mem hlength

theorem equalsSign_not_mem : equalsSign ∉ alphabet := by decide +kernel

/-- The text of a number of bytes that is one more than a multiple of three. -/
theorem encodeToString_of_length (k : Nat) (bytes : List UInt8) (h : bytes.length = 3 * k + 1) :
    ∃ body, encodeToString bytes = body ++ [equalsSign, equalsSign] ∧ body.length = 4 * k + 2 ∧
      ∀ c ∈ body, c ∈ alphabet := by
  induction k generalizing bytes with
  | zero =>
    obtain ⟨a, rfl⟩ := List.length_eq_one_iff.mp h
    refine ⟨[_, _], rfl, rfl, ?_⟩
    simp only [List.forall_mem_cons, digit_mem, true_and]
    exact fun c hc => by cases hc
  | succ k ih =>
    match bytes, h with
    | a :: b :: c :: rest, h =>
      have hrest : rest.length = 3 * k + 1 := by
        simp only [List.length_cons] at h
        omega
      obtain ⟨body, hencode, hlength, hall⟩ := ih rest hrest
      let val := a.toNat * 2 ^ 16 + b.toNat * 2 ^ 8 + c.toNat
      refine ⟨digit (val / 2 ^ 18) :: digit (val / 2 ^ 12) :: digit (val / 2 ^ 6) :: digit val ::
        body, ?_, ?_, ?_⟩
      · rw [encodeToString, hencode]
        rfl
      · simp only [List.length_cons, hlength]
        omega
      · simp only [List.forall_mem_cons, digit_mem, true_and]
        exact hall

/-- `strings.Trim` takes the padding away, and nothing else. -/
theorem trimEquals_encodeToString (k : Nat) (bytes : List UInt8) (h : bytes.length = 3 * k + 1) :
    (trimEquals (encodeToString bytes)).length = 4 * k + 2 ∧
      ∀ c ∈ trimEquals (encodeToString bytes), c ∈ alphabet := by
  obtain ⟨body, hencode, hlength, hall⟩ := encodeToString_of_length k bytes h
  have hne : ∀ c ∈ body, ¬ c = equalsSign := by
    rintro c hc rfl
    exact equalsSign_not_mem (hall _ hc)
  have hbody : body ≠ [] := by
    rintro rfl
    exact absurd hlength (by simp)
  have htrim : trimEquals (body ++ [equalsSign, equalsSign]) = body := by
    have hright : (body ++ [equalsSign, equalsSign]).rdropWhile (· = equalsSign) = body := by
      have hpair : body ++ [equalsSign, equalsSign] = body ++ [equalsSign] ++ [equalsSign] := by
        simp
      simp only [hpair, List.rdropWhile_concat, decide_true, if_true]
      rw [List.rdropWhile_eq_self_iff]
      intro hbody
      simpa using hne _ (List.getLast_mem hbody)
    obtain ⟨first, rest, rfl⟩ := List.exists_cons_of_ne_nil hbody
    have hfirst := hne first (List.mem_cons_self ..)
    have hleft : (first :: rest ++ [equalsSign, equalsSign]).dropWhile (· = equalsSign) =
        first :: rest ++ [equalsSign, equalsSign] := by simp [hfirst]
    rw [trimEquals, hleft, hright]
  rw [hencode, htrim]
  exact ⟨hlength, hall⟩

end Base64

-- ---------------------------------------------------------------------------
-- Package bufio
-- ---------------------------------------------------------------------------

namespace Bufio

/-- `bufio.MaxScanTokenSize` -/
def maxScanTokenSize : Nat := 64 * 1024

/-- `dropCR` -/
def dropCR (line : GoString) : GoString :=
  if line.getLast? = some carriageReturn then line.dropLast else line

/-- The lines that `Scan` goes through; `line` is what it has read of the current
    one. It stops for good where a line does not fit into its buffer together with
    the newline that ends it. -/
def scanFrom (line : GoString) : GoString → List GoString
  | [] => if line = [] ∨ maxScanTokenSize ≤ line.length then [] else [dropCR line]
  | c :: rest =>
    if maxScanTokenSize ≤ line.length then []
    else if c = newline then dropCR line :: scanFrom [] rest
    else scanFrom (line ++ [c]) rest

/-- The texts of a `bufio.Scanner` that scans lines. -/
def scanLines (content : GoString) : List GoString := scanFrom [] content

theorem scanFrom_append {line line' rest : GoString} (h : newline ∉ line') :
    scanFrom line (line' ++ newline :: rest) =
      if maxScanTokenSize ≤ (line ++ line').length then []
      else dropCR (line ++ line') :: scanLines rest := by
  induction line' generalizing line with
  | nil =>
    rw [List.nil_append, scanFrom, List.append_nil, if_pos rfl]
    rfl
  | cons c line' ih =>
    obtain ⟨hc, hline'⟩ := not_or.mp (mt List.mem_cons.mpr h)
    rw [List.cons_append, scanFrom, if_neg (Ne.symm hc), ih hline', List.append_assoc,
      List.singleton_append]
    split_ifs with hfull hlong
    · rfl
    · rw [List.length_append] at hlong
      omega
    · rfl
    · rfl

/-- The first line, if it ends. -/
theorem scanLines_append {line rest : GoString} (h : newline ∉ line) :
    scanLines (line ++ newline :: rest) =
      if maxScanTokenSize ≤ line.length then [] else dropCR line :: scanLines rest :=
  scanFrom_append h

end Bufio

-- ---------------------------------------------------------------------------
-- Package encoding/hex
-- ---------------------------------------------------------------------------

namespace Hex

def hextable : GoString := ofString "0123456789abcdef"

/-- `hex.EncodeToString` -/
def encodeToString (bytes : List UInt8) : GoString :=
  bytes.flatMap fun byte : UInt8 =>
    [hextable.getD (byte >>> 4).toNat 0, hextable.getD (byte &&& 0x0f).toNat 0]

/-- It writes what `Digest::to_string` writes. -/
theorem encodeToString_eq (bytes : List UInt8) :
    encodeToString bytes = ofString (Digest.toString ⟨bytes⟩) := by
  have hbyte : ∀ n : Fin 256,
      let byte := UInt8.ofFin n
      [hextable.getD (byte >>> 4).toNat 0, hextable.getD (byte &&& 0x0f).toNat 0] =
        [Digest.nibbleToChar (byte >>> 4), Digest.nibbleToChar (byte &&& 0x0f)].flatMap
          String.utf8EncodeChar := by decide +kernel
  rw [ofString_eq_flatMap, Digest.toString, String.toList_ofList, List.flatMap_assoc]
  exact List.flatMap_congr fun byte _ => hbyte byte.toFin

end Hex

-- ---------------------------------------------------------------------------
-- Package unicode/utf8
-- ---------------------------------------------------------------------------

namespace Utf8

/-- The characters of a string from its byte `skip` on. A byte at which no encoding
    starts counts as a replacement character. -/
def runesFrom : Nat → GoString → List Char
  | _, [] => []
  | skip + 1, _ :: bytes => runesFrom skip bytes
  | 0, byte :: bytes =>
    match (byte :: bytes).toByteArray.utf8DecodeChar? 0 with
    | some c => c :: runesFrom (c.utf8Size - 1) bytes
    | none => Char.ofNat 0xfffd :: runesFrom 0 bytes

/-- The text that `json.Marshal` makes of a string. -/
def text (s : GoString) : String := String.ofList (runesFrom 0 s)

theorem runesFrom_append (skipped bytes : GoString) :
    runesFrom skipped.length (skipped ++ bytes) = runesFrom 0 bytes := by
  induction skipped with
  | nil => rfl
  | cons byte skipped ih => exact ih

theorem runesFrom_encode (c : Char) (bytes : GoString) :
    runesFrom 0 (String.utf8EncodeChar c ++ bytes) = c :: runesFrom 0 bytes := by
  have hlength := String.length_utf8EncodeChar c
  have hdecode : (String.utf8EncodeChar c ++ bytes).toByteArray.utf8DecodeChar? 0 = some c := by
    rw [List.toByteArray_append]
    exact ByteArray.utf8DecodeChar?_utf8EncodeChar_append
  cases hencode : String.utf8EncodeChar c with
  | nil =>
    rw [hencode] at hlength
    exact absurd hlength c.utf8Size_pos.ne
  | cons byte rest =>
    rw [hencode, List.cons_append] at hdecode
    rw [hencode, List.length_cons] at hlength
    have hskip : c.utf8Size - 1 = rest.length := by omega
    rw [List.cons_append, runesFrom, hdecode]
    change c :: runesFrom (c.utf8Size - 1) (rest ++ bytes) = _
    rw [hskip, runesFrom_append]

/-- Text in UTF-8 comes through unchanged. -/
@[simp] theorem text_ofString (s : String) : text (ofString s) = s := by
  have hrunes : ∀ chars : List Char, runesFrom 0 (chars.flatMap String.utf8EncodeChar) = chars := by
    intro chars
    induction chars with
    | nil => rfl
    | cons c chars ih => rw [List.flatMap_cons, runesFrom_encode, ih]
  rw [text, ofString_eq_flatMap, hrunes, String.ofList_toList]

end Utf8

end BuenzliCoin
