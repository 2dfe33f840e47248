-- SUMMARY: Exceptions, and digests with their hexadecimal text.
import Mathlib.Data.List.Basic
import Mathlib.Data.UInt
import Mathlib.Tactic.IntervalCases

/-!
# Digests

The byte vectors that hashes and signatures are kept in, their text form, and
the count of leading zero bits that the proof of work is measured by.
-/

namespace BuenzliCoin

/-- What a function of the program leaves by other than returning. `undefined` and
    `crash` are no exceptions, and no `catch` of the program stops them: the first
    marks a lookup whose behaviour the library leaves open, the second a step at
    which the program is stopped, or on whose outcome nothing can be said. -/
inductive Error where
  | undefined (what : String)
  | crash
  | exception (what : String)
  | http (status : Nat) (what : String)
  | webSocket (what : String)
  deriving DecidableEq, Repr

/-- `e.what()`. -/
def Error.what : Error → String
  | .undefined what | .exception what | .http _ what | .webSocket what => what
  | .crash => ""

/-- `try { x } catch (std::exception const &e) { throw wrap(e.what()); }` -/
def Error.rethrow (wrap : String → Error) : Except Error α → Except Error α
  | .ok a => .ok a
  | .error (.undefined what) => .error (.undefined what)
  | .error .crash => .error .crash
  | .error e => .error (wrap e.what)

@[simp] theorem Error.rethrow_ok (wrap : String → Error) (a : α) :
    Error.rethrow wrap (.ok a) = .ok a := rfl

theorem Error.rethrow_eq_ok {wrap : String → Error} {x : Except Error α} {a : α} :
    Error.rethrow wrap x = .ok a ↔ x = .ok a := by
  cases x with
  | ok b => simp
  | error e => cases e <;> simp [Error.rethrow]

/-- An error stays an error. -/
theorem Error.exists_rethrow_eq_error (wrap : String → Error) (e : Error) :
    ∃ e', Error.rethrow wrap (.error e : Except Error α) = .error e' := by
  cases e <;> exact ⟨_, rfl⟩

structure Digest where
  vec : List UInt8
  deriving DecidableEq, Repr

namespace Digest

/-! ## Leading zero bits -/

/-- The values `mask` takes in the inner loop. -/
def masks : List UInt8 := [0x80, 0x40, 0x20, 0x10, 0x08, 0x04, 0x02, 0x01]

/-- The inner loop: the count so far, and whether the function has returned. -/
def scanByte (byte : UInt8) : List UInt8 → Nat → Nat × Bool
  | [], count => (count, false)
  | mask :: masks, count =>
    if byte &&& mask = 0x00 then scanByte byte masks (count + 1) else (count, true)

/-- The outer loop. -/
def zeroPrefixLoop : List UInt8 → Nat → Nat
  | [], count => count
  | byte :: bytes, count =>
    match scanByte byte masks count with
    | (count, true) => count
    | (count, false) => zeroPrefixLoop bytes count

def zeroPrefixLength (d : Digest) : Nat :=
  zeroPrefixLoop d.vec 0

/-- A digest with `n` leading zero bits and a one after them. -/
def withZeroPrefix (n : Nat) : Digest :=
  ⟨List.replicate (n / 8) 0x00 ++ [masks.getD (n % 8) 0x01]⟩

private theorem zeroPrefixLoop_replicate (k : Nat) (bytes : List UInt8) (count : Nat) :
    zeroPrefixLoop (List.replicate k 0x00 ++ bytes) count =
      zeroPrefixLoop bytes (count + 8 * k) := by
  induction k generalizing count with
  | zero => rfl
  | succ k ih =>
    have hzero : scanByte 0x00 masks count = (count + 8, false) := by simp [scanByte, masks]
    simp only [List.replicate_succ, List.cons_append, zeroPrefixLoop, hzero, ih]
    congr 1
    omega

private theorem zeroPrefixLoop_mask (r count : Nat) (hr : r < 8) :
    zeroPrefixLoop [masks.getD r 0x01] count = count + r := by
  interval_cases r <;> rfl

/-- Every count of leading zero bits is that of some digest. -/
theorem zeroPrefixLength_withZeroPrefix (n : Nat) : (withZeroPrefix n).zeroPrefixLength = n := by
  simp only [zeroPrefixLength, withZeroPrefix]
  rw [zeroPrefixLoop_replicate, zeroPrefixLoop_mask _ _ (Nat.mod_lt _ (by decide))]
  omega

/-! ## Text -/

/-- One digit of `std::hex`. -/
def nibbleToChar (n : UInt8) : Char :=
  Char.ofNat (if n < 10 then 48 + n.toNat else 87 + n.toNat)

def toString (d : Digest) : String :=
  String.ofList (d.vec.flatMap fun byte : UInt8 =>
    [nibbleToChar (byte >>> 4), nibbleToChar (byte &&& 0x0f)])

def charToNibble (c : UInt8) : Except Error UInt8 :=
  if 48 ≤ c ∧ c ≤ 57 then .ok (c - 48)
  else if 97 ≤ c ∧ c ≤ 102 then .ok (c - 97 + 10)
  else if 65 ≤ c ∧ c ≤ 70 then .ok (c - 65 + 10)
  else .error (.exception "invalid digest string")

/-- The loop over pairs of characters. An odd character at the end is not read. -/
def fromChars : List UInt8 → Except Error (List UInt8)
  | hi :: lo :: rest => do
    let hi ← charToNibble hi
    let lo ← charToNibble lo
    let vec ← fromChars rest
    return ((hi <<< 4) ||| lo) :: vec
  | _ => .ok []

def fromString (str : String) : Except Error Digest := do
  let vec ← fromChars str.toUTF8.data.toList
  return ⟨vec⟩

/-- The bytes of a text of ASCII characters are their codes. -/
private theorem toUTF8_ofList_ascii {chars : List Char} (h : ∀ c ∈ chars, c.toNat ≤ 0x7f) :
    (String.ofList chars).toUTF8.data.toList = chars.map (fun c => UInt8.ofNat c.toNat) := by
  rw [String.toUTF8_eq_toByteArray, String.toByteArray_ofList, List.utf8Encode,
    List.toList_data_toByteArray]
  induction chars with
  | nil => rfl
  | cons c chars ih =>
    have hc : c.val.toNat ≤ 0x7f := h c (List.mem_cons_self ..)
    rw [List.flatMap_cons, ih (fun d hd => h d (List.mem_cons_of_mem _ hd)), List.map_cons,
      String.utf8EncodeChar, if_pos hc]
    rfl

/-- What one byte goes through: both its digits are ASCII, they are read back
    as the two nibbles, and the nibbles make up the byte. -/
private theorem nibbles_spec (byte : UInt8) :
    (nibbleToChar (byte >>> 4)).toNat ≤ 0x7f ∧ (nibbleToChar (byte &&& 0x0f)).toNat ≤ 0x7f ∧
    charToNibble (UInt8.ofNat (nibbleToChar (byte >>> 4)).toNat) = .ok (byte >>> 4) ∧
    charToNibble (UInt8.ofNat (nibbleToChar (byte &&& 0x0f)).toNat) = .ok (byte &&& 0x0f) ∧
    ((byte >>> 4) <<< 4) ||| (byte &&& 0x0f) = byte := by
  have hall : ∀ n : Fin 256,
      let byte := UInt8.ofFin n
      (nibbleToChar (byte >>> 4)).toNat ≤ 0x7f ∧ (nibbleToChar (byte &&& 0x0f)).toNat ≤ 0x7f ∧
      (charToNibble (UInt8.ofNat (nibbleToChar (byte >>> 4)).toNat)).toOption = some (byte >>> 4) ∧
      (charToNibble (UInt8.ofNat (nibbleToChar (byte &&& 0x0f)).toNat)).toOption
        = some (byte &&& 0x0f) ∧
      ((byte >>> 4) <<< 4) ||| (byte &&& 0x0f) = byte := by decide +kernel
  have hok : ∀ {x : Except Error UInt8} {n : UInt8}, x.toOption = some n → x = .ok n := by
    intro x n h
    cases x with
    | ok m => simpa [Except.toOption] using h
    | error e => simp [Except.toOption] at h
  obtain ⟨hhi, hlo, hreadHi, hreadLo, hjoin⟩ := hall byte.toFin
  exact ⟨hhi, hlo, hok hreadHi, hok hreadLo, hjoin⟩

/-- A digest is read back from its text. -/
@[simp] theorem fromString_toString (d : Digest) : fromString d.toString = .ok d := by
  have hascii : ∀ c ∈ d.vec.flatMap (fun byte : UInt8 =>
      [nibbleToChar (byte >>> 4), nibbleToChar (byte &&& 0x0f)]), c.toNat ≤ 0x7f := by
    intro c hc
    obtain ⟨byte, -, hc⟩ := List.mem_flatMap.mp hc
    obtain ⟨hhi, hlo, -⟩ := nibbles_spec byte
    rcases List.mem_cons.mp hc with rfl | hc
    · exact hhi
    · rw [List.mem_singleton.mp hc]
      exact hlo
  have hchars : ∀ vec : List UInt8, fromChars ((vec.flatMap fun byte : UInt8 =>
      [nibbleToChar (byte >>> 4), nibbleToChar (byte &&& 0x0f)]).map
        (fun c => UInt8.ofNat c.toNat)) = .ok vec := by
    intro vec
    induction vec with
    | nil => rfl
    | cons byte vec ih =>
      obtain ⟨-, -, hreadHi, hreadLo, hjoin⟩ := nibbles_spec byte
      simp only [List.flatMap_cons, List.map_cons, List.cons_append, List.nil_append, fromChars,
        ih, hreadHi, hreadLo]
      simp only [bind, Except.bind, pure, Except.pure, hjoin]
  rw [fromString, toString, toUTF8_ofList_ascii hascii, hchars]
  rfl

theorem toString_injective : Function.Injective toString := by
  intro d d' h
  have hread : Except.ok d = Except.ok (ε := Error) d' := by
    rw [← fromString_toString d, h, fromString_toString]
  exact Except.ok.inj hread

end Digest

end BuenzliCoin
