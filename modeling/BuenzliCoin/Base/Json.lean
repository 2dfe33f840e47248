-- SUMMARY: JSON values as nlohmann::json keeps them: lookups, conversions, and the compact text.
import BuenzliCoin.Base.Env

namespace BuenzliCoin

/-- A parsed `nlohmann::json` value. A number is unsigned if it is written
    without a sign, point or exponent and fits, and `numberInteger` is the same
    with a minus sign. The members of an object are in the order of their keys,
    as `std::map` iterates them. -/
inductive Json where
  | null
  | boolean (b : Bool)
  | numberInteger (i : Int64)
  | numberUnsigned (n : UInt64)
  | numberFloat (x : ℚ)
  | string (s : String)
  | array (items : List Json)
  | object (members : List (String × Json))

namespace Json

/-- `type_name()` -/
def typeName : Json → String
  | null => "null"
  | boolean _ => "boolean"
  | numberInteger _ | numberUnsigned _ | numberFloat _ => "number"
  | string _ => "string"
  | array _ => "array"
  | object _ => "object"

/-- A `json::type_error`. -/
def typeError (id : Nat) (what : String) : Error :=
  .exception s!"[json.exception.type_error.{id}] {what}"

/-! ## Lookups -/

def find? : Json → String → Option Json
  | object members, key => members.lookup key
  | _, _ => none

@[simp] theorem find?_object (members : List (String × Json)) (key : String) :
    (object members).find? key = members.lookup key := rfl

/-- `j.contains(key)` and `j.count(key)`. -/
def contains (j : Json) (key : String) : Bool := (j.find? key).isSome

/-- `j[key]` on a constant value: a type error unless `j` is an object, and
    undefined if the object has no such key. -/
def atKey (j : Json) (key : String) : Except Error Json :=
  match j with
  | object members =>
    match members.lookup key with
    | some value => .ok value
    | none => .error (.undefined s!"operator[] on an object without key {key}")
  | j => .error (typeError 305 s!"cannot use operator[] with a string argument with {j.typeName}")

theorem atKey_eq_ok {j : Json} {key : String} {value : Json} :
    j.atKey key = .ok value ↔ j.find? key = some value := by
  cases j with
  | object members => cases h : members.lookup key <;> simp [atKey, h]
  | _ => simp [atKey, find?]

/-- `json_get(j, key)` -/
def get (j : Json) (key : String) : Except Error Json :=
  match j.find? key with
  | some value => .ok value
  | none => .error (.exception s!"nonexistent key: {key}")

/-- What a range-based `for` over the value visits: the elements of an array,
    the values of an object, nothing for null, and any other value itself. -/
def items : Json → List Json
  | null => []
  | array items => items
  | object members => members.map Prod.snd
  | j => [j]

@[simp] theorem items_array (js : List Json) : (array js).items = js := rfl

/-! ## Conversions -/

/-- `j.get<std::string>()` -/
def getString : Json → Except Error String
  | string s => .ok s
  | j => .error (typeError 302 s!"type must be string, but is {j.typeName}")

/-- `static_cast` of a double to an unsigned integer: truncation towards zero.
    Where the result does not fit, which C++ leaves undefined, it wraps around. -/
def truncate (x : ℚ) : UInt64 := UInt64.ofInt (if 0 ≤ x then ⌊x⌋ else ⌈x⌉)

/-- `j.get<uint64_t>()` and `j.get<std::size_t>()`. -/
def getUInt64 : Json → Except Error UInt64
  | numberUnsigned n => .ok n
  | numberInteger i => .ok i.toUInt64
  | numberFloat x => .ok (truncate x)
  | j => .error (typeError 302 s!"type must be number, but is {j.typeName}")

/-- `j.get<uint16_t>()`, which also takes a boolean. -/
def getUInt16 : Json → Except Error UInt16
  | numberUnsigned n => .ok n.toUInt16
  | numberInteger i => .ok i.toUInt64.toUInt16
  | numberFloat x => .ok (truncate x).toUInt16
  | boolean b => .ok (if b then 1 else 0)
  | j => .error (typeError 302 s!"type must be number, but is {j.typeName}")

/-! ## Text -/

/-- One character of a dumped string: only quotes, backslashes and control
    characters are escaped. -/
def escapeChar (c : Char) : List Char :=
  if c = '"' then ['\\', '"']
  else if c = '\\' then ['\\', '\\']
  else if c.toNat = 8 then ['\\', 'b']
  else if c.toNat = 9 then ['\\', 't']
  else if c.toNat = 10 then ['\\', 'n']
  else if c.toNat = 12 then ['\\', 'f']
  else if c.toNat = 13 then ['\\', 'r']
  else if c.toNat < 32 then
    ['\\', 'u', '0', '0', Digest.nibbleToChar (UInt8.ofNat (c.toNat / 16)),
      Digest.nibbleToChar (UInt8.ofNat (c.toNat % 16))]
  else [c]

def dumpString (s : String) : String :=
  String.ofList (['"'] ++ s.toList.flatMap escapeChar ++ ['"'])

variable [Env]

mutual
/-- `j.dump()`, which `operator<<` writes as well: no white space. -/
def dump : Json → String
  | null => "null"
  | boolean b => if b then "true" else "false"
  | numberInteger i => toString i
  | numberUnsigned n => toString n
  | numberFloat x => Env.dumpDouble x
  | string s => dumpString s
  | array items => "[" ++ dumpItems items ++ "]"
  | object members => "\x7b" ++ dumpMembers members ++ "\x7d"

def dumpItems : List Json → String
  | [] => ""
  | [j] => dump j
  | j :: js => dump j ++ "," ++ dumpItems js

def dumpMembers : List (String × Json) → String
  | [] => ""
  | [(key, j)] => dumpString key ++ ":" ++ dump j
  | (key, j) :: members => dumpString key ++ ":" ++ dump j ++ "," ++ dumpMembers members
end

end Json

end BuenzliCoin
