-- SUMMARY: Plain text as block data.
import BuenzliCoin.Chain.Codec

namespace BuenzliCoin

structure Text where
  text : String
  deriving DecidableEq, Repr

namespace Text

def toJson (t : Text) : Json := .string t.text

def fromJson (j : Json) : Except Error Text := do
  return ⟨← j.getString⟩

instance : BlockData Text where
  valid _ _ := .ok ()
  toJson := toJson
  fromJson := fromJson

instance : StoredData Text where
  stored := id
  fromJson_toJson _ := rfl
  toJson_stored _ := rfl

@[simp] theorem stored_eq (t : Text) : StoredData.stored t = t := rfl

@[simp] theorem stored_block (b : Block Text) : b.stored = b := rfl

end Text

end BuenzliCoin
