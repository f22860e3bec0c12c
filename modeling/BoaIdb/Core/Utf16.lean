import BoaIdb.Core.Types

/-!
Conversions between strings and sequences of UTF-16 code units.
-/

namespace BoaIdb.Utf16String

/-- The code units of one character. -/
def encodeChar (c : Char) : Utf16String :=
  if c.val < 0x10000 then [c.val.toUInt16]
  else
    let offset := c.val - 0x10000
    [(0xD800 + offset / 0x400).toUInt16, (0xDC00 + offset % 0x400).toUInt16]

/-- `From<&str>`. -/
def ofString (s : String) : Utf16String := s.toList.flatMap encodeChar

def isHigh (u : UInt16) : Bool := 0xD800 ≤ u && u < 0xDC00

def isLow (u : UInt16) : Bool := 0xDC00 ≤ u && u < 0xE000

/-- An unpaired surrogate becomes U+FFFD. -/
def decodeLossy : Utf16String → List Char
  | [] => []
  | [u] => [if isHigh u || isLow u then Char.ofNat 0xFFFD else Char.ofNat u.toNat]
  | u :: v :: rest =>
      if isHigh u && isLow v then
        Char.ofNat (0x10000 + (u.toNat - 0xD800) * 0x400 + (v.toNat - 0xDC00)) :: decodeLossy rest
      else if isHigh u || isLow u then Char.ofNat 0xFFFD :: decodeLossy (v :: rest)
      else Char.ofNat u.toNat :: decodeLossy (v :: rest)

/-- `Display`. -/
def toText (u : Utf16String) : String := String.ofList (decodeLossy u)

example : toText (ofString "a\u00e9𝄞") = "a\u00e9𝄞" := by decide

end BoaIdb.Utf16String
