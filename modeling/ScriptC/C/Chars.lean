import ScriptC.Text.Hex
import ScriptC.Text.Utf16

/-!
C string literals of 16-bit units. A hexadecimal escape takes every digit after it, so a digit that
follows one starts a new literal; question marks are escaped so that no trigraph arises.
-/

namespace ScriptC.C

def isHexUnit (u : UInt16) : Bool :=
  (0x30 ≤ u && u ≤ 0x39) || (0x61 ≤ u && u ≤ 0x66) || (0x41 ≤ u && u ≤ 0x46)

def unitText (u : UInt16) : List Char × Bool :=
  if u == 0x22 then (['\\', '"'], false)
  else if u == 0x5C then (['\\', '\\'], false)
  else if u == 0x0A then (['\\', 'n'], false)
  else if u == 0x09 then (['\\', 't'], false)
  else if u == 0x3F then (['\\', '?'], false)
  else if 0x20 ≤ u && u < 0x7F then ([Char.ofNat u.toNat], false)
  else ('\\' :: 'x' :: Text.hexDigits true 4 u.toNat, true)

def unitsText : Bool → List UInt16 → List Char
  | _, [] => []
  | escaped, u :: rest =>
    let (text, escape) := unitText u
    (if escaped && isHexUnit u then ['"', ' ', 'u', '"'] else []) ++ text ++ unitsText escape rest

def charsText (s : String) : String × Nat :=
  let us := Text.units s.toList
  (String.ofList ('u' :: '"' :: unitsText false us ++ ['"']), us.length)

end ScriptC.C
