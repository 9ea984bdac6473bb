import ScriptC.Text.Utf8

/-!
Text as 16-bit units. A character above the first plane takes a high and a low surrogate.
-/

namespace ScriptC.Text

def unitsOf (c : Char) : List UInt16 :=
  let n := c.toNat
  if n < 0x10000 then [n.toUInt16]
  else [(0xD800 + (n - 0x10000) / 0x400).toUInt16, (0xDC00 + (n - 0x10000) % 0x400).toUInt16]

def units (text : List Char) : List UInt16 :=
  text.flatMap unitsOf

def isSurrogate (u : UInt16) : Bool :=
  0xD800 ≤ u && u ≤ 0xDFFF

def isLowSurrogate (u : UInt16) : Bool :=
  0xDC00 ≤ u && u ≤ 0xDFFF

def pairOf (a b : UInt16) : Char :=
  Char.ofNat (0x10000 + (a.toNat - 0xD800) * 0x400 + (b.toNat - 0xDC00))

def single (u : UInt16) : Char :=
  if isSurrogate u then replacement else Char.ofNat u.toNat

def ofUnits : List UInt16 → List Char
  | [] => []
  | [a] => [single a]
  | a :: b :: rest =>
    if isSurrogate a && !isLowSurrogate a && isLowSurrogate b then pairOf a b :: ofUnits rest
    else single a :: ofUnits (b :: rest)

end ScriptC.Text
