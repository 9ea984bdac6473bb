import ScriptC.Text.Utf16

/-!
Byte order marks. A mark at the front of a script selects its encoding and is removed; without one
the bytes are taken as UTF-8. The decoder itself is a component that can be exchanged: reading a
script only hands on its text, or its fault.
-/

namespace ScriptC.Text

inductive ByteOrder where
  | little
  | big
  deriving DecidableEq, Repr

def ByteOrder.unit : ByteOrder → UInt8 → UInt8 → UInt16
  | .little, a, b => a.toUInt16 + 256 * b.toUInt16
  | .big, a, b => 256 * a.toUInt16 + b.toUInt16

def ByteOrder.units (order : ByteOrder) : List UInt8 → List UInt16 × Bool
  | [] => ([], false)
  | [_] => ([], true)
  | a :: b :: rest =>
    let (us, odd) := order.units rest
    (order.unit a b :: us, odd)

/--
Read the units of a file as text. A surrogate followed by a second half is read together with it;
whatever is no proper pair is replaced.
-/
def ofFileUnits : List UInt16 → List Char
  | [] => []
  | [a] => [single a]
  | a :: b :: rest =>
    if isSurrogate a && isLowSurrogate b then
      (if isLowSurrogate a then replacement else pairOf a b) :: ofFileUnits rest
    else single a :: ofFileUnits (b :: rest)

def ByteOrder.decode (order : ByteOrder) (bytes : List UInt8) : List Char :=
  let (us, odd) := order.units bytes
  ofFileUnits us ++ if odd then [replacement] else []

def decodeScript : List UInt8 → List UInt8
  | 0xEF :: 0xBB :: 0xBF :: rest => rest
  | 0xFF :: 0xFE :: rest => encode (ByteOrder.little.decode rest)
  | 0xFE :: 0xFF :: rest => encode (ByteOrder.big.decode rest)
  | bytes => encode (repair bytes)

structure Transformed where
  text : List UInt8
  consumed : Nat
  fault : Option String

abbrev Decoder := List UInt8 → Transformed

def decodeWith (decoder : Decoder) (raw : List UInt8) : Except String (List UInt8) :=
  match (decoder raw).fault with
  | some fault => .error fault
  | none => .ok (decoder raw).text

def Decoder.standard : Decoder := fun raw => ⟨decodeScript raw, raw.length, none⟩

end ScriptC.Text
