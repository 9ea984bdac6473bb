/-!
64-bit floating-point numbers, kept as their bits. A finite one is a whole number times a power of
two; `Double.ofRatio` goes the other way and rounds a quotient to the nearest number.
-/

namespace ScriptC

structure Double where
  bits : UInt64
  deriving DecidableEq, Repr, Inhabited

namespace Double

def maxField : Nat := 2047

def leadingBit : Nat := 0x10000000000000

def raise (base : Nat) (e : Int) : Nat := Nat.pow base e.toNat

def isNegative (x : Double) : Bool :=
  x.bits >>> 63 == 1

def field (x : Double) : Nat :=
  x.bits.toNat / leadingBit % 2048

def fraction (x : Double) : Nat :=
  x.bits.toNat % leadingBit

def isNaN (x : Double) : Bool :=
  x.field == maxField && x.fraction != 0

def isInfinite (x : Double) : Bool :=
  x.field == maxField && x.fraction == 0

def isZero (x : Double) : Bool :=
  x.field == 0 && x.fraction == 0

def withSign (negative : Bool) (x : Double) : Double :=
  ⟨if negative then x.bits ||| 0x8000000000000000 else x.bits &&& 0x7FFFFFFFFFFFFFFF⟩

def mantissa (x : Double) : Nat :=
  if x.field == 0 then x.fraction else leadingBit + x.fraction

def exponent (x : Double) : Int :=
  if x.field == 0 then -1074 else (x.field : Int) - 1075

def nan : Double := ⟨0x7FF8000000000000⟩

def infinity : Double := ⟨0x7FF0000000000000⟩

def zero : Double := ⟨0⟩

def pack (m : Nat) (q : Int) : Double :=
  if m < leadingBit then ⟨m.toUInt64⟩
  else
    let f := (q + 1075).toNat
    if f ≥ maxField then infinity else ⟨(f * leadingBit + (m - leadingBit)).toUInt64⟩

def roundDiv (num den : Nat) : Nat :=
  let low := num / den
  let twice := 2 * (num % den)
  if twice > den || (twice == den && low % 2 == 1) then low + 1 else low

def ratioExponent (num den : Nat) : Int :=
  let q : Int := (num.log2 : Int) - den.log2 - 52
  let small := num * raise 2 (-q) < den * raise 2 q * leadingBit
  max (if small then q - 1 else q) (-1074)

def ofRatio (num den : Nat) : Double :=
  if num == 0 || den == 0 then zero
  else
    let q := ratioExponent num den
    let m := roundDiv (num * raise 2 (-q)) (den * raise 2 q)
    if m == 2 * leadingBit then pack leadingBit (q + 1) else pack m q

def ofDecimal (m : Nat) (e : Int) : Double :=
  let magnitude : Int := (m.log2 : Int) * 3 / 10 + e
  if m == 0 || magnitude < -400 then zero
  else if magnitude > 400 then infinity
  else ofRatio (m * raise 10 e) (raise 10 (-e))

def ofInt (n : Int) : Double :=
  withSign (n < 0) (ofRatio n.natAbs 1)

def wholePart (x : Double) : Nat :=
  x.mantissa * raise 2 x.exponent / raise 2 (-x.exponent)

def toFloat (x : Double) : Float :=
  Float.ofBits x.bits

def ofFloat (x : Float) : Double :=
  if x.isNaN then nan else ⟨x.toBits⟩

end Double
end ScriptC
