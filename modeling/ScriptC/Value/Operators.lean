import ScriptC.Value.Basic

/-!
What the operators of the language yield, and what the generated code computes in place. An in-place
path is taken only where both operands are numbers; its second component tells.
-/

namespace ScriptC

inductive OperatorFault where
  | comparison (op : String)
  | arithmetic (op : String)
  deriving DecidableEq, Repr

def OperatorFault.message : OperatorFault → String
  | .comparison op => "abi: unknown comparison " ++ op
  | .arithmetic op => "abi: unknown operator " ++ op

namespace Double

def equals (x y : Double) : Bool :=
  x.toFloat == y.toFloat

def less (x y : Double) : Bool :=
  x.toFloat < y.toFloat

def lessEq (x y : Double) : Bool :=
  x.toFloat ≤ y.toFloat

def toUint32 (x : Double) : UInt32 :=
  if x.field == maxField then 0
  else
    let n := x.wholePart.toUInt32
    if x.isNegative then 0 - n else n

def toInt32 (x : Double) : Int32 :=
  x.toUint32.toInt32

def ofInt32 (n : Int32) : Double :=
  ofInt n.toInt

def remainder (x y : Double) : Double :=
  if x.isNaN || y.isNaN || x.isInfinite || y.isZero then nan
  else if y.isInfinite then x
  else
    let q := min x.exponent y.exponent
    let a := x.mantissa * raise 2 (x.exponent - q)
    let b := y.mantissa * raise 2 (y.exponent - q)
    withSign x.isNegative (ofRatio (a % b * raise 2 q) (raise 2 (-q)))

def power (x y : Double) : Double :=
  if y.isNaN || ((withSign false x).equals (ofInt 1) && y.isInfinite) then nan
  else ofFloat (x.toFloat.pow y.toFloat)

def shiftCount (y : Double) : UInt32 :=
  y.toUint32 &&& 31

def arith (op : String) (x y : Double) : Except OperatorFault Double :=
  match op with
  | "+" => .ok (ofFloat (x.toFloat + y.toFloat))
  | "-" => .ok (ofFloat (x.toFloat - y.toFloat))
  | "*" => .ok (ofFloat (x.toFloat * y.toFloat))
  | "/" => .ok (ofFloat (x.toFloat / y.toFloat))
  | "%" => .ok (remainder x y)
  | "**" => .ok (power x y)
  | "&" => .ok (ofInt32 (x.toInt32 &&& y.toInt32))
  | "|" => .ok (ofInt32 (x.toInt32 ||| y.toInt32))
  | "^" => .ok (ofInt32 (x.toInt32 ^^^ y.toInt32))
  | "<<" => .ok (ofInt32 (x.toUint32 <<< y.shiftCount).toInt32)
  | ">>" => .ok (ofInt32 (x.toInt32 >>> y.shiftCount.toInt32))
  | ">>>" => .ok (ofInt (x.toUint32 >>> y.shiftCount).toNat)
  | _ => .error (.arithmetic op)

def compare? (op : String) (x y : Double) : Option Bool :=
  match op with
  | "<" => some (x.less y)
  | "<=" => some (x.lessEq y)
  | ">" => some (y.less x)
  | ">=" => some (y.lessEq x)
  | _ => none

end Double

namespace Value

def strictEquals (a b : Value) : Bool :=
  if a.isNumber && b.isNumber then a.double.equals b.double else a == b

def looseEquals (a b : Value) : Bool :=
  if a.isNullish || b.isNullish then a.isNullish && b.isNullish
  else if a.isObject && b.isObject then a == b
  else if a.isObject || b.isObject then Bool.false
  else a.toNumber.equals b.toNumber

def compare (op : String) (a b : Value) : Except OperatorFault Bool :=
  match a.toNumber.compare? op b.toNumber with
  | some r => .ok r
  | none => .error (.comparison op)

def arith (op : String) (a b : Value) : Except OperatorFault Value :=
  number <$> a.toNumber.arith op b.toNumber

def arithInPlace (op : String) (a b : Value) : Except OperatorFault (Value × Bool) :=
  if a.isNumber && b.isNumber then (fun x => (number x, Bool.true)) <$> a.double.arith op b.double
  else .ok (⟨0⟩, Bool.false)

def compareInPlace (op : String) (a b : Value) : Bool × Bool :=
  if a.isNumber && b.isNumber then
    match a.double.compare? op b.double with
    | some r => (r, Bool.true)
    | none => (Bool.false, Bool.false)
  else (Bool.false, Bool.false)

def strictEqualsInPlace (a b : Value) : Bool × Bool :=
  if a.isNumber && b.isNumber then (a.double.equals b.double, Bool.true)
  else (Bool.false, Bool.false)

def sameBits (v special : Value) : Bool :=
  v == special

def incrementInPlace (v : Value) (delta : Double) : Value × Bool :=
  if v.isNumber then
    (number (Double.ofFloat (v.double.toFloat + delta.toFloat)), Bool.true)
  else (⟨0⟩, Bool.false)

end Value
end ScriptC
