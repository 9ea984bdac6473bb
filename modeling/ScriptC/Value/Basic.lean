import ScriptC.Double.Basic

/-!
Values as the generated code holds them: 64 bits, of which the upper 16 tell what the rest is. Every
tag up to `maxNumberTag` belongs to a floating-point number.
-/

namespace ScriptC

structure Value where
  bits : UInt64
  deriving DecidableEq, Repr, Inhabited

namespace Value

def tagShift : Nat := 48

def maxNumberTag : UInt16 := 0xFFF8

def tagSpecial : UInt16 := 0xFFF9
def tagDeleted : UInt16 := 0xFFFA
def tagString : UInt16 := 0xFFFB
def tagObject : UInt16 := 0xFFFC
def tagBigInt : UInt16 := 0xFFFD
def tagSymbol : UInt16 := 0xFFFE

def tagFlagged : UInt16 := 0xFFFF

def payloadMask : UInt64 := 0xFFFFFFFFFFFF

def tagged (tag : UInt16) (payload : UInt64) : Value :=
  ⟨tag.toUInt64 <<< 48 ||| payload⟩

def undefined : Value := tagged tagSpecial 0
def null : Value := tagged tagSpecial 1
def false : Value := tagged tagSpecial 2
def true : Value := tagged tagSpecial 3

def deleted : Value := tagged tagDeleted 0

def number (x : Double) : Value :=
  ⟨if x.isNaN then Double.nan.bits else x.bits⟩

def bool (b : Bool) : Value :=
  if b then Value.true else Value.false

def object (id : UInt32) : Value :=
  tagged tagObject id.toUInt64

def tag (v : Value) : UInt16 :=
  (v.bits >>> 48).toUInt16

def isNumber (v : Value) : Bool :=
  v.tag ≤ maxNumberTag

def isObject (v : Value) : Bool :=
  v.tag == tagObject

def isFlagged (v : Value) : Bool :=
  v.tag == tagFlagged

def isNullish (v : Value) : Bool :=
  v == undefined || v == null

def double (v : Value) : Double :=
  ⟨v.bits⟩

def toNumber (v : Value) : Double :=
  if v.isNumber then v.double
  else if v == Value.true then Double.ofInt 1
  else if v == Value.false || v == null then Double.zero
  else Double.nan

def truthy (v : Value) : Bool :=
  if v.isNumber then !v.double.isZero && !v.double.isNaN
  else if v == Value.true then Bool.true
  else if v == Value.false || v == null || v == undefined then Bool.false
  else v.isObject

end Value
end ScriptC
