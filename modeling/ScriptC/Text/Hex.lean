/-!
Numbers in base sixteen.
-/

namespace ScriptC.Text

def hexDigit (upper : Bool) (n : Nat) : Char :=
  if n < 10 then Char.ofNat ('0'.toNat + n)
  else Char.ofNat ((if upper then 'A' else 'a').toNat + (n - 10))

def hexDigits.go (upper : Bool) : Nat → Nat → Nat → List Char
  | 0, _, _ => []
  | fuel + 1, width, n =>
    if n == 0 && width == 0 then []
    else hexDigit upper (n % 16) :: go upper fuel (width - 1) (n / 16)

def hexDigits (upper : Bool) (width n : Nat) : List Char :=
  (hexDigits.go upper (n.log2 + width + 1) (max width 1) n).reverse

def upperHex (width n : Nat) : String :=
  String.ofList (hexDigits true width n)

def lowerHex (width n : Nat) : String :=
  String.ofList (hexDigits false width n)

def hexValue? (c : Char) : Option Nat :=
  if '0' ≤ c && c ≤ '9' then some (c.toNat - '0'.toNat)
  else if 'a' ≤ c && c ≤ 'f' then some (c.toNat - 'a'.toNat + 10)
  else if 'A' ≤ c && c ≤ 'F' then some (c.toNat - 'A'.toNat + 10)
  else none

end ScriptC.Text
