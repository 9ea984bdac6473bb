import ScriptC.Double.Shortest

/-!
How numbers are written. Property names follow the language's own rule; C constants and outlines
write the same digits with an exponent as soon as the number has more than six whole digits.
-/

namespace ScriptC.Double

private def zeros (n : Nat) : List Char := List.replicate n '0'

def Decimal.positional (d : Decimal) : List Char :=
  let k := d.digits.length
  if (k : Int) ≤ d.point then d.digits ++ zeros (d.point.toNat - k)
  else if 0 < d.point then
    d.digits.take d.point.toNat ++ '.' :: d.digits.drop d.point.toNat
  else '0' :: '.' :: zeros (-d.point).toNat ++ d.digits

def Decimal.scientific (width : Nat) (d : Decimal) : List Char :=
  let e := d.point - 1
  let exponent := Nat.toDigits 10 e.natAbs
  let fraction := d.digits.drop 1
  d.digits.take 1 ++ (if fraction.isEmpty then [] else '.' :: fraction) ++
    'e' :: (if e < 0 then '-' else '+') :: zeros (width - exponent.length) ++ exponent

/--
The property name that a number denotes: plain up to 21 whole digits and down to six zeros after the
point, otherwise with an exponent. Both zeros are `0`.
-/
def propertyName (x : Double) : String :=
  if x.isNaN then "NaN"
  else if x.isZero then "0"
  else
    let size :=
      if x.isInfinite then "Infinity"
      else
        let d := shortest x
        String.ofList <|
          if -6 < d.point && d.point ≤ 21 then d.positional else d.scientific 1
    if x.isNegative then "-" ++ size else size

def generalSize (x : Double) : String :=
  if x.isZero then "0"
  else
    let d := shortest x
    String.ofList <| if -4 < d.point && d.point ≤ 6 then d.positional else d.scientific 2

def general (x : Double) : String :=
  if x.isNaN then "NaN"
  else if x.isInfinite then if x.isNegative then "-Inf" else "+Inf"
  else if x.isNegative then "-" ++ generalSize x else generalSize x

def constant (x : Double) : String :=
  if x.isNaN then "NAN"
  else if x.isInfinite then if x.isNegative then "(-INFINITY)" else "INFINITY"
  else
    let text := generalSize x
    let text := if text.toList.any fun c => c == '.' || c == 'e' then text else text ++ ".0"
    if x.isNegative then "(-" ++ text ++ ")" else text

def tenths (x : Double) : String :=
  let n := roundDiv (x.mantissa * raise 2 x.exponent * 10) (raise 2 (-x.exponent))
  s!"{n / 10}.{n % 10}"

end ScriptC.Double
