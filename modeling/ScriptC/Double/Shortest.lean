import ScriptC.Double.Basic

/-!
The fewest decimal digits that read back as a number. The reals that round to `m * 2 ^ q` lie
between its halfway points to the neighbours; for one digit, two digits and so on, the two decimals
next to the number are tried until one of them lies there.
-/

namespace ScriptC.Double

/-- Digits `d₁ d₂ …` and the place of the point: the number is `0.d₁d₂… * 10 ^ point`. -/
structure Decimal where
  digits : List Char
  point : Int
  deriving DecidableEq, Repr

/--
A positive number `m * 2 ^ q` on the decimal grid `10 ^ g`: the number is `m * num / den` steps.
-/
structure Grid where
  m : Nat
  narrow : Bool
  num : Nat
  den : Nat

def onGrid (x : Double) (g : Int) : Grid where
  m := x.mantissa
  narrow := x.fraction == 0 && x.field > 1
  num := raise 2 x.exponent * raise 10 (-g)
  den := raise 2 (-x.exponent) * raise 10 g

def Grid.readsBack (grid : Grid) (steps : Nat) : Bool :=
  let low := (4 * grid.m - if grid.narrow then 1 else 2) * grid.num
  let high := (4 * grid.m + 2) * grid.num
  let at4 := 4 * steps * grid.den
  if grid.m % 2 == 0 then low ≤ at4 && at4 ≤ high else low < at4 && at4 < high

def Grid.select? (grid : Grid) : Option Nat :=
  let value := grid.m * grid.num
  let below := value / grid.den
  let nearer :=
    match compare (2 * (value % grid.den)) grid.den with
    | .lt => below
    | .gt => below + 1
    | .eq => if below % 2 == 0 then below else below + 1
  let farther := if nearer == below then below + 1 else below
  [nearer, farther].find? grid.readsBack

def belowPower (x : Double) (k : Int) : Bool :=
  x.mantissa * raise 2 x.exponent * raise 10 (-k) < raise 10 k * raise 2 (-x.exponent)

def decimalScale (x : Double) : Int :=
  let guess := ((x.mantissa.log2 : Int) + x.exponent) * 30103 / 100000
  if belowPower x guess then guess
  else if belowPower x (guess + 1) then guess + 1
  else guess + 2

def stripZeros (digits : List Char) : List Char :=
  (digits.reverse.dropWhile (· == '0')).reverse

def Decimal.ofSteps (steps : Nat) (g : Int) : Decimal :=
  let digits := Nat.toDigits 10 steps
  ⟨stripZeros digits, g + digits.length⟩

def shortest (x : Double) : Decimal :=
  let k := decimalScale x
  let attempt (n : Nat) : Option Decimal :=
    (onGrid x (k - n)).select?.map (Decimal.ofSteps · (k - n))
  match (List.range' 1 17).findSome? attempt with
  | some d => d
  | none =>
    -- the exact value, which always reads back
    let g := min x.exponent 0
    Decimal.ofSteps (x.mantissa * raise 2 (x.exponent - g) * raise 5 (-g)) g

end ScriptC.Double
