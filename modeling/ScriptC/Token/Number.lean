import ScriptC.Node.Basic
import ScriptC.Text.Hex
import ScriptC.Text.Letter
import ScriptC.Token.Cursor

/-!
Number literals: how far they reach, and what they stand for.
-/

namespace ScriptC.Token

def isDigitIn (base : Nat) (c : Char) : Bool :=
  (Text.hexValue? c).any (· < base)

/-- Move over digits. With `separated`, underscores may stand before a digit; the offset behind the
first one that does not is returned too. -/
def skipDigits (base : Nat) (separated : Bool) (c : Cursor) : Cursor × Option Nat :=
  go c.rest c.offset none
where
  go : List (Option Char) → Nat → Option Nat → Cursor × Option Nat
    | [], offset, fault => (⟨[], offset⟩, fault)
    | x :: rest, offset, fault =>
      if x.any (isDigitIn base) then go rest (offset + 1) fault
      else if separated && x == some '_' then
        let misplaced := !rest.head?.join.any (isDigitIn base)
        go rest (offset + 1) (fault <|> if misplaced then some (offset + 1) else none)
      else (⟨x :: rest, offset⟩, fault)

structure NumberScan where
  stop : Cursor
  wellFormed : Bool := true
  separator : Option Nat := none

def clings (c : Char) : Bool :=
  c == '\\' || Text.isNameStart c || c.isDigit

/-- The end of a number literal: the letter of big integers, or else nothing that clings to it. The
letter is taken in both cases, though as a capital it has no value. -/
def finishNumber (c : Cursor) (fault : Option Nat) : NumberScan :=
  if c.has 'n' || c.has 'N' then ⟨c.next, true, fault⟩
  else ⟨c, !c.test clings, fault⟩

def scanExponent (c : Cursor) (fault : Option Nat) : NumberScan :=
  if c.has 'e' || c.has 'E' then
    let c := c.next
    let c := if c.has '-' || c.has '+' then c.next else c
    if c.test Char.isDigit then
      let (c, f) := skipDigits 10 true c
      finishNumber c (fault <|> f)
    else ⟨c, false, fault⟩
  else finishNumber c fault

def scanFraction (c : Cursor) (fault : Option Nat) : NumberScan :=
  if c.has '.' then
    let (c, f) := skipDigits 10 true c.next
    scanExponent c (fault <|> f)
  else scanExponent c fault

def baseOf? : Char → Option Nat
  | 'x' | 'X' => some 16
  | 'o' | 'O' => some 8
  | 'b' | 'B' => some 2
  | _ => none

def scanNumber (c : Cursor) : NumberScan :=
  if c.has '.' then scanFraction c none
  else if c.has '0' then
    let c := c.next
    match c.char?.bind baseOf? with
    | some base =>
      if c.next.test (isDigitIn base) then
        let (c, fault) := skipDigits base true c.next
        finishNumber c fault
      else ⟨c.next, false, none⟩
    | none =>
      if c.test fun x => x == '.' || x == 'e' || x == 'E' then scanFraction c none
      else finishNumber (skipDigits 8 false c).1 none
  else
    let (c, fault) := skipDigits 10 true c
    scanFraction c fault

def natIn? (base : Nat) (digits : List Char) : Option Nat :=
  if digits.isEmpty then none
  else digits.foldl (fun n c => do
    let d ← Text.hexValue? c
    if d < base then return base * (← n) + d else none) (some 0)

/-- The whole number of a literal without separators, in the base that its start announces. A zero
before other digits announces octal digits. -/
def wholeNumber? (digits : List Char) : Option Nat :=
  match digits with
  | ['0'] => some 0
  | '0' :: l :: rest =>
    match baseOf? l with
    | some base => natIn? base rest
    | none => natIn? 8 (l :: rest)
  | _ => natIn? 10 digits

def decimalNumber? (text : List Char) : Option Double :=
  let whole := text.takeWhile Char.isDigit
  let rest := text.drop whole.length
  let (fraction, rest) := match rest with
    | '.' :: after => (after.takeWhile Char.isDigit, after.dropWhile Char.isDigit)
    | _ => ([], rest)
  let digits := whole ++ fraction
  let scaled (e : Int) : Option Double := do
    return Double.ofDecimal (← natIn? 10 digits) (e - fraction.length)
  match rest with
  | [] => scaled 0
  | e :: '-' :: exponent =>
    if e == 'e' || e == 'E' then do scaled (-(← natIn? 10 exponent : Nat)) else none
  | e :: '+' :: exponent =>
    if e == 'e' || e == 'E' then do scaled (← natIn? 10 exponent : Nat) else none
  | e :: exponent => if e == 'e' || e == 'E' then do scaled (← natIn? 10 exponent : Nat) else none

def roundedHex (digits : List Char) : Double :=
  digits.foldl (fun x c =>
    if x.isInfinite then x
    else Double.ofRatio (16 * x.wholePart + (Text.hexValue? c).getD 0) 1) Double.zero

/-- What a number literal stands for. Whole numbers of at most 63 bits are read in the base that
they announce, larger ones as decimals; of those in another base only hexadecimal ones may be
larger. -/
def numberValue? (text : String) : Option Literal :=
  let cs := text.toList.filter (· != '_')
  if cs.getLast? == some 'n' then
    let digits := cs.dropLast
    let octal := match digits with
      | '0' :: d :: _ => d.isDigit
      | _ => false
    if octal then none else (wholeNumber? digits).map fun n => .bigint (toString n)
  else
    match wholeNumber? cs with
    | some n =>
      if n < 0x8000000000000000 then some (.number (Double.ofInt n))
      else
        match cs with
        | '0' :: 'x' :: digits | '0' :: 'X' :: digits => some (.number (roundedHex digits))
        | _ => (decimalNumber? cs).map .number
    | none => (decimalNumber? cs).map .number

end ScriptC.Token
