import ScriptC.Text.Utf16
import ScriptC.Token.Fault

/-!
The value of a string or of a stretch of a template: the 16-bit units that its characters and
escapes stand for.
-/

namespace ScriptC.Token

def hexNumber? (digits : List Char) : Option Nat :=
  digits.foldl (fun n c => do return 16 * (← n) + (← Text.hexValue? c)) (some 0)

def unitsOfCode (n : Nat) : List UInt16 :=
  if n < 0x10000 then [n.toUInt16] else Text.unitsOf (Char.ofNat n)

structure Escape where
  units : List UInt16
  rest : List Char
  overcounted : Bool := false

def fixedEscape (letter : Char) (size : Nat) (rest : List Char) : Except EscapeFault Escape :=
  if (Text.encode rest).length < size then .error (.short letter (String.ofList rest) size)
  else
    match hexNumber? (rest.take size) with
    | some n => .ok ⟨unitsOfCode n, rest.drop size, false⟩
    | none => .error (.digits letter ((Text.encode rest).take size))

def lastCodePoint : Nat := 0x10FFFF

/-- Read a code point in braces, behind the opening brace. `before` are the digits read so far, the
last one first. -/
def bracedEscape (letter : Char) (all : List Char) (value : Nat) (before : List Char) :
    List Char → Except EscapeFault Escape
  | [] => .error (.unterminated (String.ofList all))
  | c :: rest =>
    if c == '\x7d' then
      if before.isEmpty then .error (.empty letter)
      else .ok ⟨unitsOfCode value, rest, value == lastCodePoint⟩
    else
      match Text.hexValue? c with
      | none => .error (.digits letter (Text.encode before.reverse ++ (Text.encode [c]).take 1))
      | some d =>
        if 16 * value + d > lastCodePoint then
          .error (.codePoint (String.ofList (c :: before).reverse))
        else bracedEscape letter all (16 * value + d) (c :: before) rest

def isOctal (c : Char) : Bool := '0' ≤ c && c ≤ '7'

def octalEscape (digits : List Char) : Escape :=
  let taken := (digits.take 3).takeWhile isOctal
  { units := unitsOfCode (taken.foldl (fun n c => 8 * n + (c.toNat - '0'.toNat)) 0)
    rest := digits.drop taken.length }

def readEscape (strict : Bool) : List Char → Except EscapeFault Escape
  | [] => .ok { units := [], rest := [] }
  | c :: rest =>
    match c with
    | 'b' => .ok { units := [8], rest }
    | 'f' => .ok { units := [12], rest }
    | 'n' => .ok { units := [10], rest }
    | 'r' => .ok { units := [13], rest }
    | 't' => .ok { units := [9], rest }
    | 'v' => .ok { units := [11], rest }
    | 'x' => fixedEscape c 2 rest
    | 'u' =>
      match rest with
      | '\x7b' :: digits => bracedEscape c digits 0 [] digits
      | _ => fixedEscape c 4 rest
    | '\n' | '\u2028' | '\u2029' => .ok { units := [], rest }
    | '\r' =>
      match rest with
      | '\n' :: after => .ok { units := [], rest := after }
      | _ => .ok { units := [], rest }
    | _ =>
      if c == '0' && !rest.head?.any isOctal then .ok { units := [0], rest }
      else if isOctal c then if strict then .error .octal else .ok (octalEscape (c :: rest))
      else .ok { units := Text.unitsOf c, rest }

/-- The units of a text with escapes, and whether one of the escapes is overcounted. The first
argument bounds the number of steps. -/
def unescape (strict : Bool) : Nat → List Char → Except EscapeFault (List UInt16 × Bool)
  | 0, _ | _, [] => .ok ([], false)
  | fuel + 1, '\\' :: rest => do
    let e ← readEscape strict rest
    let (units, overcounted) ← unescape strict fuel e.rest
    return (e.units ++ units, e.overcounted || overcounted)
  | fuel + 1, c :: rest => do
    let (units, overcounted) ← unescape strict fuel rest
    return (Text.unitsOf c ++ units, overcounted)

def textValue (strict : Bool) (text : List Char) : Except LiteralFault String :=
  match unescape strict text.length text with
  | .error f => .error (.escape f)
  | .ok (_, true) => .error (.miscount ⟨String.ofList text⟩)
  | .ok (units, false) => .ok (String.ofList (Text.ofUnits units))

end ScriptC.Token
