import ScriptC.RegExp.Category
import ScriptC.RegExp.Fault
import ScriptC.Text.Hex
import ScriptC.Text.Letter

/-!
Checking the patterns of regular expressions outside the unicode modes. A pattern is read once from
left to right; a step takes what it reads off the front of the pattern and gives back the rest.
-/

namespace ScriptC.RegExp

def isWord (c : Char) : Bool :=
  c != '$' && Text.isNamePart c

def takeName (cs : List Char) : String × List Char :=
  (String.ofList (cs.takeWhile isWord), cs.dropWhile isWord)

def decimal (digits : List Char) : Nat :=
  digits.foldl (fun n c => 10 * n + (c.toNat - '0'.toNat)) 0

def takeNumber (cs : List Char) : Except PatternFault (Nat × List Char) :=
  let n := decimal (cs.takeWhile Char.isDigit)
  if n < 0x80000000 then .ok (n, cs.dropWhile Char.isDigit) else .error .groupNumber

def takeCategory (cs : List Char) : Except PatternFault (List Char) :=
  match cs with
  | '\x7b' :: rest =>
    let inName (c : Char) : Bool := isWord c || c == '-'
    let name := String.ofList (rest.takeWhile inName)
    match rest.dropWhile inName with
    | '\x7d' :: after =>
      if rest.length < 2 then .error .incompleteCategory
      else if isCategory name then .ok after
      else .error (.unknownCategory name)
    | _ => .error .incompleteCategory
  | c :: rest =>
    if isCategory (String.singleton c) then .ok rest
    else .error (.unknownCategory (String.singleton c))
  | [] => .error .incompleteCategory

def takeHex? (count : Nat) (cs : List Char) : Option (Nat × List Char) :=
  let digits := (cs.take count).filterMap Text.hexValue?
  if digits.length == count then some (digits.foldl (fun n d => 16 * n + d) 0, cs.drop count)
  else none

def takeOctal (cs : List Char) : Nat × List Char :=
  let isOctal (c : Char) : Bool := '0' ≤ c && c ≤ '7'
  let rec go : Nat → Nat → List Char → Nat × List Char
    | 0, n, cs => (n, cs)
    | k + 1, n, c :: rest =>
      if isOctal c && n < 32 then go k (8 * n + (c.toNat - '0'.toNat)) rest else (n, c :: rest)
    | _ + 1, n, [] => (n, [])
  go 3 0 cs

/-- Read the escape of one character, after the backslash. An escape that is not complete stands for
the character after the backslash. -/
def takeEscape : List Char → Char × List Char
  | [] => ('\\', [])
  | c :: rest =>
    let plain := (c, rest)
    let code (r : Option (Nat × List Char)) : Char × List Char :=
      match r with
      | some (n, after) => (Char.ofNat n, after)
      | none => plain
    match c with
    | 'x' => code (takeHex? 2 rest)
    | 'u' => code (takeHex? 4 rest)
    | 'a' => ('\x07', rest)
    | 'b' => ('\x08', rest)
    | 'e' => ('\x1b', rest)
    | 'f' => ('\x0c', rest)
    | 'n' => ('\n', rest)
    | 'r' => ('\x0d', rest)
    | 't' => ('\t', rest)
    | 'v' => ('\x0b', rest)
    | 'c' =>
      match rest with
      | l :: after =>
        if '@' ≤ l.toUpper && l.toUpper ≤ '_' then (Char.ofNat (l.toUpper.toNat - 64), after)
        else plain
      | [] => plain
    | _ =>
      if '0' ≤ c && c ≤ '7' then
        let (n, after) := takeOctal (c :: rest)
        (Char.ofNat n, after)
      else plain

inductive SetItem where
  | char (c : Char) (plain : Bool)
  | group (name : Char)
  | dash

def takeItem (c : Char) (rest : List Char) : SetItem × List Char :=
  match c, rest with
  | '\\', '-' :: after => (.dash, after)
  | '\\', e :: after =>
    if "dDsSwWpP".toList.contains e then (.group e, after)
    else
      let (c, after) := takeEscape (e :: after)
      (.char c false, after)
  | _, _ => (.char c true, rest)

/-- Read a set, after its opening bracket. `low` is the lower end of a range whose upper end is to
come. The first argument bounds the number of members. -/
def takeSet : Nat → Bool → Option Char → List Char → Except PatternFault (List Char)
  | 0, _, _, _ => .error .unterminatedSet
  | _ + 1, _, _, [] => .error .unterminatedSet
  | _ + 1, _, _, ']' :: rest => .ok rest
  | fuel + 1, first, low, c :: rest =>
    match takeItem c rest with
    | (.dash, after) => takeSet fuel false low after
    | (.group name, after) => do
      if low.isSome then throw (.classInRange name)
      let after ← if name == 'p' || name == 'P' then takeCategory after else pure after
      takeSet fuel false none after
    | (.char c plain, after) =>
      match low, after with
      | some l, _ =>
        if c == '[' && plain && !first then
          takeSubtraction fuel after
        else if l.toNat > c.toNat then .error (.reversedRange l c)
        else takeSet fuel false none after
      | none, '-' :: d :: more =>
        if d != ']' then takeSet fuel false (some c) (d :: more) else takeSet fuel false none after
      | none, '[' :: more =>
        if c == '-' && plain && !first then takeSubtraction fuel more
        else takeSet fuel false none after
      | none, _ => takeSet fuel false none after
where
  takeSubtraction (fuel : Nat) (cs : List Char) : Except PatternFault (List Char) :=
    match fuel with
    | 0 => .error .unterminatedSet
    | fuel + 1 => do
      let inner := match cs with
        | '^' :: rest => rest
        | _ => cs
      let after ← takeSet fuel true none inner
      takeSet fuel false none after

def takeSigned (cs : List Char) : Except PatternFault (List Char) :=
  match cs with
  | '^' :: rest => takeSet (rest.length + 1) true none rest
  | _ => takeSet (cs.length + 1) true none cs

def isCount (cs : List Char) : Bool :=
  let isEnd : List Char → Bool := fun
    | '\x7d' :: _ => true
    | _ => false
  match cs with
  | c :: _ =>
    c.isDigit &&
      match cs.dropWhile Char.isDigit with
      | ',' :: rest => isEnd (rest.dropWhile Char.isDigit)
      | rest => isEnd rest
  | [] => false

def takeCount (cs : List Char) : Except PatternFault (List Char) := do
  let (low, rest) ← takeNumber cs
  match rest with
  | ',' :: '\x7d' :: after => return after
  | ',' :: more =>
    let (high, rest) ← takeNumber more
    if high < low then throw .repeatCount
    return rest.drop 1
  | _ => return rest.drop 1

inductive Opening where
  | group
  | options

def takeGroupName (close : Char) (cs : List Char) : Except PatternFault (List Char) := do
  match cs with
  | [] => throw .groupName
  | c :: _ =>
    let ends : List Char → Bool := fun
      | d :: _ => d == close || d == '-'
      | [] => true
    if c.isDigit then
      let (n, rest) ← takeNumber cs
      if !ends rest then throw .groupName
      if n == 0 then throw .groupZero
      return rest
    else if isWord c then
      let rest := (takeName cs).2
      if !ends rest then throw .groupName
      return rest
    else throw .groupName

def isOption (c : Char) : Bool :=
  "imnsxdu+-".toList.contains c || "IMNSXDU".toList.contains c

def takeOpening (cs : List Char) : Except PatternFault (Opening × List Char) :=
  let unknown (rest : List Char) : Except PatternFault (Opening × List Char) :=
    .error (.grouping (String.ofList (cs.take (cs.length - rest.length))))
  let named (close : Char) (rest : List Char) : Except PatternFault (Opening × List Char) := do
    match ← takeGroupName close rest with
    | c :: after => if c == close then return (.group, after) else unknown after
    | [] => unknown []
  match cs with
  | '?' :: ')' :: _ => .ok (.group, cs)
  | '?' :: ':' :: rest | '?' :: '=' :: rest | '?' :: '!' :: rest | '?' :: '>' :: rest
  | '?' :: '<' :: '=' :: rest | '?' :: '<' :: '!' :: rest => .ok (.group, rest)
  | ['?', '<'] | ['?', '\''] | ['?'] => unknown []
  | '?' :: '<' :: rest => named '>' rest
  | '?' :: '\'' :: rest => named '\'' rest
  | '?' :: '(' :: rest => .ok (.group, '(' :: rest)
  | '?' :: rest =>
    match rest.dropWhile isOption with
    | [] => unknown []
    | ')' :: after => .ok (.options, after)
    | ':' :: after => .ok (.group, after)
    | _ :: after => unknown after
  | _ => .ok (.group, cs)

def groupNames : List Char → List String
  | '\\' :: _ :: rest => groupNames rest
  | '(' :: '?' :: '<' :: c :: rest =>
    if isWord c && !c.isDigit then
      String.ofList (c :: rest.takeWhile isWord) :: groupNames rest
    else groupNames rest
  | _ :: rest => groupNames rest
  | [] => []

def groupCount : List Char → Nat
  | '\\' :: _ :: rest => groupCount rest
  | '(' :: '?' :: rest => groupCount rest
  | '(' :: rest => groupCount rest + 1
  | _ :: rest => groupCount rest
  | [] => 0

/-- Read what stands after a backslash outside a set. A reference to a group by name is one only in
a pattern that has named groups. -/
def takeBackslash (names : List String) (groups : Nat) (cs : List Char) :
    Except PatternFault (List Char) := do
  match cs with
  | [] => throw .endEscape
  | 'p' :: rest | 'P' :: rest => takeCategory rest
  | 'k' :: rest =>
    if names.isEmpty then return rest
    match rest with
    | '<' :: c :: more =>
      if c.isDigit then
        let (n, after) ← takeNumber (c :: more)
        match after with
        | '>' :: after =>
          if n ≤ groups + names.length then return after else throw (.undefinedNumber n)
        | _ => return rest
      else
        let (name, after) := takeName (c :: more)
        match after with
        | '>' :: after =>
          if name == "" then throw .malformedReference
          if names.contains name then return after else throw (.undefinedName name)
        | _ => throw .malformedReference
    | _ => throw .malformedReference
  | c :: _ =>
    if '1' ≤ c && c ≤ '9' then
      let (n, after) ← takeNumber cs
      if n ≤ groups + names.length then return after
    return (takeEscape cs).2

structure Progress where
  unit : Bool := false
  repeated : Bool := false
  depth : Nat := 0

/-- Read a pattern to its end. The first argument bounds the number of steps. -/
def scan (names : List String) (groups : Nat) :
    Nat → Progress → List Char → Except PatternFault Unit
  | 0, _, _ => .ok ()
  | fuel + 1, p, cs => do
    let go := scan names groups fuel
    let unit (rest : List Char) := go { p with unit := true, repeated := false } rest
    let fresh (depth : Nat) (rest : List Char) := go { depth } rest
    let quantified (rest : List Char) : Except PatternFault Unit := do
      if !p.unit then throw (if p.repeated then .nestedRepeat else .missingArgument)
      match rest with
      | '?' :: after => go { p with unit := false, repeated := true } after
      | _ => go { p with unit := false, repeated := true } rest
    match cs with
    | [] => if p.depth > 0 then throw .missingParen
    | '(' :: '?' :: '#' :: rest =>
      match rest.dropWhile (· != ')') with
      | _ :: after => go p after
      | [] => throw .unterminatedComment
    | '(' :: rest =>
      match ← takeOpening rest with
      | (.group, inside) => fresh (p.depth + 1) inside
      | (.options, after) => fresh p.depth after
    | ')' :: rest =>
      if p.depth == 0 then throw .unexpectedParen
      go { unit := true, repeated := false, depth := p.depth - 1 } rest
    | '|' :: rest => fresh p.depth rest
    | '[' :: rest => unit (← takeSigned rest)
    | '\\' :: rest => unit (← takeBackslash names groups rest)
    | '*' :: rest | '+' :: rest | '?' :: rest => quantified rest
    | '\x7b' :: rest =>
      if !isCount rest then unit rest
      else if !p.unit then throw (if p.repeated then .nestedRepeat else .missingArgument)
      else quantified (← takeCount rest)
    | _ :: rest => unit rest

def check (pattern : String) : Option String :=
  let cs := pattern.toList
  match scan (groupNames cs) (groupCount cs) (cs.length + 1) {} cs with
  | .ok () => none
  | .error f => some (f.reason pattern)

end ScriptC.RegExp
