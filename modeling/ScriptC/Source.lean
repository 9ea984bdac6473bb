import ScriptC.Text.ByteOrder

/-!
Scripts and places in them. A script is kept as bytes; lines end at line feeds, and columns count
characters, a byte that starts none counting as one.
-/

namespace ScriptC

structure Source where
  name : String
  path : String
  content : List UInt8
  deriving Inhabited

namespace Source

def ofText (name path text : String) : Source := ⟨name, path, Text.bytesOf text⟩

def evalName := "<eval>"

def stdinName := "<stdin>"

def baseName (path : String) : String :=
  if path.isEmpty then "."
  else
    let kept := path.toList.reverse.dropWhile (· == '/')
    if kept.isEmpty then "/" else String.ofList (kept.takeWhile (· != '/')).reverse

def ofFile (path : String) (raw : List UInt8) : Source :=
  ⟨baseName path, path, Text.decodeScript raw⟩

def readFile (decoder : Text.Decoder) (path : String) (raw : List UInt8) :
    Except String Source := do
  return ⟨baseName path, path, ← Text.decodeWith decoder raw⟩

def shownPath (s : Source) : String :=
  if s.path.isEmpty then s.name else s.path

def isFile (s : Source) : Bool :=
  !s.path.isEmpty

def splitLines : List UInt8 → List (List UInt8)
  | [] => [[]]
  | b :: bytes =>
    if b == 0x0A then [] :: splitLines bytes
    else
      match splitLines bytes with
      | [] => [[b]]
      | l :: ls => (b :: l) :: ls

def lines (s : Source) : List String :=
  (splitLines s.content).map Text.shown

def clamp (s : Source) (offset : Int) : Nat :=
  min offset.toNat s.content.length

def lineStartsFrom (i : Nat) (starts : Array Nat) : List UInt8 → Array Nat
  | [] => starts
  | b :: bytes =>
    lineStartsFrom (i + 1) (if b == 0x0A then starts.push (i + 1) else starts) bytes

def lineStarts (content : List UInt8) : Array Nat := lineStartsFrom 0 #[0] content

-- A test may look outside of a table, and then there is no answer.
def search (test : Nat → Option Bool) (low high : Nat) : Option Nat :=
  if low < high then do
    if ← test ((low + high) / 2) then search test low ((low + high) / 2)
    else search test ((low + high) / 2 + 1) high
  else some low
termination_by high - low

def slice? (bytes : List UInt8) (start stop : Nat) : Option (List UInt8) :=
  if start ≤ stop ∧ stop ≤ bytes.length then some ((bytes.take stop).drop start) else none

/-- A query for a place. The first one leaves the starts of the lines to those after it. -/
abbrev Query := StateT (Option (Array Nat)) Option

def lineTable (s : Source) : Query (Array Nat) := do
  match ← get with
  | some starts => return starts
  | none =>
    let starts := lineStarts s.content
    set (some starts)
    return starts

def locate (s : Source) (offset : Int) : Query (Nat × Nat) := do
  let starts ← s.lineTable
  let offset := s.clamp offset
  let next ← search (fun i => starts[i]?.map fun start => decide (offset < start)) 0 starts.size
  let start ← if next = 0 then failure else starts[next - 1]?
  let line ← slice? s.content start offset
  return (next, (Text.decode line).length + 1)

def lineAndColumn (s : Source) (offset : Int) : Nat × Nat :=
  (((s.locate offset).run none).map Prod.fst).getD (0, 0)

end Source
end ScriptC
