import ScriptC.Text.Utf8

/-!
A place in the text of a script: what is left of the text, and how many bytes stand before it.
-/

namespace ScriptC

structure Cursor where
  rest : List (Option Char)
  offset : Nat
  deriving Inhabited

namespace Cursor

def ofBytes (content : List UInt8) : Cursor := ⟨Text.decode content, 0⟩

def char? (c : Cursor) : Option Char :=
  match c.rest with
  | x :: _ => some (x.getD Text.replacement)
  | [] => none

def second? (c : Cursor) : Option Char :=
  match c.rest with
  | _ :: x :: _ => some (x.getD Text.replacement)
  | _ => none

def atEnd (c : Cursor) : Bool := c.rest.isEmpty

def next (c : Cursor) : Cursor :=
  match c.rest with
  | x :: rest => ⟨rest, c.offset + Text.width x⟩
  | [] => c

def skip : Nat → Cursor → Cursor
  | 0, c => c
  | n + 1, c => skip n c.next

def test (c : Cursor) (p : Char → Bool) : Bool := c.char?.any p

def has (c : Cursor) (x : Char) : Bool := c.char? == some x

def skipWhile (p : Char → Bool) (c : Cursor) : Cursor :=
  go c.rest c.offset
where
  go : List (Option Char) → Nat → Cursor
    | [], offset => ⟨[], offset⟩
    | x :: rest, offset =>
      if p (x.getD Text.replacement) then go rest (offset + Text.width x) else ⟨x :: rest, offset⟩

def skipText? (text : List Char) (c : Cursor) : Option Cursor :=
  match text with
  | [] => some c
  | x :: text => if c.has x then skipText? text c.next else none

def charsTo (c : Cursor) (stop : Nat) : List Char :=
  go c.rest c.offset
where
  go : List (Option Char) → Nat → List Char
    | [], _ => []
    | x :: rest, offset =>
      if offset < stop then x.getD Text.replacement :: go rest (offset + Text.width x) else []

def textTo (c : Cursor) (stop : Nat) : String :=
  String.ofList (c.charsTo stop)

end Cursor
end ScriptC
