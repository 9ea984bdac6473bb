import ScriptC.Text.Hex
import ScriptC.Text.Letter
import ScriptC.Token.Cursor

/-!
Names and words, which may be written with escapes.
-/

namespace ScriptC.Token

/-- Move over hexadecimal digits, giving their value. The first argument bounds their number. -/
def skipHex : Nat → Nat → Cursor → Nat × Nat × Cursor
  | 0, value, c => (0, value, c)
  | most + 1, value, c =>
    match c.char?.bind Text.hexValue? with
    | some d =>
      let (missing, value, c) := skipHex most (16 * value + d) c.next
      (missing, value, c)
    | none => (most + 1, value, c)

def nameEscape? (c : Cursor) : Option (Char × Cursor) :=
  if !c.has 'u' then none
  else
    let digits := c.next
    if digits.has '\x7b' then
      let start := digits.next
      let (_, value, stop) := skipHex start.rest.length 0 start
      if stop.offset == start.offset || !stop.has '\x7d' then none
      else some (Char.ofNat value, stop.next)
    else
      match skipHex 4 0 digits with
      | (0, value, stop) => some (Char.ofNat value, stop)
      | _ => none

structure NameScan where
  stop : Cursor
  value : Option (List Char)
  escaped : Bool

/-- Read a name to its end. The first argument bounds the number of characters. -/
def scanName : Nat → Bool → Bool → Cursor → NameScan
  | 0, _, marked, c => ⟨c, some [], marked⟩
  | fuel + 1, first, marked, c =>
    let follow (x : Char) (marked : Bool) (c : Cursor) : NameScan :=
      let scan := scanName fuel false marked c
      { scan with value := scan.value.map (x :: ·) }
    match c.char? with
    | none => ⟨c, some [], marked⟩
    | some x =>
      if x == '\\' then
        match nameEscape? c.next with
        | some (x, stop) =>
          if if first then Text.isNameStart x else Text.isNamePart x then follow x true stop
          else ⟨stop, none, true⟩
        | none => ⟨c.next, none, true⟩
      else if Text.isNamePart x then follow x marked c.next
      else ⟨c, some [], marked⟩

def nameAt (c : Cursor) : NameScan :=
  scanName c.rest.length true false c

end ScriptC.Token
