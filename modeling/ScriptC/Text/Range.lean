/-!
Classes of characters above 127 given as ranges of code points. A class lists by turns how many code
points lie between two ranges and how many the next range has.
-/

namespace ScriptC.Text

def liesIn : List Nat → Nat → Bool
  | gap :: size :: rest, n => gap ≤ n && (n < gap + size || liesIn rest (n - (gap + size)))
  | _, _ => false

def inRanges (ranges : List Nat) (c : Char) : Bool := 0x80 ≤ c.toNat && liesIn ranges
    (c.toNat - 0x80)

end ScriptC.Text
