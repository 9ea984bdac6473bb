import Std.Data.TreeMap

/-!
The C names of declarations. A name, once chosen, stays.
-/

namespace ScriptC

abbrev CNames := Std.TreeMap Nat String

namespace CNames

def name? (t : CNames) (d : Nat) : Option String :=
  (t.get? d).filter fun s => !s.isEmpty

def assign (t : CNames) (d : Nat) (name : String) : String × CNames :=
  match t.name? d with
  | some old => (old, t)
  | none => (name, t.insert d name)

end CNames
end ScriptC
