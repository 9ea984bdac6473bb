/-!
Scopes: which names a region of a script binds, and what a name means in it. Scopes refer to the
ones around them by number.
-/

namespace ScriptC

structure Scope where
  parent : Option Nat := none
  opener : Option Nat := none
  owner : Nat := 0
  isFunction : Bool := false
  isWith : Bool := false
  names : List (String × Nat) := []
  hoisted : List String := []
  deriving Repr, Inhabited

namespace Scope

def lookup? (s : Scope) (name : String) : Option Nat :=
  s.names.lookup name

def declare (s : Scope) (name : String) (decl : Nat) : Scope :=
  { s with names := (name, decl) :: s.names.filter fun p => p.1 != name }

def noteCrossing (s : Scope) (name : String) : Scope :=
  if s.hoisted.contains name then s else { s with hoisted := name :: s.hoisted }

def isCrossed (s : Scope) (name : String) : Bool :=
  s.hoisted.contains name

end Scope

abbrev Scopes := Array Scope

structure Resolution where
  decl : Option Nat := none
  throughWith : Bool := false
  scope : Option Nat := none
  deriving DecidableEq, Repr

namespace Scopes

def chainFrom (scopes : Scopes) : Nat → Option Nat → List (Nat × Scope)
  | 0, _ | _, none => []
  | fuel + 1, some i =>
    match scopes[i]? with
    | none => []
    | some s => (i, s) :: chainFrom scopes fuel s.parent

def chain (scopes : Scopes) (i : Nat) : List (Nat × Scope) :=
  scopes.chainFrom (scopes.size + 1) (some i)

def resolveIn (name : String) (throughWith : Bool) : List (Nat × Scope) → Resolution
  | [] => { throughWith }
  | (i, s) :: rest =>
    match s.lookup? name with
    | some d => { decl := some d, throughWith, scope := some i }
    | none => resolveIn name (throughWith || s.isWith) rest

def resolve (scopes : Scopes) (i : Nat) (name : String) : Resolution :=
  resolveIn name false (scopes.chain i)

def nearestFunction? (scopes : Scopes) (i : Nat) : Option Nat :=
  ((scopes.chain i).find? fun p => p.2.isFunction).map (·.1)

def isInWith (scopes : Scopes) (i : Nat) : Bool :=
  (scopes.chain i).any fun p => p.2.isWith

end Scopes
end ScriptC
