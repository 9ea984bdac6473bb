import ScriptC.C.Chars
import ScriptC.C.Stmt
import ScriptC.Shape
import ScriptC.Text.Quoted

/-!
The literal values of a script. Each string, bigint and shape has one slot, in the order of first
use, and an initializer that creates them all; what the engine keeps ready needs none.
-/

namespace ScriptC

inductive SlotKind where
  | string
  | bigint
  | shape
  deriving DecidableEq, Repr, Inhabited

def SlotKind.mark : SlotKind → String
  | .string => "s:"
  | .bigint => "n:"
  | .shape => "h:"

structure Slot where
  kind : SlotKind
  value : String
  props : Option (List String) := none
  isKey : Bool := false
  deriving DecidableEq, Repr, Inhabited

def Slot.cname (s : Slot) (index : Nat) : String :=
  if s.props.isSome then s!"shape_{index}" else s!"lit_{index}"

structure Literals where
  slots : List Slot := []
  shapes : List (String × Shape) := []
  shapeCount : Nat := 0
  deriving Inhabited

namespace Literals

def index? (t : Literals) (kind : SlotKind) (value : String) : Option Nat :=
  t.slots.findIdx? fun s => s.kind == kind && s.value == value

def assign (t : Literals) (kind : SlotKind) (value : String) : Nat × Literals :=
  match t.index? kind value with
  | some i => (i, t)
  | none => (t.slots.length, { t with slots := t.slots ++ [{ kind, value }] })

def cnameAt (t : Literals) (i : Nat) : String :=
  (t.slots.getD i default).cname i

def string (t : Literals) (value : String) (isKey : Bool) : String × Literals :=
  match Engine.stringField? value with
  | some field => (field, t)
  | none =>
    let (i, t) := t.assign .string value
    let t := { t with slots := t.slots.modify i fun s => { s with isKey := s.isKey || isKey } }
    (t.cnameAt i, t)

def bigint (t : Literals) (digits : String) : String × Literals :=
  let (i, t) := t.assign .bigint digits
  (t.cnameAt i, t)

def keys (t : Literals) (names : List String) : Literals :=
  names.foldl (fun t name => (t.string name true).2) t

def shape (t : Literals) (props : List String) : Shape × Literals :=
  let key := Shape.keyOf props
  match t.shapes.lookup key with
  | some s => (s, t)
  | none =>
    match Engine.shapeField? props with
    | some field =>
      let s : Shape := ⟨props, field, some field⟩
      (s, { t with shapes := (key, s) :: t.shapes })
    | none =>
      let (i, t) := (t.keys props).assign .shape key
      let t := { t with slots := t.slots.modify i fun s => { s with props := some props } }
      let s : Shape := ⟨props, t.cnameAt i, none⟩
      (s, { t with shapes := (key, s) :: t.shapes, shapeCount := t.shapeCount + 1 })

def size (t : Literals) : Nat := t.slots.length

def named (t : Literals) : List (String × Slot) :=
  t.slots.mapIdx fun i s => (s.cname i, s)

def sortedNames (t : Literals) : List String :=
  (t.named.map (·.1)).mergeSort fun a b => decide (a ≤ b)

def decls (t : Literals) : List C.Decl :=
  t.named.map fun (name, _) => { type := Engine.typeValue, name, isStatic := true }

open C in
def initial (t : Literals) (s : Slot) : Expr :=
  match s.kind with
  | .string =>
    let (text, length) := charsText s.value
    .callEnv Engine.newString [.lit text, .nat length, .nat (if s.isKey then 1 else 0)]
  | .bigint => .callEnv Engine.newBigInt [.lit ("\"" ++ s.value ++ "\"")]
  | .shape =>
    let props := s.props.getD []
    .callEnv Engine.newShape (.nat props.length :: props.map fun p => .lit (t.string p true).1)

def initializers (t : Literals) : List C.Stmt :=
  t.named.map fun (name, s) => .expr (.set (.var name) (t.initial s))

def listing (t : Literals) : String :=
  s!"HeapAlloc(entries={t.size}, shapes={t.shapeCount}):\n" ++
    String.join (t.named.map fun (name, s) =>
      "  " ++ name ++ " -> " ++ s.kind.mark ++ Text.quote s.value ++ "\n")

end Literals
end ScriptC
