import ScriptC.Grammar.Basic

/-!
Expressions that turn out to be patterns.
-/

namespace ScriptC.Grammar

open Surface

def noPattern (x : Expr) (fault : TextFault) : Parse Expr := do
  report x.extent.start fault
  return badExpr x.extent

def patternElement (target : Expr → Parse Expr) (x : Expr) : Parse Expr := do
  match x.form with
  | .assign op left right =>
    if op == "=" then return .mk x.extent (.assign op (← target left) right)
    else noPattern x .assignmentPattern
  | _ => target x

def commaBetween? (start stop : Nat) : List (Option Char) → Nat → Option Nat
  | [], _ => none
  | x :: rest, offset =>
    if offset ≥ stop then none
    else if offset ≥ start && x == some ',' then some offset
    else commaBetween? start stop rest (offset + Text.width x)

def refuseComma (start stop : Nat) : Parse Unit := do
  match commaBetween? start stop (← get).text.rest 0 with
  | some offset => report (some offset) .commaAfterRest
  | none => return

/-- The items of an array pattern: its elements and what takes the rest. None if something follows
the rest. -/
def arrayItems (target element : Expr → Parse Expr) (close : Nat) :
    List (Option Expr) → Parse (Option (List (Option Expr) × Option Expr))
  | [] => return some ([], none)
  | [some (.mk _ (.spread argument))] => do
    refuseComma argument.stop close
    return some ([], some (← target argument))
  | some (.mk extent (.spread _)) :: _ => do
    report extent.start .restElement
    return none
  | item :: items => do
    let item ← item.mapM element
    match ← arrayItems target element close items with
    | some (items, rest) => return some (item :: items, rest)
    | none => return none

def arrayAsPattern (element rest : Expr → Parse Expr) (x : Expr) (items : List (Option Expr)) :
    Parse Expr := do
  match ← arrayItems rest (patternElement element) (x.stop - 1) items with
  | some (items, rest) => return .mk x.extent (.arrayPattern items rest)
  | none => return badExpr x.extent

def objectItems (target rest : Expr → Parse Expr) (fault : TextFault) :
    List Expr → Parse (Option (List Expr × Option Expr))
  | [] => return some ([], none)
  | [.mk _ (.spread argument)] => return some ([], some (← rest argument))
  | .mk extent (.spread _) :: _ => do
    report extent.start .restElement
    return none
  | .mk extent form :: items => do
    let item ←
      match form with
      | .keyed .value computed key value =>
        pure (some (.mk extent (.keyed .value computed key (← patternElement target value))))
      | .short .. => pure (some (.mk extent form))
      | _ =>
        report extent.start fault
        pure none
    match item with
    | none => return none
    | some item =>
      match ← objectItems target rest fault items with
      | some (items, rest) => return some (item :: items, rest)
      | none => return none

def objectAsPattern (target rest : Expr → Parse Expr) (fault : TextFault) (x : Expr)
    (properties : List Expr) : Parse Expr := do
  match ← objectItems target rest fault properties with
  | some (properties, rest) => return .mk x.extent (.objectPattern properties rest)
  | none => return badExpr x.extent

/-- An expression as something to assign to. The first argument bounds how deep patterns are. -/
def assignTarget : Nat → Expr → Parse Expr
  | 0, x => return x
  | depth + 1, x => do
    match x.form with
    | .array items => arrayAsPattern (assignTarget depth) (assignTarget depth) x items
    | .object properties =>
      objectAsPattern (assignTarget depth) pure .assignmentPattern x properties
    | .arrayPattern .. | .objectPattern .. => return x
    | _ => if x.isTarget then return x else noPattern x .assignmentPattern

def bindingRest (x : Expr) : Parse Expr := do
  match x.form with
  | .identifier _ => return x
  | _ => noPattern x .bindingRest

/-- An expression as something that declares names. Inside an array literal only the rest has to:
its elements may be anything to assign to. The elements of an array that has become a pattern have
to, and may have no defaults. The first argument bounds how deep patterns are. -/
def bindingTarget : Nat → Expr → Parse Expr
  | 0, x => return x
  | depth + 1, x => do
    match x.form with
    | .array items => arrayAsPattern (assignTarget depth) (bindingTarget depth) x items
    | .object properties =>
      objectAsPattern (bindingTarget depth) bindingRest .bindingPattern x properties
    | .arrayPattern items rest =>
      let items ← items.mapM fun i => i.mapM (bindingTarget depth)
      return .mk x.extent (.arrayPattern items (← rest.mapM (bindingTarget depth)))
    | .objectPattern properties rest =>
      let properties ← properties.mapM fun
        | .mk extent (.keyed kind computed key value) =>
          return .mk extent
            (.keyed kind computed key (← patternElement (bindingTarget depth) value))
        | p => return p
      return .mk x.extent (.objectPattern properties (← rest.mapM bindingRest))
    | .identifier name =>
      if (← context).allowAwait && name == "await" then noPattern x .bindingPattern else return x
    | _ => noPattern x .bindingPattern

def patternDepth : Parse Nat := return (← get).size + 1

def asAssignTarget (x : Expr) : Parse Expr := do assignTarget (← patternDepth) x

def asBindingTarget (x : Expr) : Parse Expr := do bindingTarget (← patternDepth) x

def asBinding (x : Expr) : Parse Expr := patternElement asBindingTarget x

end ScriptC.Grammar
