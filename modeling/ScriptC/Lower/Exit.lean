import ScriptC.Lower.Operands
import ScriptC.Lower.Storage

/-!
Leaving regions. Whoever leaves a protected region, the body of a `with` or a loop over an iterator
must put it in order first; a `finally` block on the way runs before the exit goes on.
-/

namespace ScriptC.Lower

def unregister (handler : String) : C.Stmt :=
  .expr (.callEnv Engine.leaveTry [.var ("&" ++ handler)])

def register (handler : String) : C.Expr :=
  .call "setjmp" [.unary "*" (.callEnv Engine.enterTry [.var ("&" ++ handler)])]

def pendingOf (f : Finalizer) : Lower Pending :=
  return ((← get).pending.lookup f.id).getD {}

def setPending (f : Finalizer) (p : Pending) : Lower Unit :=
  modify fun w => { w with pending := (f.id, p) :: w.pending.filter fun q => q.1 != f.id }

def jumpCode (t : Target) (continues : Bool) (f : Finalizer) : Lower Nat := do
  let p ← pendingOf f
  match p.jumps.findIdx? fun j => j.1.id == t.id && j.2 == continues with
  | some i => return Pending.jumpCode i
  | none =>
    setPending f { p with jumps := p.jumps ++ [(t, continues)] }
    return Pending.jumpCode p.jumps.length

/--
Put regions in order, the innermost first. At a `finally` block `code` says how the exit goes on
after it; otherwise `done` leaves.
-/
def leaveRegions (code : Finalizer → Lower Nat) (done : Lower Unit) : List Exit → Lower Unit
  | [] => done
  | .handler name :: rest => do
    emit [unregister name]
    leaveRegions code done rest
  | .withBody :: rest => do
    effect (.callEnv Engine.popWith [])
    leaveRegions code done rest
  | .iterator name :: rest => do
    effect (.callEnv Engine.closeIterator [.var name])
    leaveRegions code done rest
  | .finalizer f :: _ => do
    let k ← code f
    effect (.set (.var f.code) (.nat k))
    emit [unregister f.handler, .goto f.label]

def jumpToEnd (t : Target) : Lower C.Stmt := do
  modify fun w => { w with breaks := t.id :: w.breaks }
  return .goto t.breakLabel

def jump (t : Target) (continues : Bool) : Lower Unit := do
  let exits := (← get).exits
  let done : Lower Unit :=
    if continues then do
      modify fun w => { w with continues := t.id :: w.continues }
      emit [.goto t.continueLabel]
    else do emit [← jumpToEnd t]
  leaveRegions (jumpCode t continues) done (exits.take (exits.length - t.depth))

def resultOf (v : C.Expr) : Lower C.Expr := do
  let f ← function
  if f.isConstructor && f.isDerived then
    return .callEnv Engine.derivedReturn [v, ← storage (f.this.getD 0)]
  else return v

def returnFrom (v : C.Expr) : Lower Unit := do
  match (← get).exits with
  | [] => emit [.ret (← resultOf v)]
  | exits =>
    let t ← temp
    effect (.set t v)
    let code (f : Finalizer) : Lower Nat := do
      setPending f { ← pendingOf f with returns := true }
      effect (.set (.var f.value) t)
      return Pending.returnCode
    leaveRegions code (do emit [.ret (← resultOf t)]) exits

end ScriptC.Lower
