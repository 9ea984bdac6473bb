import ScriptC.Lower.Function
import ScriptC.Node.Outline

/-!
A script as one C file: the slots of its literals, its functions, the initializer of the literals
and the native entry point.
-/

namespace ScriptC

def nameSeed (path : String) : Nat :=
  let hash := (Text.bytesOf path).foldl (fun (h : UInt32) b => (h ^^^ b.toUInt32) * 16777619)
    (2166136261 : UInt32)
  hash.toNat % 10000 * 100

namespace Lower

def initializerName (source : Source) : String := s!"literals_{nameSeed source.shownPath}"

def entryBlock (source : Source) (program : C.Expr) : C.Stmt :=
  let env : C.Decl :=
    { type := Engine.typeEnvironment ++ " *", name := "env"
      init := .call Engine.start [.var "argc", .var "argv"] }
  .block [env]
    [.expr (.call (initializerName source) [.env]),
      .decl { type := Engine.typeValue, name := "func_val", init := program },
      .expr (.callEnv Engine.callFunction
        [.var "func_val", .callEnv Engine.globalObject [], .callEnv Engine.stackBase [],
          .lit "0"]),
      .ret (.call Engine.shutdown [.env])]

def fileLines (plan : Plan) (w : Writer) (blocks : List C.Stmt) (program : C.Expr) :
    List C.Line :=
  let functions := plan.analysis.bindings.functions.toList
  let line (text : String) : C.Line := ⟨0, text⟩
  let templates : List C.Decl := w.templates.map fun name =>
    { type := Engine.typeValue, name, isStatic := true }
  [line ("// " ++ plan.source.shownPath),
    line ("#include " ++ Text.quote plan.settings.runtimeHeader), line ""] ++
    C.Stmt.declLines (w.literals.decls ++ templates) ++ [line ""] ++
    functions.map (fun f => line (signature f ++ ";")) ++ [line ""] ++
    (functions.zip blocks).flatMap (fun (f, b) => functionLines f b ++ [line ""]) ++
    line s!"static void {initializerName plan.source}(js_environ *env)" ::
    (C.Stmt.block [] w.literals.initializers).lines ++
    [line "", line s!"int {plan.settings.entry}(int argc, char **argv)"] ++
    (entryBlock plan.source program).lines

def file : Lower String := do
  let plan ← read
  let blocks ← functionBlocks (List.range plan.analysis.bindings.functions.size)
  let program ← programFunction
  return C.textOf (fileLines plan (← get) blocks program)

end Lower

structure Compiled where
  code : String
  analysis : Analysis

def Analysis.noteMade (a : Analysis) (made : List Nat) : Analysis :=
  let note (i : Nat) (f : Function) : Function :=
    if made.contains i then
      { f with
        length := Lower.arity f.params
        notConstructor := f.notConstructor || Lower.isNotConstructor f }
    else f
  { a with bindings := { a.bindings with functions := a.bindings.functions.mapIdx note } }

def Plan.compile (plan : Plan) : Except Fault Compiled := do
  let a := plan.analysis
  let (code, w) ← (Lower.file.run plan).run
    { literals := a.literals, lastName := a.bindings.counters.name }
  let a := a.noteMade w.made
  return ⟨code, { a with stats := { a.stats with temporaries := w.temporaries } }⟩

structure Outcome where
  trace : List String
  result : Except Fault Compiled

def compileTree (source : Source) (settings : Settings) (tree : Node) (nodes : Nat) : Outcome :=
  match Extraction.of tree ⟨nodes, nameSeed source.shownPath⟩ with
  | .error f => ⟨[], .error f⟩
  | .ok e =>
    let trace := [s!"split: {e.functions.size} functions"]
    match Bindings.of e with
    | .error f => ⟨trace, .error f⟩
    | .ok b =>
      let trace := trace ++ ["resolve: done"]
      match Analysis.of b with
      | .error f => ⟨trace, .error f⟩
      | .ok a =>
        let trace := trace ++
          [s!"analyze: {a.literals.size} literals, {a.literals.shapeCount} shapes"]
        match Plan.compile { analysis := a, source, settings } with
        | .error f => ⟨trace, .error f⟩
        | .ok c =>
          ⟨trace ++ [s!"write: {a.bindings.functions.size} functions"], .ok c⟩

namespace Compiled

def describe (c : Compiled) (n : Node) : Description :=
  let b := c.analysis.bindings
  let decl? := b.decls.get? n.id
  let use? := b.use? n
  { decl := (decl?.map (·.kind)).getD .none
    link :=
      match use? with
      | some (.direct d) => if d == n.id then none else some d
      | _ => none
    withLink :=
      match use? with
      | some (.viaWith d) => some d
      | _ => none
    isGlobal := use? == some .global
    isClosure := decl?.any (·.isCaptured)
    function :=
      (b.functions.find? fun f => f.node.id == n.id).map fun f => (f.name, f.isStrict)
    site := (b.sites.get? n.id).map fun f => (b.function f).node.id
    slot := c.analysis.slots.get? n.id }

def outlines (c : Compiled) : List String :=
  c.analysis.bindings.functions.toList.map fun f => f.node.outline c.describe 0

end Compiled
end ScriptC
