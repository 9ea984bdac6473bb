import Mathlib.Data.List.Forall2
import ScriptC.Proofs.Lower.Areas
import ScriptC.Proofs.Lower.Names

/-!
What code may look like. A `Setting` says which declarations the function that is being written can
reach, what its code may hold, which slots of the area for calls it may use and which faults may
come up. The rules of a setting hold of code from a slot on: it may fill that slot and those after
it.
-/

namespace ScriptC

def CNames.Le (t t' : CNames) : Prop :=
  ∀ d s, t.name? d = some s → t'.name? d = some s

theorem CNames.Le.refl (t : CNames) : t.Le t := fun _ _ h => h

theorem CNames.Le.trans {t t' t'' : CNames} (h : t.Le t') (h' : t'.Le t'') : t.Le t'' :=
  fun d s hd => h' d s (h d s hd)

def CNames.IsName (last : Nat) (s : String) : Prop :=
  s = "func_val" ∨ ∃ (mark : Char) (stem : String) (id : Nat), (mark = 'j' ∨ mark = 'c') ∧
    stem.toList.all C.isNameChar = true ∧ id ≤ last ∧
    s.toList = mark :: '_' :: stem.toList ++ '_' :: id.repr.toList

theorem CNames.IsName.mono {last last' : Nat} {s : String} (h : IsName last s)
    (hle : last ≤ last') :
    IsName last' s := by
  obtain rfl | ⟨mark, stem, id, hmark, hstem, hid, hs⟩ := h
  . exact .inl rfl
  . exact .inr ⟨mark, stem, id, hmark, hstem, Nat.le_trans hid hle, hs⟩

theorem CNames.IsName.isOwn {last : Nat} {s : String} (h : IsName last s) :
    C.Expr.isOwn s = false := by
  obtain rfl | ⟨mark, stem, id, rfl | rfl, -, -, hs⟩ := h
  . decide
  . simp [C.Expr.isOwn, hs]
  . simp [C.Expr.isOwn, hs]

theorem CNames.IsName.isNameChar {last : Nat} {s : String} (h : IsName last s) :
    s.toList.all C.isNameChar = true := by
  obtain rfl | ⟨mark, stem, id, hmark, hstem, -, hs⟩ := h
  . decide
  . rw [hs, List.cons_append, List.cons_append, List.all_cons, List.all_cons,
      List.all_append, hstem,
      List.all_cons, C.isNameChar_digits]
    rcases hmark with rfl | rfl <;> decide

theorem CNames.IsName.not_isTemporary {last : Nat} {s : String} (h : IsName last s) :
    C.isTemporary s.toList = false := by
  obtain rfl | ⟨mark, stem, id, rfl | rfl, -, -, hs⟩ := h
  . decide
  . simp [C.isTemporary, C.stems, hs, List.isPrefixOf_cons_cons]
  . simp [C.isTemporary, C.stems, hs, List.isPrefixOf_cons_cons]

theorem CNames.IsName.not_isReserved {last : Nat} {s : String} (h : IsName last s) :
    C.isReserved s.toList = false := by
  rw [C.isReserved, h.not_isTemporary, Bool.false_or, beq_eq_false_iff_ne]
  obtain rfl | ⟨mark, stem, id, rfl | rfl, -, -, hs⟩ := h
  . decide
  . simp [hs]
  . simp [hs]

/--
The names that have been made: each for one declaration, and one that points to a cell for one that
other functions use.
-/
structure CNames.Proper (t : CNames) (b : Bindings) (last : Nat) : Prop where
  isName : ∀ d s, t.name? d = some s → IsName last s
  cell : ∀ d s, t.name? d = some s → C.isCellName s.toList = (b.decl d).isCaptured
  inj : ∀ d d' s, t.name? d = some s → t.name? d' = some s → s ≠ "func_val" → d = d'

theorem CNames.Proper.mono {t : CNames} {b : Bindings} {last last' : Nat} (h : t.Proper b last)
    (hle : last ≤ last') : t.Proper b last' :=
  ⟨fun d s hs => (h.isName d s hs).mono hle, h.cell, h.inj⟩

theorem CNames.Proper.of_le {t t' : CNames} {b : Bindings} {last : Nat} (h : t'.Proper b last)
    (hle : t.Le t') : t.Proper b last where
  isName d s hs := h.isName d s (hle d s hs)
  cell d s hs := h.cell d s (hle d s hs)
  inj d d' s hd hd' := h.inj d d' s (hle d s hd) (hle d' s hd')

theorem CNames.name?_insert {t : CNames} {d d' : Nat} {s s' : String}
    (h : CNames.name? (t.insert d s) d' = some s') : (d' = d ∧ s' = s) ∨ t.name? d' = some s' := by
  unfold CNames.name? at *
  by_cases hd : d = d'
  . left
    subst hd
    simp at h
    exact ⟨rfl, h.1.symm⟩
  . right
    simpa [Std.TreeMap.get?_eq_getElem?, Std.TreeMap.getElem?_insert, hd] using h

theorem CNames.name?_insert_self {t : CNames} {d : Nat} {s : String} (hs : s.isEmpty = false) :
    CNames.name? (t.insert d s) d = some s := by
  simp [CNames.name?, hs]

theorem CNames.le_insert {t : CNames} {d : Nat} {s : String} (hd : t.name? d = none) :
    t.Le (t.insert d s) := by
  intro d' s' h
  have hne : d ≠ d' := by
    rintro rfl
    simp [hd] at h
  simpa [CNames.name?, Std.TreeMap.get?_eq_getElem?, Std.TreeMap.getElem?_insert, hne] using h

def Fault.IsCapture (f : Fault) : Prop :=
  ∃ name cname, f.cause = .lowering (.notCaptured name cname)

def Fault.IsFrame (f : Fault) : Prop :=
  ∃ message, f.cause = .lowering (.frame message)

theorem Fault.IsCapture.not_isFrame {f : Fault} (h : f.IsCapture) : ¬f.IsFrame := by
  rintro ⟨message, hf⟩
  obtain ⟨name, cname, hcause⟩ := h
  rw [hcause] at hf
  cases hf

def Frames.names (f : Frames) : List String := f.blocks.flatten.map (·.name)

namespace Lower

def IsCell (b : Bindings) (fn : Nat) (named : Nat → String → Prop) (d : Nat) (e : C.Expr) : Prop :=
  if (b.decl d).owner = fn then
    ∃ name, named d name ∧ e = .var (if (b.decl d).isCaptured then name else "&" ++ name)
  else ∃ i, (b.function fn).captures.index? d = some i ∧ e = .var s!"closures[{i}]"

def functionArgs (f : Function) (name : C.Expr) : List C.Expr :=
  [.env, .var f.cname, name, .lit (Engine.functionFlags (functionBits f)), .nat (arity f.params),
    .nat f.cacheKeys.length, (f.newShape.map fun s => C.Expr.lit s.cname).getD .undefined,
    .nat f.captures.size]

def IsStorage (b : Bindings) (fn : Nat) (named : Nat → String → Prop) (d : Nat) (text : String) :
    Prop :=
  if (b.decl d).owner = fn then
    ∃ name, named d name ∧ text = if (b.decl d).isCaptured then "(*" ++ name ++ ")" else name
  else ∃ i : Nat, (b.function fn).captures.index? d = some i ∧ text = s!"(*closures[{i}])"

/-- What is known when a function is written, and which calls its code may hold. -/
structure Calls where
  plan : Plan
  fn : Nat
  allows : String → List C.Expr → Prop
  final : CNames → Prop
  faults : Fault → Prop
  reaches : Nat → Prop
  makes : Nat → Prop
  final_of_le : ∀ {t t' : CNames}, t.Le t' → final t' → final t
  faults_of_other : ∀ f : Fault, ¬f.IsCapture → ¬f.IsFrame → faults f
  faults_capture : ∀ d, reaches d → (plan.analysis.bindings.decl d).owner ≠ fn →
    (plan.analysis.bindings.function fn).captures.index? d = none →
    ∀ f : Fault, f.IsCapture → faults f
  -- An absent node goes by the number zero.
  reaches_zero : ∀ d, (plan.analysis.bindings.uses.get? 0).bind (·.decl?) = some d → reaches d
  makes_zero : ∀ child, plan.analysis.bindings.sites.get? 0 = some child → makes child
  reaches_captures : ∀ child, makes child →
    ∀ d ∈ (plan.analysis.bindings.function child).captures.decls, reaches d
  allows_ordinary : ∀ fn args, Engine.isOrdinary fn → allows fn args
  allows_function : ∀ child name cells, makes child →
    List.Forall₂
      (IsCell plan.analysis.bindings fn fun d name => ∃ t, final t ∧ CNames.name? t d = some name)
      (plan.analysis.bindings.function child).captures.decls cells →
    allows Engine.newFunction
      (functionArgs (plan.analysis.bindings.function child) (.lit name) ++ cells)

def Calls.total (plan : Plan) (fn : Nat) (allows : String → List C.Expr → Prop)
    (hallows : ∀ fn args, Engine.isOrdinary fn ∨ fn = Engine.newFunction → allows fn args)
    (final : CNames → Prop) (hfinal : ∀ {t t' : CNames}, t.Le t' → final t' → final t)
    (faults : Fault → Prop) (hfaults : ∀ f, ¬f.IsFrame → faults f) : Calls where
  plan := plan
  fn := fn
  allows := allows
  final := final
  faults := faults
  reaches _ := True
  makes _ := True
  final_of_le := hfinal
  faults_of_other f _ hf := hfaults f hf
  faults_capture _ _ _ _ f hf := hfaults f hf.not_isFrame
  reaches_zero _ _ := trivial
  makes_zero _ _ := trivial
  reaches_captures _ _ _ _ := trivial
  allows_ordinary fn args h := hallows fn args (.inl h)
  allows_function _ _ _ _ _ := hallows _ _ (.inr rfl)

structure Setting extends Calls where
  reads : String → Prop
  isFull : Prop
  reserved : Option Nat
  stack : Nat
  shows : Frames → Prop
  caches : Nat → Prop
  shows_of_subset : ∀ {f f' : Frames}, f.names ⊆ f'.names → shows f' → shows f
  reads_fixed : ∀ text, C.isFixed text = true → reads text
  caches_zero : ∀ slot, plan.analysis.slots.get? 0 = some slot → caches slot
  reads_slot : ∀ slot, caches slot → reads (slotText slot ++ ".shape_id") ∧
    reads (slotText slot ++ ".index") ∧ reads ("&" ++ slotText slot)
  reads_function : ∀ child, makes child → reads (plan.analysis.bindings.function child).cname
  reads_cell : ∀ d text, reaches d →
    IsCell plan.analysis.bindings fn (fun d name => ∃ t, final t ∧ CNames.name? t d = some name) d
      (.var text) → reads text
  reads_storage : ∀ d text, reaches d →
    IsStorage plan.analysis.bindings fn (fun d name => ∃ t, final t ∧
      CNames.name? t d = some name) d
      text → reads text
  reads_temporary : ∀ f stem (id : Nat), shows f → stem ∈ C.stems →
    temporaryName stem id ∈ f.names →
    reads (temporaryName stem id) ∧ reads ("&" ++ temporaryName stem id)

def Calls.setting (K : Calls) (isFull : Prop := False)
    (reserved : Option Nat := none) : Setting where
  __ := K
  reads _ := True
  isFull := isFull
  reserved := reserved
  stack := 0
  shows _ := True
  caches _ := True
  shows_of_subset _ _ := trivial
  reads_fixed _ _ := trivial
  caches_zero _ _ := trivial
  reads_slot _ _ := ⟨trivial, trivial, trivial⟩
  reads_function _ _ := trivial
  reads_cell _ _ _ _ := trivial
  reads_storage _ _ _ _ := trivial
  reads_temporary _ _ _ _ _ _ := ⟨trivial, trivial⟩

namespace Setting

open C.Expr (isQuiet traces Obeys AllObey Step Steps)

variable (S : Setting)

abbrev bindings : Bindings := S.plan.analysis.bindings

abbrev function : Function := S.bindings.function S.fn

abbrev thisOwner : Function := S.bindings.function (S.bindings.thisOwner S.fn)

def Named (d : Nat) (name : String) : Prop := ∃ t, S.final t ∧ t.name? d = some name

def rules (slot : Nat) : C.Expr.Rules where
  allows fn args := S.allows fn args ∧
    ∀ high ∈ S.reserved, isQuiet fn ∨ (C.Expr.call fn args).traces .path ≤ areas slot high
  applies fn args :=
    ∀ high ∈ S.reserved, (C.Expr.callPtr fn args).traces .path ≤ areas slot high
  reads := S.reads
  targets e v := (∀ high ∈ S.reserved, e.slot? = none) ∧ e.KeepsCells v
  rows list :=
    ∃ high ∈ S.reserved, 1 < list.length ∧ (list.map (traces .path)).prod ≤ areas slot high
  isFull := S.isFull

abbrev Part (e : C.Expr) : Prop := e.Obeys (S.rules S.stack)

abbrev Parts (list : List C.Expr) : Prop := AllObey (S.rules S.stack) list

abbrev Step (e : C.Expr) : Prop := C.Expr.Step (S.rules S.stack) e

abbrev Steps (list : List C.Expr) : Prop := C.Expr.Steps (S.rules S.stack) list

def shifted (slot : Nat) : Setting := { S with stack := slot }

variable {S} {slot high : Nat} {e x y : C.Expr} {l pre stores post : List C.Expr}

@[simp]
theorem rules_reads {text : String} : (S.rules slot).reads text ↔ S.reads text := .rfl

@[simp]
theorem rules_allows {fn : String} (h : Engine.isOrdinary fn && isQuiet fn) :
    (S.rules slot).allows fn l := by
  rw [Bool.and_eq_true] at h
  exact ⟨S.allows_ordinary fn l h.1, fun _ _ => .inl h.2⟩

theorem not_rows (h : S.reserved = none) (list : List C.Expr) : ¬(S.rules slot).rows list := by
  simp [rules, h]

@[simp]
theorem targets_raw {text : String} {c : Bool} (h : C.isCellName text.toList = false) :
    (S.rules slot).targets (.raw text c) x :=
  ⟨fun _ _ => rfl, C.Expr.keepsCells_raw h⟩

@[simp]
theorem targets_field {name : String} {arrow : Bool} :
    (S.rules slot).targets (.field e name arrow) x :=
  ⟨fun _ _ => rfl, trivial⟩

@[simp]
theorem targets_element {name : String} {arrow : Bool} :
    (S.rules slot).targets (.index (.field e name arrow) x) y :=
  ⟨fun _ _ => rfl, trivial⟩

@[simp]
theorem reads_env : S.reads "env" := S.reads_fixed _ (by decide)

@[simp]
theorem reads_stack : S.reads "stk_ptr" := S.reads_fixed _ (by decide)

theorem traces_le (hhigh : high ∈ S.reserved) (h : e.Obeys (S.rules slot)) :
    e.traces .path ≤ areas slot high := by
  refine C.Expr.Obeys.traces_le (R := S.rules slot) (fun _ _ h => h.2 high hhigh)
    (fun _ _ h => h high hhigh) (fun _ _ h => h.1 high hhigh) ?_ h
  rintro list ⟨high', hhigh', -, hle⟩
  rwa [Option.mem_unique hhigh hhigh']

theorem prod_le (hhigh : high ∈ S.reserved) (h : C.Expr.Steps (S.rules slot) l) :
    (l.map (traces .path)).prod ≤ areas slot high := by
  refine prod_le_areas fun y hy => ?_
  obtain ⟨e, he, rfl⟩ := List.mem_map.1 hy
  rcases h e he with rfl | hobeys
  . exact one_le_areas
  . exact traces_le hhigh hobeys

-- Where slots matter, a row of more than one element is judged by all that runs in it.
theorem part_comma (hl : S.Steps l) (hfull : S.isFull → ∃ e ∈ l, S.Part e) : S.Part (.comma l) := by
  refine C.Expr.obeys_comma ?_ fun h => ?_
  . cases hr : S.reserved with
    | none =>
      refine .inr (C.Expr.allObey_flatMap ?_ hl)
      rintro list - ⟨high, hhigh, -⟩
      simp [hr] at hhigh
    | some high =>
      by_cases hlen : 1 < (l.flatMap C.Expr.elements).length
      . exact .inl ⟨⟨high, hr, hlen, C.Expr.prod_traces_flatMap.trans_le (prod_le hr hl)⟩, hlen⟩
      . refine .inr (C.Expr.allObey_flatMap ?_ hl)
        rintro list hlist ⟨-, -, hlong, -⟩
        have hshort : list.length ≤ (l.flatMap C.Expr.elements).length :=
          (List.sublist_flatten_of_mem (List.mem_map_of_mem (f := C.Expr.elements) hlist)).length_le
        exact hlen (hlong.trans_le hshort)
  . obtain ⟨e, he, hpart⟩ := hfull h
    exact C.Expr.flatMap_elements_ne_nil h he hpart

theorem part_comma_at (hl : S.Steps pre) (he : S.Part e) (hpost : S.Steps post) :
    S.Part (.comma (pre ++ e :: post)) :=
  part_comma (List.forall_mem_append.2 ⟨hl, List.forall_mem_cons.2 ⟨he.step, hpost⟩⟩)
    fun _ => ⟨e, by simp, he⟩

theorem part_comma_last (hl : S.Steps l) (he : S.Part e) : S.Part (.comma (l ++ [e])) :=
  part_comma_at hl he (by simp)

@[simp]
theorem part_pair (hx : S.Part x) (he : S.Part e) : S.Part (.comma [x, e]) :=
  part_comma_last (l := [x]) (by simp [hx]) he

/-! Calls with their arguments in slots -/

inductive Stored (S : Setting) : Nat → List C.Expr → Prop where
  | nil {slot : Nat} : S.Stored slot []
  | cons {slot : Nat} {x : C.Expr} {l : List C.Expr} (hx : x.Obeys (S.rules slot))
    (hl : S.Stored (slot + 1) l) : S.Stored slot (.set (callSlot slot) x :: l)

structure Placed (S : Setting) (count : Nat) (stores : List C.Expr) : Prop where
  stored : S.Stored (S.stack + 1) stores
  length : stores.length = count
  room : ∀ high ∈ S.reserved, S.stack + 1 + count ≤ high

structure Hands (S : Setting) (count : Nat) (e : C.Expr) : Prop where
  traces : e.traces .path = {[.pass S.stack count]}
  single : e.elements = [e]
  part : (∀ high ∈ S.reserved, e.traces .path ≤ areas S.stack high) → S.Part e

theorem Stored.fills (h : S.Stored slot l) (hhigh : high ∈ S.reserved)
    (hroom : slot + l.length ≤ high) : (l.map (C.Expr.traces .path)).prod ≤ filling high
      slot l.length := by
  induction h with
  | nil => exact one_le_filling
  | cons hx _ ih =>
    rw [List.length_cons] at hroom
    rw [List.map_cons, List.prod_cons, traces_set_callSlot, mul_assoc]
    exact mul_le_filling (traces_le hhigh hx) (by omega) (ih (by omega))

theorem Stored.length_le (h : S.Stored slot l) : l.length ≤ (l.flatMap C.Expr.elements).length := by
  induction h with
  | nil => exact Nat.le_refl _
  | cons _ _ ih => simpa [C.Expr.elements, C.Expr.set] using ih

theorem Stored.parts (h : S.Stored slot l) (hr : S.reserved = none) : S.Parts l := by
  have hsame : ∀ slot, S.rules slot = S.rules S.stack := by simp [rules, hr]
  induction h with
  | nil => trivial
  | cons hx _ ih =>
    refine ⟨⟨⟨by simp [hr], trivial⟩, ?_, hsame _ ▸ hx⟩, ih⟩
    simp [callSlot, C.Expr.var, C.Expr.nat, C.Expr.lit]

theorem part_row {count : Nat} (hpre : S.Steps l) (hstores : S.Placed count stores)
    (he : S.Hands count e) (hpost : S.Steps post) :
      S.Part (.comma (l ++ (stores ++ e :: post))) := by
  obtain ⟨hstored, rfl, hroom⟩ := hstores
  have hplain (hs : S.Parts stores) (he : S.Part e) :
      S.Part (.comma (l ++ (stores ++ e :: post))) := by
    rw [← List.append_assoc]
    exact part_comma_at (List.forall_mem_append.2 ⟨hpre, hs.steps⟩) he hpost
  cases hr : S.reserved with
  | none => exact hplain (hstored.parts hr) (he.part (by simp [hr]))
  | some high =>
    have hpass : (stores.map (C.Expr.traces .path)).prod * e.traces .path ≤ areas S.stack high := by
      rw [he.traces]
      exact filling_pass (Nat.le_refl _) (hroom high hr) (hstored.fills hr (hroom high hr))
    by_cases hnil : stores = []
    . subst hnil
      refine hplain trivial (he.part fun high' hhigh' => ?_)
      rw [← Option.mem_unique hr hhigh']
      simpa using hpass
    . have hlen : 1 < ((l ++ (stores ++ e :: post)).flatMap C.Expr.elements).length := by
        have := hstored.length_le
        have := List.length_pos_iff.2 hnil
        simp only [List.flatMap_append, List.flatMap_cons, he.single, List.length_append,
          List.length_cons, List.length_nil]
        omega
      refine C.Expr.obeys_comma (.inl ⟨⟨high, hr, hlen, ?_⟩, hlen⟩) fun _ => ?_
      . refine C.Expr.prod_traces_flatMap.trans_le ?_
        rw [List.map_append, List.prod_append, List.map_append, List.prod_append, List.map_cons,
          List.prod_cons, ← mul_assoc (List.prod _) (e.traces .path)]
        exact mul_le_areas (prod_le hr hpre) (mul_le_areas hpass (prod_le hr hpost))
      . exact List.ne_nil_of_length_pos (Nat.lt_trans Nat.zero_lt_one hlen)

end Setting
end Lower
end ScriptC
