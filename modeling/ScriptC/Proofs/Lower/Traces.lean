import Mathlib.Algebra.BigOperators.Group.List.Basic
import Mathlib.Computability.Language
import Mathlib.Order.CompletePartialOrder
import ScriptC.Proofs.Lower.Code

/-!
What the code of an expression can be seen to do: the rows of events that running it may give, as a
language. Any branch of a condition may be taken, and operands whose order C leaves open may run in
any order.
-/

namespace ScriptC

inductive Event where
  | done (id : Nat)
  | store (slot : Nat)
  | pass (base count : Nat)
  deriving DecidableEq, Repr

inductive View where
  | path
  | whole
  deriving DecidableEq

def View.seen : View → List Event → List Event
  | .path, l => l
  | .whole, l => l.filter fun
    | .done _ => true
    | _ => false

section Order

variable {α : Type} {x y : Language α} {l l' : List (Language α)}

def anyOrder (l : List (Language α)) : Language α :=
  ⨆ p : { l' : List (Language α) // l'.Perm l }, p.1.prod

theorem mem_anyOrder {w : List α} :
    w ∈ anyOrder l ↔ ∃ m : List (Language α), m.Perm l ∧ w ∈ m.prod := by
  unfold anyOrder
  rw [Language.mem_iSup, Subtype.exists]
  simp only [exists_prop]

theorem anyOrder_perm (h : l.Perm l') : anyOrder l = anyOrder l' := by
  ext w
  rw [mem_anyOrder, mem_anyOrder]
  constructor
  . rintro ⟨m, hm, hw⟩
    exact ⟨m, hm.trans h, hw⟩
  . rintro ⟨m, hm, hw⟩
    exact ⟨m, hm.trans h.symm, hw⟩

@[simp]
theorem anyOrder_nil : anyOrder ([] : List (Language α)) = 1 := by
  ext w
  simp [mem_anyOrder]

@[simp]
theorem anyOrder_singleton : anyOrder [x] = x := by
  ext w
  simp [mem_anyOrder]

@[simp]
theorem anyOrder_one_cons : anyOrder (1 :: l) = anyOrder l := by
  ext w
  rw [mem_anyOrder, mem_anyOrder]
  constructor
  . rintro ⟨m, hm, hw⟩
    obtain ⟨a, b, rfl⟩ := List.append_of_mem (hm.symm.subset List.mem_cons_self)
    refine ⟨a ++ b, ?_, ?_⟩
    . exact (List.perm_middle.symm.trans hm).cons_inv
    . simpa using hw
  . rintro ⟨m, hm, hw⟩
    exact ⟨1 :: m, hm.cons 1, by simpa using hw⟩

@[simp]
theorem anyOrder_cons_one : anyOrder (x :: 1 :: l) = anyOrder (x :: l) := by
  rw [anyOrder_perm (List.Perm.swap 1 x l), anyOrder_one_cons]

@[simp]
theorem anyOrder_cons_cons_one : anyOrder (x :: y :: 1 :: l) = anyOrder (x :: y :: l) := by
  rw [anyOrder_perm ((List.Perm.swap 1 y l).cons x), anyOrder_cons_one]

theorem anyOrder_ones (h : ∀ z ∈ l, z = 1) : anyOrder l = 1 := by
  induction l with
  | nil => simp
  | cons z l ih =>
    rw [h z List.mem_cons_self, anyOrder_one_cons]
    exact ih fun z hz => h z (List.mem_cons_of_mem _ hz)

end Order

def View.ways (v : View) (x y : Language Event) : Language Event :=
  match v with
  | .path => x + y
  | .whole => x + y + x * y

namespace View

variable {v : View} {x y z : Language Event}

@[simp]
theorem ways_one_left : v.ways 1 x = 1 + x := by
  cases v <;> simp [ways, add_assoc]

@[simp]
theorem ways_one_right : v.ways x 1 = 1 + x := by
  cases v with
  | path => exact add_comm x 1
  | whole => rw [ways, mul_one, add_assoc, add_comm 1 x, ← add_assoc, Language.add_self, add_comm]

-- Both branches hand over an area, and only one of them is taken.
theorem ways_pass (v : View) (base count : Nat) :
    v.ways {v.seen [.pass base count]} {v.seen [.pass base count]} =
      ({v.seen [.pass base count]} : Language Event) := by
  cases v with
  | path => exact Language.add_self _
  | whole =>
    change View.whole.ways 1 1 = 1
    simp

end View

namespace C.Expr

def numeral (text : String) : Nat := Nat.ofDigitChars 10 text.toList 0

@[simp]
theorem numeral_repr (n : Nat) : numeral n.repr = n := by
  unfold numeral
  rw [Nat.repr_eq_ofList_toDigits, String.toList_ofList, Nat.ofDigitChars_ten_toDigits]

def noteName : String := "@"

def slot? : Expr → Option Nat
  | .index (.raw "stk_ptr" false) (.raw k true) => some (numeral k)
  | _ => none

def area? : Expr → Option Nat
  | .raw "stk_ptr" false => some 0
  | .binary "+" (.raw "stk_ptr" false) (.raw k true) => some (numeral k)
  | _ => none

def areaIndex? (fn : String) : Option Nat :=
  if fn == Engine.callValue || fn == Engine.callWith then some 3
  else if fn == Engine.callGlobal || fn == Engine.construct then some 2
  else none

def passed (args : List Expr) (i : Nat) : List Event :=
  match args[i]?.bind area?, args[i + 1]? with
  | some b, some (.raw n true) => [.pass b (numeral n)]
  | _, _ => []

def callEvents (fn : String) (args : List Expr) : List Event :=
  if fn == noteName then
    match args with
    | .raw id true :: _ => [.done (numeral id)]
    | _ => []
  else
    match areaIndex? fn with
    | some i => passed args i
    | none => []

def storeEvents (target : Expr) : List Event :=
  match target.slot? with
  | some k => [.store k]
  | none => []

def isLazy (op : String) : Bool := op == "&&" || op == "||"

mutual

def traces (v : View) : Expr → Language Event
  | .missing | .raw _ _ => 1
  | .call fn args => anyOrder (tracesList v args) * {v.seen (callEvents fn args)}
  | .callPtr fn args => anyOrder (fn.traces v :: tracesList v args) * {v.seen (passed args 3)}
  | .seq list => (tracesList v list).prod
  | .cond test x y => test.traces v * v.ways (x.traces v) (y.traces v)
  | .assign target _ x => anyOrder [target.traces v, x.traces v] * {v.seen (storeEvents target)}
  | .binary op x y =>
    if isLazy op then x.traces v * (1 + y.traces v) else anyOrder [x.traces v, y.traces v]
  | .index x i => anyOrder [x.traces v, i.traces v]
  | .unary _ x | .field x _ _ | .likely x _ | .cast _ x | .bits _ x | .pointer _ x => x.traces v

def tracesList (v : View) : List Expr → List (Language Event)
  | [] => []
  | e :: rest => e.traces v :: tracesList v rest

end

variable {v : View} {e x y : Expr} {l l' : List Expr}

@[simp]
theorem tracesList_eq_map : tracesList v l = l.map (traces v) := by
  induction l with
  | nil => rfl
  | cons e l ih =>
    change e.traces v :: tracesList v l = _
    rw [ih, List.map_cons]

@[simp]
theorem traces_missing : (missing).traces v = 1 := rfl

@[simp]
theorem traces_raw {text : String} {c : Bool} : (raw text c).traces v = 1 := rfl

theorem traces_call {fn : String} :
    (call fn l).traces v = anyOrder (l.map (traces v)) * {v.seen (callEvents fn l)} := by
  rw [← tracesList_eq_map]
  rfl

theorem traces_callPtr :
    (callPtr x l).traces v =
      anyOrder (x.traces v :: l.map (traces v)) * {v.seen (passed l 3)} := by
  rw [← tracesList_eq_map]
  rfl

theorem traces_seq : (seq l).traces v = (l.map (traces v)).prod := by
  rw [← tracesList_eq_map]
  rfl

@[simp]
theorem traces_cond : (cond e x y).traces v = e.traces v * v.ways (x.traces v) (y.traces v) :=
  rfl

theorem traces_assign {op : String} :
    (assign x op y).traces v =
      anyOrder [x.traces v, y.traces v] * {v.seen (storeEvents x)} :=
  rfl

@[simp]
theorem traces_binary {op : String} (h : isLazy op = false) :
    (binary op x y).traces v = anyOrder [x.traces v, y.traces v] := by
  change (if isLazy op then _ else _) = _
  rw [h]
  rfl

theorem traces_lazy {op : String} (h : isLazy op = true) :
    (binary op x y).traces v = x.traces v * (1 + y.traces v) := by
  change (if isLazy op then _ else _) = _
  rw [h]
  rfl

@[simp]
theorem traces_index : (index x y).traces v = anyOrder [x.traces v, y.traces v] := rfl

@[simp]
theorem traces_unary {op : String} : (unary op x).traces v = x.traces v := rfl

@[simp]
theorem traces_field {name : String} {arrow : Bool} : (field x name arrow).traces v = x.traces v :=
  rfl

@[simp]
theorem traces_likely {unlikely : Bool} : (likely x unlikely).traces v = x.traces v := rfl

@[simp]
theorem traces_cast {type : String} : (cast type x).traces v = x.traces v := rfl

@[simp]
theorem traces_bits {test : Engine.BitTest} : (bits test x).traces v = x.traces v := rfl

@[simp]
theorem traces_pointer {type : String} : (pointer type x).traces v = x.traces v := rfl

@[simp]
theorem singleton_seen_nil : ({v.seen []} : Language Event) = 1 := by
  cases v <;> rfl

def isQuiet (fn : String) : Bool := fn != noteName && (areaIndex? fn).isNone

theorem callEvents_of_isQuiet {fn : String} (h : isQuiet fn) : callEvents fn l = [] := by
  simp only [isQuiet, Bool.and_eq_true, bne_iff_ne, ne_eq, Option.isNone_iff_eq_none] at h
  simp [callEvents, h.1, h.2]

@[simp]
theorem traces_call_of_isQuiet {fn : String} (h : isQuiet fn) :
    (call fn l).traces v = anyOrder (l.map (traces v)) := by
  simp [traces_call, callEvents_of_isQuiet h]

@[simp]
theorem traces_assign_raw {text op : String} {c : Bool} :
    (assign (.raw text c) op y).traces v = y.traces v := by
  simp [traces_assign, storeEvents, slot?]

@[simp]
theorem traces_assign_element {op : String} {i : Expr} {name : String} {arrow : Bool} :
    (assign (.index (.field e name arrow) i) op x).traces v =
      anyOrder [anyOrder [e.traces v, i.traces v], x.traces v] := by
  simp [traces_assign, storeEvents, slot?]

@[simp]
theorem traces_assign_field {op : String} {name : String} {arrow : Bool} :
    (assign (.field e name arrow) op x).traces v = anyOrder [e.traces v, x.traces v] := by
  simp [traces_assign, storeEvents, slot?]

theorem prod_traces_elements : (e.elements.map (traces v)).prod = e.traces v := by
  cases e <;> simp [elements, traces_seq]

@[simp]
theorem prod_traces_flatMap :
    ((l.flatMap elements).map (traces v)).prod = (l.map (traces v)).prod := by
  induction l with
  | nil => simp
  | cons e l ih =>
    rw [List.flatMap_cons, List.map_append, List.prod_append, ih, prod_traces_elements,
      List.map_cons, List.prod_cons]

@[simp]
theorem traces_comma : (comma l).traces v = (l.map (traces v)).prod := by
  rw [← prod_traces_flatMap]
  unfold comma
  split
  . next e h => simp [h]
  . rw [traces_seq]

theorem traces_eq_one_of_isConstant : ∀ {e : Expr}, e.isConstant → e.traces v = 1
  | .raw .., _ => traces_raw
  | .call fn args, h => by
    simp only [isConstant, Bool.and_eq_true, beq_iff_eq] at h
    rw [h.1, traces_call_of_isQuiet (by decide)]
    exact anyOrder_ones (allConst_ones h.2)
  | .unary _ x, h => by
    simp only [isConstant] at h
    rw [traces_unary]
    exact traces_eq_one_of_isConstant h
  | .binary op x y, h => by
    simp only [isConstant, Bool.and_eq_true] at h
    have hx : x.traces v = 1 := traces_eq_one_of_isConstant h.1
    have hy : y.traces v = 1 := traces_eq_one_of_isConstant h.2
    cases hop : isLazy op with
    | false => simp [traces_binary hop, hx, hy]
    | true => simp [traces_lazy hop, hx, hy]
  | .cast _ x, h => by
    simp only [isConstant] at h
    rw [traces_cast]
    exact traces_eq_one_of_isConstant h
where
  allConst_ones : ∀ {args : List Expr}, allConst args → ∀ z ∈ args.map (traces v), z = 1
    | [], _, z, hz => by simp at hz
    | e :: rest, h, z, hz => by
      simp only [allConst, Bool.and_eq_true] at h
      rcases List.mem_cons.1 hz with rfl | hz
      . exact traces_eq_one_of_isConstant h.1
      . exact allConst_ones h.2 z hz

end C.Expr

namespace Lower

open C.Expr

variable {v : View} {e x y : C.Expr} {l : List C.Expr}

@[simp]
theorem traces_callSlot {k : Nat} : (callSlot k).traces v = 1 := by
  simp [callSlot, var, nat, lit]

@[simp]
theorem slot?_callSlot {k : Nat} : (callSlot k).slot? = some k := by
  simp [callSlot, slot?, var, nat, lit]

@[simp]
theorem traces_callArea {k : Nat} : (callArea k).traces v = 1 := by
  unfold callArea
  split
  . simp [var]
  . rw [traces_binary rfl]
    simp [var, nat, lit]

@[simp]
theorem area?_callArea {k : Nat} : (callArea k).area? = some k := by
  unfold callArea
  split
  . next h => simpa [area?, var] using Eq.symm (by simpa using h)
  . simp [area?, var, nat, lit]

theorem callEvents_of_areaIndex? {fn : String} {i : Nat} (hfn : (fn == noteName) = false)
    (hi : areaIndex? fn = some i) : callEvents fn l = passed l i := by
  simp [callEvents, hfn, hi]

theorem callEvents_callGlobal {b n : Nat} :
    callEvents Engine.callGlobal [.env, x, callArea b, .nat n] = [.pass b n] := by
  rw [callEvents_of_areaIndex? (by decide) (by decide : areaIndex? Engine.callGlobal = some 2)]
  simp [passed]

theorem callEvents_construct {b n : Nat} :
    callEvents Engine.construct [.env, x, callArea b, .nat n, y] = [.pass b n] := by
  rw [callEvents_of_areaIndex? (by decide) (by decide : areaIndex? Engine.construct = some 2)]
  simp [passed]

theorem callEvents_callWith {b n : Nat} :
    callEvents Engine.callWith [.env, x, y, callArea b, .nat n] = [.pass b n] := by
  rw [callEvents_of_areaIndex? (by decide) (by decide : areaIndex? Engine.callWith = some 3)]
  simp [passed]

theorem callEvents_callValue {b n : Nat} :
    callEvents Engine.callValue [.env, x, y, callArea b, .nat n, e] = [.pass b n] := by
  rw [callEvents_of_areaIndex? (by decide) (by decide : areaIndex? Engine.callValue = some 3)]
  simp [passed]

theorem traces_callDirect {f this : C.Expr} {b n : Nat} (hf : f.traces v = 1)
    (hthis : this.traces v = 1) :
    (C.Expr.callPtr (.call Engine.functionPointer [f])
      [.env, f, this, callArea b, .nat n]).traces v = {v.seen [.pass b n]} := by
  rw [traces_callPtr]
  simp +decide [passed, hf, hthis]

theorem traces_callValue {f this name : C.Expr} {b n : Nat} (hf : f.traces v = 1)
    (hthis : this.traces v = 1) (hname : name.traces v = 1) :
    (C.Expr.callEnv Engine.callValue [f, this, callArea b, .nat n, name]).traces v =
      {v.seen [.pass b n]} := by
  rw [C.Expr.callEnv, traces_call, callEvents_callValue]
  simp [hf, hthis, hname]

theorem traces_callInPlace {f this name : C.Expr} {b n : Nat} (hf : f.traces v = 1)
    (hthis : this.traces v = 1) (hname : name.traces v = 1) :
    (callInPlace f this name b n).traces v = {v.seen [.pass b n]} := by
  unfold callInPlace
  dsimp only
  rw [traces_cond, traces_callDirect hf hthis, traces_callValue hf hthis hname, View.ways_pass]
  simp +decide [hf]

theorem traces_set_callSlot {k : Nat} :
    (C.Expr.set (callSlot k) x).traces v = x.traces v * {v.seen [.store k]} := by
  simp [C.Expr.set, traces_assign, storeEvents]

end Lower
end ScriptC
