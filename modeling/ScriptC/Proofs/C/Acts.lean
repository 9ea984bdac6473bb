import Mathlib.Data.Set.Functor
import ScriptC.Proofs.Lower.Code

/-!
What evaluating C expressions can do. A variable is read and stored to; a call may change every
variable that is not the code's own, and may raise an exception; the order in which the operands of
one operator are evaluated is open.
-/

namespace ScriptC.C

inductive Operator where
  | call (fn : String)
  | callPtr
  | assign (op : String)
  | binary (op : String)
  | unary (op : String)
  | index
  | field (name : String) (arrow : Bool)
  | cast (type : String)
  | bits (test : Engine.BitTest)
  | pointer (type : String)

def Operator.isPure : Operator → Bool
  | .call fn => fn == Engine.makeNumber
  | .binary _ | .unary _ | .cast _ => true
  | _ => false

/-- The meaning of variables, constants and the operators that only compute. -/
structure Meaning (V : Type) where
  isOwn : String → Bool
  constant : String → V
  compute : Operator → List V → V
  isTrue : V → Bool

inductive Effect (V : Type) where
  | stored (name : String) (v : V)
  | ran (op : Operator) (args : List V) (result : Except Unit V) (after : String → V)

structure World (V : Type) where
  vars : String → V
  effects : List (Effect V)

abbrev Outer (V : Type) := ExceptT Unit (StateT (World V) SetM)

/--
What an evaluation can do that has temporaries of its own. An exception leaves the code, so they do
not matter then.
-/
abbrev Act (V : Type) := StateT (String → V) (Outer V)

namespace Act

variable {V α β : Type}

def inOrderOf : List Nat → List (Act V α) → Act V (List α)
  | [], l => l.mapM id
  | i :: order, l =>
    match l[i]? with
    | none => inOrderOf order l
    | some x => do
      let a ← x
      return (← inOrderOf order (l.eraseIdx i)).insertIdx i a

def choice (α : Type) : SetM α := (Set.univ : Set α)

theorem choice_bind [Nonempty α] {s : SetM β} : (choice α >>= fun _ => s) = s :=
  (Set.biUnion_univ fun _ => s.run).trans (Set.iUnion_const s.run)

def inAnyOrder (l : List (Act V α)) : Act V (List α) := do
  inOrderOf (← StateT.lift (ExceptT.lift (StateT.lift (choice (List Nat))))) l

/-! Acts that can change places -/

def Commute (x : Act V α) (y : Act V β) : Prop :=
  ∀ (γ : Type) (k : α → β → Act V γ),
    (x >>= fun a => y >>= fun b => k a b) = y >>= fun b => x >>= fun a => k a b

theorem Commute.symm {x : Act V α} {y : Act V β} (h : Commute x y) : Commute y x :=
  fun _ k => (h _ fun a b => k b a).symm

theorem commute_pure {a : α} {y : Act V β} : Commute (pure a) y := by
  intro γ k
  simp

theorem Commute.bind {γ : Type} {x : Act V α} {y : Act V β} {f : β → Act V γ} (hy : Commute x y)
    (hf : ∀ b, Commute x (f b)) : Commute x (y >>= f) := by
  intro δ k
  simp only [bind_assoc]
  rw [hy]
  congr 1
  funext b
  exact hf b _ k

theorem Commute.mapM {γ : Type} {x : Act V β} {f : γ → Act V α} {l : List γ}
    (h : ∀ c ∈ l, Commute x (f c)) : Commute x (l.mapM f) := by
  induction l with
  | nil => exact commute_pure.symm
  | cons y l ih =>
    rw [List.forall_mem_cons] at h
    rw [List.mapM_cons]
    exact h.1.bind fun a => (ih h.2).bind fun as => commute_pure.symm

theorem mapM_eq {l : List (Act V α)} {i : Nat} {x : Act V α} (hx : l[i]? = some x)
    (h : ∀ y ∈ l.take i, Commute y x) :
    l.mapM id = do
      let a ← x
      return (← (l.eraseIdx i).mapM id).insertIdx i a := by
  induction l generalizing i with
  | nil => simp at hx
  | cons y l ih =>
    cases i with
    | zero =>
      obtain rfl : y = x := by simpa using hx
      simp
    | succ i =>
      rw [List.take_succ_cons, List.forall_mem_cons] at h
      rw [List.mapM_cons, ih (by simpa using hx) h.2]
      simp only [bind_assoc, pure_bind, List.eraseIdx_cons_succ, List.mapM_cons, id]
      rw [h.1]
      simp

theorem inOrderOf_eq (order : List Nat) {l : List (Act V α)} (h : l.Pairwise Commute) :
    inOrderOf order l = l.mapM id := by
  induction order generalizing l with
  | nil => rfl
  | cons i order ih =>
    rw [inOrderOf]
    split
    . exact ih h
    . next x hx =>
      rw [ih (h.sublist (List.eraseIdx_sublist l i)), ← mapM_eq hx]
      intro y hy
      rw [← List.take_append_drop i l, List.pairwise_append] at h
      refine h.2.2 y hy x (List.mem_of_getElem? (i := 0) ?_)
      rw [List.getElem?_drop]
      exact hx

theorem inAnyOrder_eq {l : List (Act V α)} (h : l.Pairwise Commute) :
    inAnyOrder l = l.mapM id := by
  simp only [inAnyOrder, inOrderOf_eq _ h]
  ext own w
  simp [choice_bind]

/-! Variables -/

variable {M : Meaning V} {x : Act V α} {name : String} {v : V}

def reading (f : (String → V) → (String → V) → α) : Act V α := do
  let own ← get
  StateT.lift (ExceptT.lift (modifyGet fun w => (f own w.vars, w)))

def read (M : Meaning V) (name : String) : Act V V :=
  reading fun own vars => if M.isOwn name then own name else vars name

def store (M : Meaning V) (name : String) (v : V) : Act V Unit :=
  if M.isOwn name then modify (Function.update · name v)
  else StateT.lift (ExceptT.lift (modifyGet fun w =>
    ((), ⟨Function.update w.vars name v, w.effects ++ [.stored name v]⟩)))

def perform (op : Operator) (args : List V) : Act V V :=
  StateT.lift (ExceptT.mk do
    let p ← StateT.lift (choice (Except Unit V × (String → V)))
    modify fun w => ⟨p.2, w.effects ++ [.ran op args p.1 p.2]⟩
    return p.1)

theorem commute_reading {f : (String → V) → (String → V) → α}
    {g : (String → V) → (String → V) → β} :
    Commute (reading f) (reading g) := by
  intro γ k
  ext own
  simp [reading]

def Blind (x : Act V α) : Prop := ∃ y : Outer V α, x = StateT.lift y

theorem blind_pure (a : α) : Blind (pure a : Act V α) :=
  ⟨pure a, by ext; simp⟩

theorem Blind.bind {f : α → Act V β} (hx : Blind x) (hf : ∀ a, Blind (f a)) : Blind (x >>= f) := by
  obtain ⟨y, rfl⟩ := hx
  choose g hg using hf
  exact ⟨y >>= g, by ext; simp [hg]⟩

theorem Blind.mapM {f : β → Act V α} {l : List β} (h : ∀ b ∈ l, Blind (f b)) :
    Blind (l.mapM f) := by
  induction l with
  | nil => exact blind_pure []
  | cons x l ih =>
    rw [List.forall_mem_cons] at h
    rw [List.mapM_cons]
    exact h.1.bind fun a => (ih h.2).bind fun as => blind_pure _

theorem Blind.inAnyOrder {l : List (Act V α)} (h : ∀ x ∈ l, Blind x) : Blind (inAnyOrder l) := by
  refine Blind.bind ⟨_, rfl⟩ fun order => ?_
  induction order generalizing l with
  | nil => exact .mapM h
  | cons i order ih =>
    rw [inOrderOf]
    split
    . exact ih h
    . next x hx =>
      refine (h x (List.mem_of_getElem? hx)).bind fun a => Blind.bind (ih ?_) fun as => blind_pure _
      exact fun y hy => h y ((List.eraseIdx_sublist l i).subset hy)

theorem blind_read (h : M.isOwn name = false) : Blind (read M name) := by
  refine ⟨ExceptT.lift (modifyGet fun w => (w.vars name, w)), ?_⟩
  ext own
  simp [read, reading, h]

theorem blind_store (h : M.isOwn name = false) : Blind (store M name v) := by
  rw [store, if_neg (by simp [h])]
  exact ⟨_, rfl⟩

theorem Blind.commute {f : (String → V) → β × (String → V)} (hx : Blind x) :
    Commute (modifyGet f) x := by
  obtain ⟨y, rfl⟩ := hx
  intro γ k
  ext own
  simp

end Act

namespace Meaning

open Act

variable {V : Type}

def apply (M : Meaning V) (op : Operator) (args : List V) : Act V V :=
  if op.isPure then return M.compute op args else perform op args

def truth (M : Meaning V) (b : Bool) : V := M.constant (if b then "1" else "0")

def assign (M : Meaning V) (target : Expr) (op : String) (place value : Act V V) : Act V V :=
  match target, op with
  | .raw name false, "=" => do
    let v ← value
    store M name v
    return v
  | _, _ => inAnyOrder [place, value] >>= M.apply (.assign op)

def binary (M : Meaning V) (op : String) (x y : Act V V) : Act V V :=
  match op with
  | "&&" => do
    if M.isTrue (← x) then return M.truth (M.isTrue (← y)) else return M.truth false
  | "||" => do
    if M.isTrue (← x) then return M.truth true else return M.truth (M.isTrue (← y))
  | _ => inAnyOrder [x, y] >>= M.apply (.binary op)

mutual

def eval (M : Meaning V) : Expr → Act V V
  | .missing => return M.constant "0"
  | .raw text isConstant => if isConstant then return M.constant text else read M text
  | .call fn args => inAnyOrder (M.evalAll args) >>= M.apply (.call fn)
  | .callPtr fn args => inAnyOrder (M.eval fn :: M.evalAll args) >>= M.apply .callPtr
  | .seq list => do return (← (M.evalAll list).mapM id).getLastD (M.constant "0")
  | .cond test thenE elseE => do
    if M.isTrue (← M.eval test) then M.eval thenE else M.eval elseE
  | .assign target op value => M.assign target op (M.eval target) (M.eval value)
  | .binary op x y => M.binary op (M.eval x) (M.eval y)
  | .unary op x => do M.apply (.unary op) [← M.eval x]
  | .index x i => inAnyOrder [M.eval x, M.eval i] >>= M.apply .index
  | .field x name arrow => do M.apply (.field name arrow) [← M.eval x]
  | .likely x _ => M.eval x
  | .cast type x => do M.apply (.cast type) [← M.eval x]
  | .bits test x => do M.apply (.bits test) [← M.eval x]
  | .pointer type x => do M.apply (.pointer type) [← M.eval x]

def evalAll (M : Meaning V) : List Expr → List (Act V V)
  | [] => []
  | e :: rest => M.eval e :: M.evalAll rest

end

variable {M : Meaning V} {e : Expr} {list : List Expr}

theorem blind_apply (op : Operator) (args : List V) : Blind (M.apply op args) := by
  unfold apply
  split
  . exact blind_pure _
  . exact ⟨_, rfl⟩

def foreign (M : Meaning V) : Expr.Terms where
  allows _ _ := True
  reads text := M.isOwn text = false
  stores text := M.isOwn text = false
  guards _ := False

theorem blind_assign {target : Expr} {op : String} {place value : Act V V}
    (htarget : target.Target M.foreign) (hplace : Blind place) (hvalue : Blind value) :
    Blind (M.assign target op place value) := by
  unfold assign
  split
  . exact hvalue.bind fun v => (blind_store htarget).bind fun _ => blind_pure v
  . exact (Blind.inAnyOrder (by simp [hplace, hvalue])).bind (blind_apply _)

theorem blind_binary {op : String} {x y : Act V V} (hx : Blind x) (hy : Blind y) :
    Blind (M.binary op x y) := by
  unfold binary
  split
  . refine hx.bind fun v => ?_
    split
    . exact hy.bind fun _ => blind_pure _
    . exact blind_pure _
  . refine hx.bind fun v => ?_
    split
    . exact blind_pure _
    . exact hy.bind fun _ => blind_pure _
  . exact (Blind.inAnyOrder (by simp [hx, hy])).bind (blind_apply _)

theorem blind_eval (h : e.Every M.foreign) : Blind (M.eval e) := by
  induction e using Expr.rec
    (motive_2 := fun l => Expr.EveryOf M.foreign l → ∀ x ∈ M.evalAll l, Blind x) with
  | missing => exact blind_pure _
  | raw text isConstant =>
    rw [eval]
    split
    . exact blind_pure _
    . exact blind_read (h.resolve_left ‹_›)
  | call fn args ih => exact (Blind.inAnyOrder (ih h.2)).bind (blind_apply _)
  | callPtr fn args ihf ih =>
    exact (Blind.inAnyOrder (List.forall_mem_cons.2 ⟨ihf h.1, ih h.2⟩)).bind (blind_apply _)
  | seq list ih => exact (Blind.mapM (ih h)).bind fun _ => blind_pure _
  | cond test thenE elseE ih₁ ih₂ ih₃ =>
    obtain ⟨h₁, h₂, h₃⟩ := h.resolve_left id
    refine (ih₁ h₁).bind fun v => ?_
    split
    . exact ih₂ h₂
    . exact ih₃ h₃
  | assign target op value iht ihv =>
    rw [Expr.every_assign] at h
    refine blind_assign h.1 (iht ?_) (ihv h.2)
    cases target with
    | raw text isConstant =>
      cases isConstant with
      | true => exact .inl rfl
      | false => exact .inr h.1
    | _ => exact h.1
  | binary op x y ihx ihy => exact blind_binary (ihx h.1) (ihy h.2)
  | index x i ihx ihi =>
    exact (Blind.inAnyOrder (by simp [ihx h.1, ihi h.2])).bind (blind_apply _)
  | likely x _ ih => exact ih h
  | unary _ x ih | field x _ _ ih | cast _ x ih | bits _ x ih | pointer _ x ih =>
    exact (ih h).bind fun v => blind_apply _ _
  | nil =>
    rename_i hx
    cases hx
  | cons e rest ih ihs =>
    rename_i h x hx
    exact List.forall_mem_cons.2 ⟨ih h.1, ihs h.2⟩ x hx

theorem inAnyOrder_pure (vs : List V) : inAnyOrder (vs.map (pure : V → Act V V)) = pure vs := by
  rw [inAnyOrder_eq]
  . induction vs with
    | nil => rfl
    | cons v vs ih => simp_all
  . rw [List.pairwise_map]
    exact List.pairwise_of_forall fun _ _ => commute_pure

theorem eval_of_isConstant (h : e.isConstant = true) : ∃ v, M.eval e = pure v := by
  induction e using Expr.rec
    (motive_2 := fun l => Expr.allConst l = true → ∃ vs : List V, M.evalAll l = vs.map pure) with
  | raw text isConstant =>
    obtain rfl : isConstant = true := h
    exact ⟨_, rfl⟩
  | call fn args ih =>
    rw [Expr.isConstant, Bool.and_eq_true, beq_iff_eq] at h
    obtain ⟨vs, hvs⟩ := ih h.2
    refine ⟨M.compute (.call fn) vs, ?_⟩
    rw [eval, hvs, inAnyOrder_pure, pure_bind, apply, if_pos (by simp [Operator.isPure, h.1])]
  | unary op x ih | cast op x ih =>
    obtain ⟨v, hv⟩ := ih h
    exact ⟨_, by rw [eval, hv, pure_bind]; rfl⟩
  | binary op x y ihx ihy =>
    rw [Expr.isConstant, Bool.and_eq_true] at h
    obtain ⟨v, hv⟩ := ihx h.1
    obtain ⟨w, hw⟩ := ihy h.2
    rw [eval, hv, hw]
    unfold binary
    split
    . simp only [pure_bind]
      split <;> exact ⟨_, rfl⟩
    . simp only [pure_bind]
      split <;> exact ⟨_, rfl⟩
    . exact ⟨_, by rw [← List.map_singleton, ← List.map_cons, inAnyOrder_pure, pure_bind]; rfl⟩
  | nil => exact ⟨[], rfl⟩
  | cons e rest ih ihs =>
    rename_i h
    rw [Expr.allConst, Bool.and_eq_true] at h
    obtain ⟨v, hv⟩ := ih h.1
    obtain ⟨vs, hvs⟩ := ihs h.2
    exact ⟨v :: vs, by rw [evalAll, hv, hvs, List.map_cons]⟩
  | _ => cases h

end Meaning
end ScriptC.C
