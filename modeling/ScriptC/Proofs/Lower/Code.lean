import ScriptC.Lower.Function
import ScriptC.Proofs.Analysis.Volatile
import ScriptC.Proofs.Flow.Core

/-!
What is asked of the C expressions that stand for expressions of the script: the calls in them are
harmless, and none of them looks like the code by which statements keep their regions in order.
-/

namespace ScriptC

def Engine.control : List String :=
  ["setjmp", enterTry, leaveTry, caught, throwValue, derivedReturn, pushWith, popWith]

def Engine.iteration : List String := [getIterator, nextIterator, closeIterator]

def Engine.isOrdinary (fn : String) : Bool := !control.contains fn && fn != newFunction

namespace C.Expr

variable {l l' : List Expr} {e x : Expr}

mutual

@[simp]
def EveryCall (p : String → List Expr → Prop) : Expr → Prop
  | .missing | .raw _ _ => True
  | .call fn args => p fn args ∧ EveryCalls p args
  | .callPtr fn args => fn.EveryCall p ∧ EveryCalls p args
  | .seq list => EveryCalls p list
  | .cond test thenE elseE => test.EveryCall p ∧ thenE.EveryCall p ∧ elseE.EveryCall p
  | .assign target _ value => target.EveryCall p ∧ value.EveryCall p
  | .binary _ x y => x.EveryCall p ∧ y.EveryCall p
  | .index x i => x.EveryCall p ∧ i.EveryCall p
  | .unary _ x | .field x _ _ | .likely x _ | .cast _ x | .bits _ x | .pointer _ x => x.EveryCall p

@[simp]
def EveryCalls (p : String → List Expr → Prop) : List Expr → Prop
  | [] => True
  | e :: rest => e.EveryCall p ∧ EveryCalls p rest

end

structure Terms where
  allows : String → List Expr → Prop
  reads : String → Prop
  stores : String → Prop
  guards : Expr → Prop

variable {T : Terms}

mutual

def Every (T : Terms) : Expr → Prop
  | .missing => True
  | .raw text isConstant => isConstant = true ∨ T.reads text
  | .call fn args => T.allows fn args ∧ EveryOf T args
  | .callPtr fn args => fn.Every T ∧ EveryOf T args
  | .seq list => EveryOf T list
  | .cond test thenE elseE =>
    T.guards (.cond test thenE elseE) ∨ test.Every T ∧ thenE.Every T ∧ elseE.Every T
  | .assign target _ value =>
    (match target with
    | .raw text false => T.stores text
    | _ => target.Every T) ∧ value.Every T
  | .binary _ x y => x.Every T ∧ y.Every T
  | .index x i => x.Every T ∧ i.Every T
  | .unary _ x | .field x _ _ | .likely x _ | .cast _ x | .bits _ x | .pointer _ x => x.Every T

def EveryOf (T : Terms) : List Expr → Prop
  | [] => True
  | e :: rest => e.Every T ∧ EveryOf T rest

end

def Target (T : Terms) : Expr → Prop
  | .raw text false => T.stores text
  | e => e.Every T

section Every

variable {fn op name text type : String} {b : Bool} {y z : Expr} {test : Engine.BitTest}

@[simp]
theorem every_missing : Every T .missing = True := rfl

@[simp]
theorem every_raw : Every T (.raw text b) = (b = true ∨ T.reads text) := rfl

@[simp]
theorem every_call : Every T (.call fn l) = (T.allows fn l ∧ EveryOf T l) := rfl

@[simp]
theorem every_callPtr : Every T (.callPtr x l) = (x.Every T ∧ EveryOf T l) := rfl

@[simp]
theorem every_seq : Every T (.seq l) = EveryOf T l := rfl

@[simp]
theorem every_cond : Every T (.cond x y z) =
    (T.guards (.cond x y z) ∨ x.Every T ∧ y.Every T ∧ z.Every T) := rfl

@[simp]
theorem every_assign : (Expr.assign x op e).Every T = (x.Target T ∧ e.Every T) := by
  cases x with
  | raw text isConstant => cases isConstant <;> rfl
  | _ => rfl

@[simp]
theorem every_binary : Every T (.binary op x y) = (x.Every T ∧ y.Every T) := rfl

@[simp]
theorem every_index : Every T (.index x y) = (x.Every T ∧ y.Every T) := rfl

@[simp]
theorem every_unary : Every T (.unary op x) = x.Every T := rfl

@[simp]
theorem every_field : Every T (.field x name b) = x.Every T := rfl

@[simp]
theorem every_likely : Every T (.likely x b) = x.Every T := rfl

@[simp]
theorem every_cast : Every T (.cast type x) = x.Every T := rfl

@[simp]
theorem every_bits : Every T (.bits test x) = x.Every T := rfl

@[simp]
theorem every_pointer : Every T (.pointer type x) = x.Every T := rfl

@[simp]
theorem everyOf_nil : EveryOf T [] = True := rfl

@[simp]
theorem everyOf_cons : EveryOf T (e :: l) = (e.Every T ∧ EveryOf T l) := rfl

@[simp]
theorem target_var : (Expr.raw text false).Target T = T.stores text := rfl

end Every

theorem everyOf_iff : EveryOf T l ↔ ∀ e ∈ l, e.Every T := by
  induction l with
  | nil => simp
  | cons e rest ih => simp [ih]

@[simp]
theorem everyOf_append : EveryOf T (l ++ l') ↔ EveryOf T l ∧ EveryOf T l' := by
  induction l with
  | nil => simp
  | cons e rest ih => simp [ih, and_assoc]

theorem Every.mono {T' : Terms} (hallows : ∀ fn args, T.allows fn args → T'.allows fn args)
    (hreads : ∀ text, T.reads text → T'.reads text)
    (hstores : ∀ text, T.stores text → T'.stores text) (hguards : ∀ e, T.guards e → T'.guards e) :
    e.Every T → e.Every T' := by
  induction e using Expr.rec (motive_2 := fun l => EveryOf T l → EveryOf T' l) with
  | missing => exact id
  | raw text isConstant => exact Or.imp_right (hreads text)
  | call fn args ih => exact And.imp (hallows fn args) ih
  | callPtr fn args ihf ih => exact And.imp ihf ih
  | seq list ih => exact ih
  | cond x y z ihx ihy ihz => exact Or.imp (hguards _) (And.imp ihx (And.imp ihy ihz))
  | assign target op value iht ihv =>
    rw [every_assign, every_assign]
    refine And.imp ?_ ihv
    cases target with
    | raw text isConstant =>
      cases isConstant with
      | true => exact iht
      | false => exact hstores text
    | _ => exact iht
  | binary op x y ihx ihy | index x y ihx ihy => exact And.imp ihx ihy
  | unary op x ih | field x name arrow ih | likely x unlikely ih | cast type x ih | bits test x ih
  | pointer type x ih => exact ih
  | nil => trivial
  | cons e rest ih ihrest =>
    rename_i h
    exact And.imp ih ihrest h

theorem every_iff_everyCall (hreads : ∀ text, T.reads text) (hstores : ∀ text, T.stores text)
    (hguards : ∀ e, ¬T.guards e) : e.Every T ↔ e.EveryCall T.allows := by
  induction e using Expr.rec (motive_2 := fun l => EveryOf T l ↔ EveryCalls T.allows l) with
  | assign target op value iht ihv =>
    rw [every_assign, EveryCall, ihv]
    refine and_congr_left fun _ => ?_
    cases target with
    | raw text isConstant =>
      cases isConstant with
      | true => simp [Target]
      | false => simp [Target, hstores]
    | _ => exact iht
  | _ => simp_all

/-- A pointer to a cell is set to a new cell only. -/
def KeepsCells : Expr → Expr → Prop
  | .raw text false, value =>
    C.isCellName text.toList = true → ∃ x, value = .callEnv Engine.newCell [x]
  | _, _ => True

theorem keepsCells_raw {text : String} {b : Bool} (h : C.isCellName text.toList = false) :
    KeepsCells (.raw text b) x := by
  cases b with
  | true => trivial
  | false => exact fun hcell => absurd hcell (by simp [h])

/-- What code may consist of. -/
structure Rules where
  allows : String → List Expr → Prop
  applies : Expr → List Expr → Prop
  reads : String → Prop
  targets : Expr → Expr → Prop
  rows : List Expr → Prop
  isFull : Prop

variable {R : Rules}

mutual

def Obeys (R : Rules) : Expr → Prop
  | .missing => ¬R.isFull
  | .raw text isConstant => isConstant = true ∨ R.reads text
  | .call fn args => R.allows fn args ∧ AllObey R args
  | .callPtr fn args => R.applies fn args ∧ fn.Obeys R ∧ AllObey R args
  | .seq list => (R.isFull → list ≠ []) ∧ (R.rows list ∨ AllObey R list)
  | .cond test x y => test.Obeys R ∧ x.Obeys R ∧ y.Obeys R
  | .assign target _ value => R.targets target value ∧ target.Obeys R ∧ value.Obeys R
  | .binary _ x y | .index x y => x.Obeys R ∧ y.Obeys R
  | .unary _ x | .field x _ _ | .likely x _ | .cast _ x | .bits _ x | .pointer _ x => x.Obeys R

def AllObey (R : Rules) : List Expr → Prop
  | [] => True
  | e :: rest => e.Obeys R ∧ AllObey R rest

end

def Step (R : Rules) (e : Expr) : Prop := e = .missing ∨ e.Obeys R

def Steps (R : Rules) (list : List Expr) : Prop := ∀ e ∈ list, Step R e

section Obeys

variable {fn op name text type : String} {b : Bool} {y z : Expr} {test : Engine.BitTest}

@[simp]
theorem obeys_raw : Obeys R (.raw text b) ↔ b = true ∨ R.reads text := .rfl

@[simp]
theorem obeys_call : Obeys R (.call fn l) ↔ R.allows fn l ∧ AllObey R l := .rfl

@[simp]
theorem obeys_callPtr : Obeys R (.callPtr x l) ↔ R.applies x l ∧ x.Obeys R ∧ AllObey R l := .rfl

@[simp]
theorem obeys_cond : Obeys R (.cond x y z) ↔ x.Obeys R ∧ y.Obeys R ∧ z.Obeys R := .rfl

@[simp]
theorem obeys_assign :
    Obeys R (.assign x op y) ↔ R.targets x y ∧ x.Obeys R ∧ y.Obeys R := .rfl

@[simp]
theorem obeys_binary : Obeys R (.binary op x y) ↔ x.Obeys R ∧ y.Obeys R := .rfl

@[simp]
theorem obeys_index : Obeys R (.index x y) ↔ x.Obeys R ∧ y.Obeys R := .rfl

@[simp]
theorem obeys_unary : Obeys R (.unary op x) ↔ x.Obeys R := .rfl

@[simp]
theorem obeys_field : Obeys R (.field x name b) ↔ x.Obeys R := .rfl

@[simp]
theorem obeys_likely : Obeys R (.likely x b) ↔ x.Obeys R := .rfl

@[simp]
theorem obeys_cast : Obeys R (.cast type x) ↔ x.Obeys R := .rfl

@[simp]
theorem obeys_bits : Obeys R (.bits test x) ↔ x.Obeys R := .rfl

@[simp]
theorem obeys_pointer : Obeys R (.pointer type x) ↔ x.Obeys R := .rfl

@[simp]
theorem allObey_nil : AllObey R [] := trivial

@[simp]
theorem allObey_cons : AllObey R (e :: l) ↔ e.Obeys R ∧ AllObey R l := .rfl

end Obeys

theorem allObey_iff : AllObey R l ↔ ∀ e ∈ l, e.Obeys R := by
  induction l with
  | nil => simp
  | cons e rest ih => simp [ih]

@[simp]
theorem allObey_append : AllObey R (l ++ l') ↔ AllObey R l ∧ AllObey R l' := by
  simp only [allObey_iff, List.forall_mem_append]

@[simp]
theorem step_missing : Step R .missing := .inl rfl

@[simp]
theorem Obeys.step (h : e.Obeys R) : Step R e := .inr h

@[simp]
theorem steps_nil : Steps R [] := by simp [Steps]

@[simp]
theorem steps_cons : Steps R (e :: l) ↔ Step R e ∧ Steps R l := List.forall_mem_cons

@[simp]
theorem steps_append : Steps R (l ++ l') ↔ Steps R l ∧ Steps R l' := List.forall_mem_append

@[simp]
theorem AllObey.steps (h : AllObey R l) : Steps R l := fun e he => .inr (allObey_iff.1 h e he)

theorem flatMap_elements_ne_nil (hfull : R.isFull) (he : e ∈ l) (h : e.Obeys R) :
    l.flatMap elements ≠ [] := by
  have hne : e.elements ≠ [] := by
    cases e with
    | missing => exact absurd hfull h
    | seq list => exact h.1 hfull
    | _ => exact List.cons_ne_nil _ _
  obtain ⟨x, hx⟩ := List.exists_mem_of_ne_nil _ hne
  exact List.ne_nil_of_mem (List.mem_flatMap.2 ⟨e, he, hx⟩)

theorem allObey_flatMap (hrows : ∀ list, .seq list ∈ l → ¬R.rows list) (h : Steps R l) :
    AllObey R (l.flatMap elements) := by
  rw [allObey_iff]
  intro x hx
  obtain ⟨e, he, hx⟩ := List.mem_flatMap.1 hx
  rcases h e he with rfl | hobeys
  . cases hx
  . cases e with
    | missing => cases hx
    | seq list => exact allObey_iff.1 (hobeys.2.resolve_left (hrows list he)) x hx
    | _ => exact List.mem_singleton.1 hx ▸ hobeys

theorem obeys_comma (hflat : R.rows (l.flatMap elements) ∧ 1 < (l.flatMap elements).length ∨
    AllObey R (l.flatMap elements)) (hfull : R.isFull → l.flatMap elements ≠ []) :
    (comma l).Obeys R := by
  unfold comma
  split
  . next e he =>
    rw [he] at hflat
    rcases hflat with ⟨-, hlt⟩ | hall
    . exact absurd hlt (Nat.lt_irrefl 1)
    . exact hall.1
  . exact ⟨hfull, hflat.imp_left And.left⟩

theorem step_iff (h : e ≠ .missing) : Step R e ↔ e.Obeys R := or_iff_right h

-- A condition that is missing holds.
@[simp]
theorem obeys_and (h : e ≠ .missing) : (Expr.and x e).Obeys R ↔ Step R x ∧ e.Obeys R := by
  unfold Expr.and
  split
  . simp
  . exact absurd rfl h
  . next hx _ => exact (and_congr_left' (step_iff hx)).symm

theorem Obeys.and (he : e.Obeys R) (hx : Step R x) : (Expr.and x e).Obeys R := by
  by_cases hne : e = .missing
  . subst hne
    unfold Expr.and
    split
    . exact he
    . next hx' _ => exact hx.resolve_left hx'
    . contradiction
  . exact (obeys_and hne).2 ⟨hx, he⟩

@[simp]
theorem step_and : Step R (Expr.and x e) ↔ Step R x ∧ Step R e := by
  unfold Expr.and
  split
  . simp
  . simp
  . next hx he =>
    rw [step_iff hx, step_iff he]
    exact step_iff (by simp)

theorem Obeys.every (hallows : ∀ fn args, R.allows fn args → T.allows fn args)
    (hreads : ∀ text, R.reads text → T.reads text ∧ T.stores text) (hrows : ∀ l, ¬R.rows l) :
    e.Obeys R → e.Every T := by
  induction e using Expr.rec (motive_2 := fun l => AllObey R l → EveryOf T l) with
  | missing => exact fun _ => trivial
  | raw text isConstant => exact fun h => h.imp_right fun h => (hreads text h).1
  | call fn args ih => exact fun h => ⟨hallows fn args h.1, ih h.2⟩
  | callPtr fn args ihf ih => exact fun h => ⟨ihf h.2.1, ih h.2.2⟩
  | seq list ih => exact fun h => ih (h.2.resolve_left (hrows list))
  | cond x y z ihx ihy ihz => exact fun h => .inr ⟨ihx h.1, ihy h.2.1, ihz h.2.2⟩
  | assign target op value iht ihv =>
    intro h
    rw [every_assign]
    refine ⟨?_, ihv h.2.2⟩
    cases target with
    | raw text isConstant =>
      cases isConstant with
      | true => exact .inl rfl
      | false => exact (hreads text (h.2.1.resolve_left Bool.false_ne_true)).2
    | _ => exact iht h.2.1
  | binary op x y ihx ihy | index x y ihx ihy => exact fun h => ⟨ihx h.1, ihy h.2⟩
  | unary op x ih | field x name arrow ih | likely x unlikely ih | cast type x ih | bits test x ih
  | pointer type x ih => exact ih
  | nil => trivial
  | cons e rest ih ihrest =>
    rename_i h
    exact ⟨ih h.1, ihrest h.2⟩

mutual

/-- The assignments in an expression. -/
def stores : Expr → List (Expr × Expr)
  | .missing | .raw _ _ => []
  | .call _ args => storesOf args
  | .callPtr fn args => fn.stores ++ storesOf args
  | .seq list => storesOf list
  | .cond test x y => test.stores ++ (x.stores ++ y.stores)
  | .assign target _ value => (target, value) :: (target.stores ++ value.stores)
  | .binary _ x y | .index x y => x.stores ++ y.stores
  | .unary _ x | .field x _ _ | .likely x _ | .cast _ x | .bits _ x | .pointer _ x => x.stores

def storesOf : List Expr → List (Expr × Expr)
  | [] => []
  | e :: rest => e.stores ++ storesOf rest

end

theorem Obeys.stores (hrows : ∀ l, ¬R.rows l) :
    e.Obeys R → ∀ p ∈ e.stores, R.targets p.1 p.2 := by
  induction e using Expr.rec
    (motive_2 := fun l => AllObey R l → ∀ p ∈ storesOf l, R.targets p.1 p.2) with
  | missing | raw => exact fun _ _ hp => by simp [Expr.stores] at hp
  | call fn args ih => exact fun h => ih h.2
  | callPtr fn args ihf ih =>
    exact fun h => List.forall_mem_append.2 ⟨ihf h.2.1, ih h.2.2⟩
  | seq list ih => exact fun h => ih (h.2.resolve_left (hrows list))
  | cond x y z ihx ihy ihz =>
    exact fun h => List.forall_mem_append.2
      ⟨ihx h.1, List.forall_mem_append.2 ⟨ihy h.2.1, ihz h.2.2⟩⟩
  | assign target op value iht ihv =>
    exact fun h => List.forall_mem_cons.2
      ⟨h.1, List.forall_mem_append.2 ⟨iht h.2.1, ihv h.2.2⟩⟩
  | binary op x y ihx ihy | index x y ihx ihy =>
    exact fun h => List.forall_mem_append.2 ⟨ihx h.1, ihy h.2⟩
  | unary op x ih | field x name arrow ih | likely x unlikely ih | cast type x ih | bits test x ih
  | pointer type x ih => exact ih
  | nil =>
    rename_i hp
    simp [storesOf] at hp
  | cons e rest ih ihrest =>
    rename_i h _ _
    exact List.forall_mem_append.2 ⟨ih h.1, ihrest h.2⟩ _ ‹_›

def isOwn (text : String) : Bool :=
  match text.toList with
  | 't' :: 'm' :: 'p' :: '_' :: _ => true
  | 'p' :: 'e' :: 'n' :: 'd' :: _ => true
  | _ => false

def isOwnVar : Expr → Bool
  | .raw text isConstant => !isConstant && isOwn text
  | _ => false

def isTrue : Expr → Bool
  | .raw text true => text == Engine.valTrue
  | _ => false

/--
Whether nothing in an expression is for statements to act on. A condition that was made into a value
may be taken out of it again.
-/
def isPlain : Expr → Bool
  | .missing => false
  | .raw text isConstant => !isOwnVar (.raw text isConstant)
  | .call fn _ => !Engine.control.contains fn && !Engine.iteration.contains fn
  | .seq list => list.length != 1
  | .cond test yes _ => test.isPlain || !yes.isTrue
  | .assign x _ _ | .binary _ x _ => !x.isOwnVar
  | .unary op x => op != "!" || x.isPlain
  | _ => true

def isCalm : Expr → Bool
  | .call fn _ => !Engine.iteration.contains fn
  | .seq list => list.length != 1
  | _ => true

def isSolid : Expr → Bool
  | .missing => false
  | .seq list => 2 ≤ list.length
  | _ => true

-- The abbreviations by which code is built, for the proofs that look at its form.
attribute [scoped simp] var lit nat env callEnv set or not double number numberOf bitsOf isNumber
  isObject isDeleted isFlagged objectPtr arrayPtr boxed undefined deleted isOwnVar isTrue isPlain
  isCalm isSolid elements

theorem isPlain_of_isConstant : ∀ {e : Expr}, e.isConstant → e.isPlain
  | .raw .., h => by simp_all [isConstant]
  | .call fn args, h => by
    simp only [isConstant, Bool.and_eq_true, beq_iff_eq] at h
    simp +decide [h.1]
  | .unary op x, h => by
    simp only [isConstant] at h
    simp [isPlain_of_isConstant h]
  | .binary op x y, h => by
    simp only [isConstant, Bool.and_eq_true] at h
    cases x <;> simp_all [isConstant]
  | .cast .., _ => rfl

theorem isOwnVar_of_isPlain (h : e.isPlain) : e.isOwnVar = false := by
  cases e with
  | raw text isConstant => cases isConstant <;> simp_all
  | _ => rfl

theorem isCalm_of_isPlain (h : e.isPlain) : e.isCalm := by
  cases e <;> simp_all

theorem isPlain_seq (h : 2 ≤ l.length) : (Expr.seq l).isPlain := by
  simp only [isPlain, bne_iff_ne, ne_eq]
  omega

theorem length_elements (h : e.isSolid) : 1 ≤ e.elements.length := by
  cases e <;> simp_all [isSolid, elements]
  omega

theorem comma_of_length_ne_one (h : (l.flatMap elements).length ≠ 1) :
    comma l = .seq (l.flatMap elements) := by
  unfold comma
  split
  . next he => simp [he] at h
  . rfl

theorem isPlain_comma_of_two (h : 2 ≤ (l.flatMap elements).length) : (comma l).isPlain := by
  rw [comma_of_length_ne_one (by omega)]
  exact isPlain_seq h

theorem isSolid_comma_of_two (h : 2 ≤ (l.flatMap elements).length) : (comma l).isSolid := by
  rw [comma_of_length_ne_one (by omega)]
  simpa [isSolid] using h

theorem isCalm_comma_of_two (h : 2 ≤ (l.flatMap elements).length) : (comma l).isCalm :=
  isCalm_of_isPlain (isPlain_comma_of_two h)

theorem two_le_length_elements (l₁ l₂ l₃ : List Expr) (hx : x.isSolid) (he : e.isSolid) :
    2 ≤ ((l₁ ++ x :: (l₂ ++ e :: l₃)).flatMap elements).length := by
  have := length_elements hx
  have := length_elements he
  simp only [List.flatMap_append, List.flatMap_cons, List.length_append]
  omega

-- A comma expression of one element is that element.
theorem comma_of_isSolid (l l' : List Expr) (hx : x.isSolid) :
    comma (l ++ x :: l') = x ∨ 2 ≤ ((l ++ x :: l').flatMap elements).length := by
  have hlen := length_elements hx
  by_cases h : l.flatMap elements = [] ∧ l'.flatMap elements = []
  . cases x with
    | missing => simp at hx
    | seq list =>
      right
      simpa [h.1, h.2] using hx
    | _ =>
      left
      simp [comma, h.1, h.2]
  . right
    have : 0 < (l.flatMap elements).length + (l'.flatMap elements).length := by
      rw [Nat.pos_iff_ne_zero, ne_eq, Nat.add_eq_zero_iff]
      simpa only [List.length_eq_zero_iff] using h
    simp only [List.flatMap_append, List.flatMap_cons, List.length_append]
    omega

theorem isPlain_comma_last (hp : x.isPlain) (hx : x.isSolid) : (comma (l ++ [x])).isPlain := by
  rcases comma_of_isSolid l [] hx with h | h
  . rwa [h]
  . exact isPlain_comma_of_two h

theorem isSolid_comma_last (hx : x.isSolid) : (comma (l ++ [x])).isSolid := by
  rcases comma_of_isSolid l [] hx with h | h
  . rwa [h]
  . exact isSolid_comma_of_two h

theorem isSolid_comma_first (hx : x.isSolid) : (comma (x :: l)).isSolid := by
  rcases comma_of_isSolid [] l hx with h | h
  . rwa [← List.nil_append (x :: l), h]
  . exact isSolid_comma_of_two h

theorem isCalm_comma_first (hx : x.isSolid) (hc : x.isCalm) : (comma (x :: l)).isCalm := by
  rcases comma_of_isSolid [] l hx with h | h
  . rwa [← List.nil_append (x :: l), h]
  . exact isCalm_comma_of_two h

-- So is one of several elements of which all but one vanish.
theorem comma_cases (l : List Expr) :
    (comma l = .seq (l.flatMap elements) ∧ (l.flatMap elements).length ≠ 1) ∨
      comma l ∈ l ∨ ∃ e ∈ l, e = .seq [comma l] := by
  by_cases hl : (l.flatMap elements).length = 1
  . right
    obtain ⟨x, hx⟩ := List.length_eq_one_iff.1 hl
    have hc : comma l = x := by simp [comma, hx]
    have hmem : x ∈ l.flatMap elements := by simp [hx]
    obtain ⟨e, he, hxe⟩ := List.mem_flatMap.1 hmem
    have hle : e.elements.length ≤ 1 := by
      obtain ⟨before, after, rfl⟩ := List.append_of_mem he
      simp only [List.flatMap_append, List.flatMap_cons, List.length_append] at hl
      omega
    rw [hc]
    cases e with
    | missing => simp at hxe
    | seq list =>
      right
      obtain ⟨y, rfl⟩ := List.length_eq_one_iff.1
        (Nat.le_antisymm hle (List.length_pos_of_mem hxe))
      rw [elements, List.mem_singleton] at hxe
      exact ⟨_, he, by rw [hxe]⟩
    | _ =>
      left
      simp only [elements, List.mem_singleton] at hxe
      rwa [hxe]
  . exact .inl ⟨comma_of_length_ne_one hl, hl⟩

theorem isPlain_comma (h : ∀ e ∈ l, e.isPlain) : (comma l).isPlain := by
  rcases comma_cases l with ⟨hc, hl⟩ | hc | ⟨e, he, rfl⟩
  . rw [hc]
    simpa using hl
  . exact h _ hc
  . simpa using h _ he

theorem isCalm_comma (h : ∀ e ∈ l, e.isCalm) : (comma l).isCalm := by
  rcases comma_cases l with ⟨hc, hl⟩ | hc | ⟨e, he, rfl⟩
  . rw [hc]
    simpa using hl
  . exact h _ hc
  . simpa using h _ he

end C.Expr
end ScriptC
