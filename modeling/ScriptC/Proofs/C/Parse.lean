import Mathlib.Order.Nat
import Mathlib.Tactic.Common
import ScriptC.Proofs.Lower.Names

/-!
Reading C expressions: tokens are taken as long as possible, and the grammar is that of C with its
precedences. Which words name types is given.
-/

namespace ScriptC.C

inductive Token where
  | word (text : String)
  | number (text : String)
  | punct (text : String)
  deriving DecidableEq, Repr

def punctuators : List String :=
  ["%:%:", "...", "<<=", ">>=", "->", "++", "--", "<<", ">>", "<=", ">=", "==", "!=", "&&", "||",
    "*=", "/=", "%=", "+=", "-=", "&=", "^=", "|=", "##", "<:", ":>", "<%", "%>", "%:", "//", "/*",
    "[", "]", "(", ")", "\x7b", "\x7d", ".", "&", "*", "+", "-", "~", "!", "/", "%", "<", ">", "^",
    "|", "?", ":", ";", "=", ",", "#"]

def goesOn (last c : Char) : Bool :=
  isNameChar c || c == '.' || ((c == '+' || c == '-') && "eEpP".toList.contains last)

def numberTail : Char → List Char → List Char × List Char
  | _, [] => ([], [])
  | last, c :: rest =>
    if goesOn last c then ((c :: (numberTail c rest).1), (numberTail c rest).2) else ([], c :: rest)

def token : List Char → Option (Token × List Char)
  | [] => none
  | c :: rest =>
    if c == ' ' || c == '\n' then token rest
    else if c.isDigit || (c == '.' && rest.head?.any Char.isDigit) then
      some (.number (String.ofList (c :: (numberTail c rest).1)), (numberTail c rest).2)
    else if isNameChar c then
      some (.word (String.ofList (c :: rest.takeWhile isNameChar)), rest.dropWhile isNameChar)
    else
      (punctuators.find? fun p => p.toList.isPrefixOf (c :: rest)).map fun p =>
        (.punct p, (c :: rest).drop p.length)

def peek (l : List Char) : Option Token := (token l).map (·.1)

def skip (l : List Char) : List Char := ((token l).map (·.2)).getD []

def next (p : String) (l : List Char) : Bool := peek l == some (.punct p)

def binaryOps : List (String × Nat) :=
  [("||", 1), ("&&", 2), ("|", 3), ("^", 4), ("&", 5), ("==", 6), ("!=", 6), ("<", 7), (">", 7),
    ("<=", 7), (">=", 7), ("<<", 8), (">>", 8), ("+", 9), ("-", 9), ("*", 10), ("/", 10), ("%", 10)]

def assignOps : List String := ["=", "*=", "/=", "%=", "+=", "-=", "<<=", ">>=", "&=", "^=", "|="]

def unaryOps : List String := ["&", "*", "+", "-", "~", "!"]

def stepOps : List String := ["++", "--"]

def keywords : List String :=
  ["sizeof", "_Alignof", "_Generic", "if", "else", "for", "while", "do", "goto", "return", "switch",
    "case", "default", "break", "continue"]

def typeText : Nat → List Char → Option (List Char × List Char)
  | _, [] => none
  | 0, ')' :: rest => some ([], rest)
  | depth, c :: rest =>
    (typeText (if c = '(' then depth + 1 else if c = ')' then depth - 1 else depth) rest).map
      fun r =>
      (c :: r.1, r.2)

def isIdentifier (text : String) : Bool :=
  match text.toList with
  | c :: rest => !c.isDigit && isNameChar c && rest.all isNameChar
  | [] => false

def isNumber (text : String) : Bool :=
  match text.toList with
  | c :: rest =>
    (c.isDigit || (c == '.' && rest.head?.any Char.isDigit)) && (numberTail c rest).2.isEmpty
  | [] => false

def callOf : Expr → List Expr → Expr
  | .raw name isConstant, args =>
    if isIdentifier name then .call name args else .callPtr (.raw name isConstant) args
  | fn, args => .callPtr fn args

def called (bare : Bool) (fn : Expr) (args : List Expr) : Expr :=
  match bare, fn, args with
  | true, .raw "likely" _, [x] => .likely x false
  | true, .raw "unlikely" _, [x] => .likely x true
  | _, _, _ => callOf fn args

namespace Parse

variable (isType : String → Bool)

def castType? (l : List Char) : Option (String × List Char) :=
  if next "(" l then
    match peek (skip l) with
    | some (.word w) =>
      if isType w then (typeText 0 (skip l)).map fun r => (String.ofList r.1, r.2) else none
    | _ => none
  else none

def expect (p : String) (l : List Char) : Option (List Char) :=
  if next p l then some (skip l) else none

abbrev Reader (α : Type) := List Char → Option (α × List Char)

/-! Each reader, given the readers it uses -/

def expressionOf (sequence : Reader (List Expr)) : Reader Expr := fun l => do
  match ← sequence l with
  | ([e], rest) => some (e, rest)
  | (list, rest) => some (.seq list, rest)

def sequenceOf (assignment : Reader Expr) (sequence : Reader (List Expr)) : Reader (List Expr) :=
  fun l => do
    let (e, rest) ← assignment l
    if next "," rest then
      let (es, rest) ← sequence (skip rest)
      some (e :: es, rest)
    else some ([e], rest)

def assignmentOf (operand assignment : Reader Expr) (conditional : Expr → Reader Expr) :
    Reader Expr := fun l => do
  let (x, rest) ← operand l
  match peek rest with
  | some (.punct op) =>
    if assignOps.contains op && (castType? isType l).isNone then
      let (v, rest) ← assignment (skip rest)
      some (.assign x op v, rest)
    else conditional x rest
  | _ => conditional x rest

def conditionalOf (climb : Nat → Expr → Reader Expr) (expression operand : Reader Expr)
    (conditional : Expr → Reader Expr) (x : Expr) : Reader Expr := fun l => do
  let (c, rest) ← climb 1 x l
  if next "?" rest then
    let (a, rest) ← expression (skip rest)
    let rest ← expect ":" rest
    let (y, rest) ← operand rest
    let (b, rest) ← conditional y rest
    some (.cond c a b, rest)
  else some (c, rest)

def climbOf (operand : Reader Expr) (climb : Nat → Expr → Reader Expr) (level : Nat) (x : Expr) :
    Reader Expr := fun l =>
  match peek l with
  | some (.punct op) =>
    match binaryOps.lookup op with
    | some q =>
      if level ≤ q then do
        let (y, rest) ← operand (skip l)
        let (y, rest) ← climb (q + 1) y rest
        climb level (.binary op x y) rest
      else some (x, l)
    | none => some (x, l)
  | _ => some (x, l)

def operandOf (operand expression : Reader Expr) (postfixes : Bool → Expr → Reader Expr) :
    Reader Expr := fun l =>
  match castType? isType l with
  | some (type, rest) => do
    let (x, rest) ← operand rest
    some (.cast type x, rest)
  | none =>
    match peek l with
    | some (.punct op) =>
      if unaryOps.contains op || (stepOps.contains op && (castType? isType (skip l)).isNone) then do
        let (x, rest) ← operand (skip l)
        some (.unary op x, rest)
      else if op = "(" then do
        let (e, rest) ← expression (skip l)
        postfixes false e (← expect ")" rest)
      else none
    | some (.word w) =>
      if isType w || keywords.contains w then none else postfixes true (.raw w false) (skip l)
    | some (.number t) => postfixes true (.raw t false) (skip l)
    | none => none

def postfixesOf (expression : Reader Expr) (sequence : Reader (List Expr))
    (postfixes : Bool → Expr → Reader Expr) (bare : Bool) (x : Expr) : Reader Expr := fun l =>
  if next "[" l then do
    let (i, rest) ← expression (skip l)
    postfixes false (.index x i) (← expect "]" rest)
  else if next "(" l then
    if next ")" (skip l) then postfixes false (called bare x []) (skip (skip l))
    else do
      let (args, rest) ← sequence (skip l)
      postfixes false (called bare x args) (← expect ")" rest)
  else if next "." l || next "->" l then
    match peek (skip l) with
    | some (.word name) => postfixes false (.field x name (next "->" l)) (skip (skip l))
    | _ => none
  else some (x, l)

structure Readers where
  expression : Reader Expr
  sequence : Reader (List Expr)
  assignment : Reader Expr
  conditional : Expr → Reader Expr
  climb : Nat → Expr → Reader Expr
  operand : Reader Expr
  postfixes : Bool → Expr → Reader Expr

def Readers.ofDepth : Nat → Readers
  | 0 => ⟨fun _ => none, fun _ => none, fun _ => none, fun _ _ => none, fun _ _ _ => none,
      fun _ => none, fun _ _ _ => none⟩
  | n + 1 =>
    let r := ofDepth n
    { expression := expressionOf r.sequence
      sequence := sequenceOf r.assignment r.sequence
      assignment := assignmentOf isType r.operand r.assignment r.conditional
      conditional := conditionalOf r.climb r.expression r.operand r.conditional
      climb := climbOf r.operand r.climb
      operand := operandOf isType r.operand r.expression r.postfixes
      postfixes := postfixesOf r.expression r.sequence r.postfixes }

def readers (l : List Char) : Readers := .ofDepth isType (4 * l.length + 4)

def expression : Reader Expr := fun l => (readers isType l).expression l

def sequence : Reader (List Expr) := fun l => (readers isType l).sequence l

def assignment : Reader Expr := fun l => (readers isType l).assignment l

def conditional (x : Expr) : Reader Expr := fun l => (readers isType l).conditional x l

def climb (level : Nat) (x : Expr) : Reader Expr := fun l => (readers isType l).climb level x l

def operand : Reader Expr := fun l => (readers isType l).operand l

def postfixes (bare : Bool) (x : Expr) : Reader Expr :=
  fun l => (readers isType l).postfixes bare x l

/-! What is left of a text is shorter -/

variable {isType} {l rest : List Char}

theorem numberTail_length (last : Char) (l : List Char) :
    (numberTail last l).2.length ≤ l.length := by
  induction l generalizing last with
  | nil => simp [numberTail]
  | cons c l ih =>
    rw [numberTail]
    split
    . exact Nat.le_succ_of_le (ih c)
    . exact le_rfl

theorem token_length {t : Token} (h : token l = some (t, rest)) : rest.length < l.length := by
  induction l with
  | nil => cases h
  | cons c l ih =>
    rw [token] at h
    split at h
    . exact Nat.lt_succ_of_lt (ih h)
    . split at h
      . cases h
        exact Nat.lt_succ_of_le (numberTail_length c l)
      . split at h
        . cases h
          exact Nat.lt_succ_of_le (List.dropWhile_suffix _).length_le
        . obtain ⟨p, hp, hrest⟩ := Option.map_eq_some_iff.1 h
          have hpos : ∀ p ∈ punctuators, 0 < p.length := by decide
          have hp := hpos p (List.mem_of_find?_eq_some hp)
          cases hrest
          rw [List.length_drop, List.length_cons]
          omega

theorem skip_length_lt {t : Token} (h : peek l = some t) : (skip l).length < l.length := by
  obtain ⟨⟨t, rest⟩, ht, -⟩ := Option.map_eq_some_iff.1 h
  simpa [skip, ht] using token_length ht

theorem skip_length_le (l : List Char) : (skip l).length ≤ l.length := by
  cases h : peek l with
  | none => simp [skip, Option.map_eq_none_iff.1 h]
  | some t => exact (skip_length_lt h).le

theorem skip_length_of_next {p : String} (h : next p l = true) : (skip l).length < l.length :=
  skip_length_lt (eq_of_beq h)

theorem expect_length {p : String} (h : expect p l = some rest) : rest.length < l.length := by
  rw [expect] at h
  split at h
  . next hp =>
    cases h
    exact skip_length_of_next hp
  . cases h

theorem typeText_length {d : Nat} {type : List Char} (h : typeText d l = some (type, rest)) :
    rest.length < l.length := by
  induction l generalizing d type with
  | nil => cases h
  | cons c l ih =>
    unfold typeText at h
    split at h
    . contradiction
    . next heq =>
      cases heq
      cases h
      exact Nat.lt_succ_self _
    . next heq =>
      cases heq
      obtain ⟨r, hr, hrest⟩ := Option.map_eq_some_iff.1 h
      cases hrest
      exact Nat.lt_succ_of_lt (ih hr)

theorem castType?_length {type : String} (h : castType? isType l = some (type, rest)) :
    rest.length < l.length := by
  rw [castType?] at h
  split at h
  . split at h
    . split at h
      . obtain ⟨r, hr, hrest⟩ := Option.map_eq_some_iff.1 h
        cases hrest
        exact (typeText_length hr).trans_le (skip_length_le l)
      . cases h
    . cases h
  . cases h

def Takes {α : Type} (f : Reader α) : Prop := ∀ l p, f l = some p → p.2.length < l.length

def Keeps {α : Type} (f : Reader α) : Prop := ∀ l p, f l = some p → p.2.length ≤ l.length

structure Readers.Shorten (r : Readers) : Prop where
  expression : Takes r.expression
  sequence : Takes r.sequence
  assignment : Takes r.assignment
  conditional : ∀ x, Keeps (r.conditional x)
  climb : ∀ level x, Keeps (r.climb level x)
  operand : Takes r.operand
  postfixes : ∀ bare x, Keeps (r.postfixes bare x)

namespace Readers.Shorten

variable {r : Readers}

theorem nextExpression (h : r.Shorten) : Takes (expressionOf r.sequence) := by
  intro l p hp
  obtain ⟨q, hq, hp⟩ := Option.bind_eq_some_iff.1 hp
  have hlt := h.sequence l q hq
  split at hp <;> cases hp <;> exact hlt

theorem nextSequence (h : r.Shorten) : Takes (sequenceOf r.assignment r.sequence) := by
  intro l p hp
  obtain ⟨⟨e, rest⟩, hq, hp⟩ := Option.bind_eq_some_iff.1 hp
  have hlt := h.assignment l _ hq
  dsimp only at hp hlt
  split at hp
  . obtain ⟨⟨es, rest'⟩, hes, hp⟩ := Option.bind_eq_some_iff.1 hp
    have hes := h.sequence _ _ hes
    have hskip := skip_length_le rest
    cases hp
    dsimp only at hes ⊢
    omega
  . cases hp
    exact hlt

theorem nextAssignment (h : r.Shorten) :
    Takes (assignmentOf isType r.operand r.assignment r.conditional) := by
  intro l p hp
  obtain ⟨⟨x, rest⟩, hq, hp⟩ := Option.bind_eq_some_iff.1 hp
  have hlt := h.operand l _ hq
  dsimp only at hp hlt
  have hcond (hp : r.conditional x rest = some p) : p.2.length < l.length :=
    (h.conditional x rest p hp).trans_lt hlt
  split at hp
  . split at hp
    . obtain ⟨⟨v, rest'⟩, hv, hp⟩ := Option.bind_eq_some_iff.1 hp
      have hv := h.assignment _ _ hv
      have hskip := skip_length_le rest
      cases hp
      dsimp only at hv ⊢
      omega
    . exact hcond hp
  . exact hcond hp

theorem nextConditional (h : r.Shorten) (x : Expr) :
    Keeps (conditionalOf r.climb r.expression r.operand r.conditional x) := by
  intro l p hp
  obtain ⟨⟨c, rest⟩, hq, hp⟩ := Option.bind_eq_some_iff.1 hp
  have hle := h.climb 1 x l _ hq
  dsimp only at hp hle
  split at hp
  . obtain ⟨⟨a, rest₁⟩, ha, hp⟩ := Option.bind_eq_some_iff.1 hp
    obtain ⟨rest₂, hcolon, hp⟩ := Option.bind_eq_some_iff.1 hp
    obtain ⟨⟨y, rest₃⟩, hy, hp⟩ := Option.bind_eq_some_iff.1 hp
    obtain ⟨⟨b, rest₄⟩, hb, hp⟩ := Option.bind_eq_some_iff.1 hp
    have ha := h.expression _ _ ha
    have hcolon := expect_length hcolon
    have hy := h.operand _ _ hy
    have hb := h.conditional _ _ _ hb
    have hskip := skip_length_le rest
    cases hp
    dsimp only at *
    omega
  . cases hp
    exact hle

theorem nextClimb (h : r.Shorten) (level : Nat) (x : Expr) :
    Keeps (climbOf r.operand r.climb level x) := by
  intro l p hp
  rw [climbOf] at hp
  split at hp
  . split at hp
    . split at hp
      . obtain ⟨⟨y, rest⟩, hy, hp⟩ := Option.bind_eq_some_iff.1 hp
        obtain ⟨⟨z, rest'⟩, hz, hp⟩ := Option.bind_eq_some_iff.1 hp
        have hy := h.operand _ _ hy
        have hz := h.climb _ _ _ _ hz
        have hp := h.climb _ _ _ _ hp
        have hskip := skip_length_le l
        dsimp only at *
        omega
      . cases hp
        exact le_rfl
    . cases hp
      exact le_rfl
  . cases hp
    exact le_rfl

theorem nextOperand (h : r.Shorten) : Takes
    (operandOf isType r.operand r.expression r.postfixes) := by
  intro l p hp
  rw [operandOf] at hp
  split at hp
  . next type rest htype =>
    obtain ⟨⟨x, rest'⟩, hx, hp⟩ := Option.bind_eq_some_iff.1 hp
    have hx := h.operand _ _ hx
    have htype := castType?_length htype
    cases hp
    exact hx.trans htype
  . split at hp
    . next op hop =>
      have hskip := skip_length_lt hop
      split at hp
      . obtain ⟨⟨x, rest⟩, hx, hp⟩ := Option.bind_eq_some_iff.1 hp
        have hx := h.operand _ _ hx
        cases hp
        exact hx.trans hskip
      . split at hp
        . obtain ⟨⟨e, rest⟩, he, hp⟩ := Option.bind_eq_some_iff.1 hp
          obtain ⟨rest', hclose, hp⟩ := Option.bind_eq_some_iff.1 hp
          have he := h.expression _ _ he
          have hclose := expect_length hclose
          have hp := h.postfixes _ _ _ _ hp
          dsimp only at *
          omega
        . cases hp
    . next w hw =>
      split at hp
      . cases hp
      . exact (h.postfixes _ _ _ _ hp).trans_lt (skip_length_lt hw)
    . next t ht => exact (h.postfixes _ _ _ _ hp).trans_lt (skip_length_lt ht)
    . cases hp

theorem nextPostfixes (h : r.Shorten) (bare : Bool) (x : Expr) :
    Keeps (postfixesOf r.expression r.sequence r.postfixes bare x) := by
  intro l p hp
  have hskip := skip_length_le l
  have hskip₂ := skip_length_le (skip l)
  rw [postfixesOf] at hp
  split at hp
  . obtain ⟨⟨i, rest⟩, hi, hp⟩ := Option.bind_eq_some_iff.1 hp
    obtain ⟨rest', hclose, hp⟩ := Option.bind_eq_some_iff.1 hp
    have hi := h.expression _ _ hi
    have hclose := expect_length hclose
    have hp := h.postfixes _ _ _ _ hp
    dsimp only at *
    omega
  . split at hp
    . split at hp
      . exact (h.postfixes _ _ _ _ hp).trans (hskip₂.trans hskip)
      . obtain ⟨⟨args, rest⟩, hargs, hp⟩ := Option.bind_eq_some_iff.1 hp
        obtain ⟨rest', hclose, hp⟩ := Option.bind_eq_some_iff.1 hp
        have hargs := h.sequence _ _ hargs
        have hclose := expect_length hclose
        have hp := h.postfixes _ _ _ _ hp
        dsimp only at *
        omega
    . split at hp
      . split at hp
        . exact (h.postfixes _ _ _ _ hp).trans (hskip₂.trans hskip)
        . cases hp
      . cases hp
        exact le_rfl

end Readers.Shorten

theorem shorten_ofDepth (n : Nat) : (Readers.ofDepth isType n).Shorten := by
  induction n with
  | zero => constructor <;> intros <;> rintro l p ⟨⟩
  | succ n ih =>
    exact ⟨ih.nextExpression, ih.nextSequence, ih.nextAssignment, ih.nextConditional, ih.nextClimb,
      ih.nextOperand, ih.nextPostfixes⟩

/-! Readers that are deep enough agree -/

structure Readers.Agree (r s : Readers) (n : Nat) : Prop where
  expression : ∀ l : List Char, 4 * l.length + 3 < n → r.expression l = s.expression l
  sequence : ∀ l : List Char, 4 * l.length + 2 < n → r.sequence l = s.sequence l
  assignment : ∀ l : List Char, 4 * l.length + 1 < n → r.assignment l = s.assignment l
  conditional : ∀ x, ∀ l : List Char, 4 * l.length + 1 < n → r.conditional x l = s.conditional x l
  climb : ∀ level x, ∀ l : List Char, 4 * l.length < n → r.climb level x l = s.climb level x l
  operand : ∀ l : List Char, 4 * l.length < n → r.operand l = s.operand l
  postfixes : ∀ bare x, ∀ l : List Char, 4 * l.length < n →
    r.postfixes bare x l = s.postfixes bare x l

namespace Readers.Agree

variable {r s : Readers} {n : Nat}

theorem nextSequence (h : r.Agree s n) (hs : s.Shorten) (hl : 4 * l.length + 2 < n + 1) :
    sequenceOf r.assignment r.sequence l = sequenceOf s.assignment s.sequence l := by
  rw [sequenceOf, sequenceOf, h.assignment l (by omega)]
  refine Option.bind_congr ?_
  rintro ⟨e, rest⟩ hq
  have hlt := hs.assignment l _ hq
  have hskip := skip_length_le rest
  dsimp only at hlt ⊢
  rw [h.sequence (skip rest) (by omega)]

theorem nextAssignment (h : r.Agree s n) (hs : s.Shorten) (hl : 4 * l.length + 1 < n + 1) :
    assignmentOf isType r.operand r.assignment r.conditional l =
      assignmentOf isType s.operand s.assignment s.conditional l := by
  rw [assignmentOf, assignmentOf, h.operand l (by omega)]
  refine Option.bind_congr ?_
  rintro ⟨x, rest⟩ hq
  have hlt := hs.operand l _ hq
  have hskip := skip_length_le rest
  dsimp only at hlt ⊢
  rw [h.assignment (skip rest) (by omega), h.conditional x rest (by omega)]

theorem nextConditional (h : r.Agree s n) (hs : s.Shorten) (x : Expr)
    (hl : 4 * l.length + 1 < n + 1) :
    conditionalOf r.climb r.expression r.operand r.conditional x l =
      conditionalOf s.climb s.expression s.operand s.conditional x l := by
  rw [conditionalOf, conditionalOf, h.climb 1 x l (by omega)]
  refine Option.bind_congr ?_
  rintro ⟨c, rest⟩ hq
  have hle := hs.climb 1 x l _ hq
  dsimp only at hle ⊢
  split
  . next hask =>
    have hskip := skip_length_of_next hask
    rw [h.expression (skip rest) (by omega)]
    refine Option.bind_congr ?_
    rintro ⟨a, rest₁⟩ ha
    refine Option.bind_congr fun rest₂ hcolon => ?_
    have ha := hs.expression _ _ ha
    have hcolon := expect_length hcolon
    dsimp only at ha hcolon ⊢
    rw [h.operand rest₂ (by omega)]
    refine Option.bind_congr ?_
    rintro ⟨y, rest₃⟩ hy
    have hy := hs.operand _ _ hy
    dsimp only at hy ⊢
    rw [h.conditional y rest₃ (by omega)]
  . rfl

theorem nextClimb (h : r.Agree s n) (hs : s.Shorten) (level : Nat) (x : Expr)
    (hl : 4 * l.length < n + 1) :
    climbOf r.operand r.climb level x l = climbOf s.operand s.climb level x l := by
  rw [climbOf, climbOf]
  split
  . next op hop =>
    have hskip := skip_length_lt hop
    split
    . split
      . rw [h.operand (skip l) (by omega)]
        refine Option.bind_congr ?_
        rintro ⟨y, rest⟩ hy
        have hy := hs.operand _ _ hy
        dsimp only at hy ⊢
        rw [h.climb _ y rest (by omega)]
        refine Option.bind_congr ?_
        rintro ⟨z, rest'⟩ hz
        have hz := hs.climb _ _ _ _ hz
        dsimp only at hz ⊢
        exact h.climb _ _ _ (by omega)
      . rfl
    . rfl
  . rfl

theorem nextOperand (h : r.Agree s n) (hs : s.Shorten) (hl : 4 * l.length < n + 1) :
    operandOf isType r.operand r.expression r.postfixes l =
      operandOf isType s.operand s.expression s.postfixes l := by
  rw [operandOf, operandOf]
  split
  . next type rest htype =>
    have htype := castType?_length htype
    rw [h.operand rest (by omega)]
  . split
    . next op hop =>
      have hskip := skip_length_lt hop
      rw [h.operand (skip l) (by omega), h.expression (skip l) (by omega)]
      split
      . rfl
      . split
        . refine Option.bind_congr ?_
          rintro ⟨e, rest⟩ he
          refine Option.bind_congr fun rest' hclose => ?_
          have he := hs.expression _ _ he
          have hclose := expect_length hclose
          dsimp only at *
          exact h.postfixes _ _ _ (by omega)
        . rfl
    . next w hw => rw [h.postfixes _ _ (skip l) (by have := skip_length_lt hw; omega)]
    . next t ht => exact h.postfixes _ _ _ (by have := skip_length_lt ht; omega)
    . rfl

theorem nextPostfixes (h : r.Agree s n) (hs : s.Shorten) (bare : Bool) (x : Expr)
    (hl : 4 * l.length < n + 1) :
    postfixesOf r.expression r.sequence r.postfixes bare x l =
      postfixesOf s.expression s.sequence s.postfixes bare x l := by
  have hskip₂ := skip_length_le (skip l)
  rw [postfixesOf, postfixesOf]
  split
  . next hnext =>
    have hskip := skip_length_of_next hnext
    rw [h.expression (skip l) (by omega)]
    refine Option.bind_congr ?_
    rintro ⟨i, rest⟩ hi
    refine Option.bind_congr fun rest' hclose => ?_
    have hi := hs.expression _ _ hi
    have hclose := expect_length hclose
    dsimp only at *
    exact h.postfixes _ _ _ (by omega)
  . split
    . next hnext =>
      have hskip := skip_length_of_next hnext
      rw [h.postfixes _ _ (skip (skip l)) (by omega), h.sequence (skip l) (by omega)]
      split
      . rfl
      . refine Option.bind_congr ?_
        rintro ⟨args, rest⟩ hargs
        refine Option.bind_congr fun rest' hclose => ?_
        have hargs := hs.sequence _ _ hargs
        have hclose := expect_length hclose
        dsimp only at *
        exact h.postfixes _ _ _ (by omega)
    . split
      . next hnext =>
        have hskip : (skip l).length < l.length :=
          (Bool.or_eq_true_iff.1 hnext).elim skip_length_of_next skip_length_of_next
        split
        . exact h.postfixes _ _ _ (by omega)
        . rfl
      . rfl

end Readers.Agree

theorem agree_ofDepth (n : Nat) :
    (Readers.ofDepth isType n).Agree (Readers.ofDepth isType (n + 1)) n := by
  induction n with
  | zero => constructor <;> intros <;> omega
  | succ n ih =>
    have hs : (Readers.ofDepth isType (n + 1)).Shorten := shorten_ofDepth (n + 1)
    exact {
      expression := fun l hl => by
        rw [Readers.ofDepth, Readers.ofDepth]
        simp only [expressionOf, ih.sequence l (by omega)]
      sequence := fun l hl => ih.nextSequence hs hl
      assignment := fun l hl => ih.nextAssignment hs hl
      conditional := fun x l hl => ih.nextConditional hs x hl
      climb := fun level x l hl => ih.nextClimb hs level x hl
      operand := fun l hl => ih.nextOperand hs hl
      postfixes := fun bare x l hl => ih.nextPostfixes hs bare x hl }

theorem agree_of_le {n m : Nat} (h : n ≤ m) :
    (Readers.ofDepth isType n).Agree (Readers.ofDepth isType m) n := by
  induction m, h using Nat.le_induction with
  | base => constructor <;> intros <;> rfl
  | succ m hm ih =>
    have hm : (Readers.ofDepth isType m).Agree (Readers.ofDepth isType (m + 1)) m := agree_ofDepth m
    exact {
      expression := fun l hl => (ih.expression l hl).trans (hm.expression l (by omega))
      sequence := fun l hl => (ih.sequence l hl).trans (hm.sequence l (by omega))
      assignment := fun l hl => (ih.assignment l hl).trans (hm.assignment l (by omega))
      conditional := fun x l hl => (ih.conditional x l hl).trans (hm.conditional x l (by omega))
      climb := fun level x l hl => (ih.climb level x l hl).trans (hm.climb level x l (by omega))
      operand := fun l hl => (ih.operand l hl).trans (hm.operand l (by omega))
      postfixes := fun bare x l hl => (ih.postfixes bare x l hl).trans
        (hm.postfixes bare x l (by omega)) }

theorem Readers.Agree.symm {r s : Readers} {n : Nat} (h : r.Agree s n) : s.Agree r n where
  expression l hl := (h.expression l hl).symm
  sequence l hl := (h.sequence l hl).symm
  assignment l hl := (h.assignment l hl).symm
  conditional x l hl := (h.conditional x l hl).symm
  climb level x l hl := (h.climb level x l hl).symm
  operand l hl := (h.operand l hl).symm
  postfixes bare x l hl := (h.postfixes bare x l hl).symm

theorem agree_min (n m : Nat) :
    (Readers.ofDepth isType n).Agree (Readers.ofDepth isType m) (min n m) := by
  obtain h | h := le_total n m
  . rw [min_eq_left h]
    exact agree_of_le h
  . rw [min_eq_right h]
    exact (agree_of_le h).symm

variable (isType) in
def allReaders : Readers :=
  ⟨expression isType, sequence isType, assignment isType, conditional isType, climb isType,
    operand isType, postfixes isType⟩

theorem agree_all (n : Nat) : (Readers.ofDepth isType n).Agree (allReaders isType) n := by
  have h (l : List Char) :
      (Readers.ofDepth isType n).Agree (readers isType l) (min n (4 * l.length + 4)) :=
    agree_min n _
  constructor
  all_goals
    intros
    dsimp only [allReaders, expression, sequence, assignment, conditional, climb,
      operand, postfixes]
  . exact (h _).expression _ (by omega)
  . exact (h _).sequence _ (by omega)
  . exact (h _).assignment _ (by omega)
  . exact (h _).conditional _ _ (by omega)
  . exact (h _).climb _ _ _ (by omega)
  . exact (h _).operand _ (by omega)
  . exact (h _).postfixes _ _ _ (by omega)

theorem shorten_all : (allReaders isType).Shorten := by
  have h (l : List Char) : (readers isType l).Shorten := shorten_ofDepth _
  constructor
  all_goals
    intros
    dsimp only [allReaders]
  . exact fun l => (h l).expression l
  . exact fun l => (h l).sequence l
  . exact fun l => (h l).assignment l
  . exact fun l => (h l).conditional _ l
  . exact fun l => (h l).climb _ _ l
  . exact fun l => (h l).operand l
  . exact fun l => (h l).postfixes _ _ l

/-! Each reader uses the others at any depth -/

theorem expression_eq (l : List Char) : expression isType l = expressionOf (sequence isType) l := by
  have h : (Readers.ofDepth isType (4 * l.length + 3)).sequence l = sequence isType l :=
    (agree_all _).sequence l (by omega)
  rw [expressionOf, ← h]
  rfl

theorem sequence_eq (l : List Char) :
    sequence isType l = sequenceOf (assignment isType) (sequence isType) l :=
  (agree_all (4 * l.length + 3)).nextSequence shorten_all (by omega)

theorem assignment_eq (l : List Char) :
    assignment isType l = assignmentOf isType (operand isType) (assignment isType)
      (conditional isType) l :=
  (agree_all (4 * l.length + 3)).nextAssignment shorten_all (by omega)

theorem conditional_eq (x : Expr) (l : List Char) :
    conditional isType x l =
      conditionalOf (climb isType) (expression isType) (operand isType) (conditional isType) x l :=
  (agree_all (4 * l.length + 3)).nextConditional shorten_all x (by omega)

theorem climb_eq (level : Nat) (x : Expr) (l : List Char) :
    climb isType level x l = climbOf (operand isType) (climb isType) level x l :=
  (agree_all (4 * l.length + 3)).nextClimb shorten_all level x (by omega)

theorem operand_eq (l : List Char) :
    operand isType l = operandOf isType (operand isType) (expression isType) (postfixes isType) l :=
  (agree_all (4 * l.length + 3)).nextOperand shorten_all (by omega)

theorem postfixes_eq (bare : Bool) (x : Expr) (l : List Char) :
    postfixes isType bare x l =
      postfixesOf (expression isType) (sequence isType) (postfixes isType) bare x l :=
  (agree_all (4 * l.length + 3)).nextPostfixes shorten_all bare x (by omega)

end Parse
end ScriptC.C
