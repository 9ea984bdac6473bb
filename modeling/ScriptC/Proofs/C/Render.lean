import Mathlib.Data.List.Find
import Mathlib.Tactic.FinCases
import ScriptC.Proofs.C.Parse

/-!
Expressions are read as they were written.
-/

namespace ScriptC.C

variable {c last : Char} {l l' rest : List Char} {text p : String}

/-! Tokens -/

theorem toList_of_isIdentifier (h : isIdentifier text = true) :
    ∃ c l, text.toList = c :: l ∧ c.isDigit = false ∧ isNameChar c = true ∧
      ∀ c ∈ l, isNameChar c = true := by
  unfold isIdentifier at h
  split at h
  . next c l htext => exact ⟨c, l, htext, by simpa [and_assoc] using h⟩
  . cases h

theorem token_word (h : isIdentifier text = true)
    (hrest : ∀ c ∈ rest.head?, isNameChar c = false) :
    token (text.toList ++ rest) = some (.word text, rest) := by
  obtain ⟨c, l, htext, hdigit, hname, hl⟩ := toList_of_isIdentifier h
  have hne : ∀ d, isNameChar d = false → (c == d) = false := by
    rintro d hd
    rw [beq_eq_false_iff_ne]
    rintro rfl
    simp [hname] at hd
  have htake : (l ++ rest).takeWhile isNameChar = l ∧ (l ++ rest).dropWhile isNameChar = rest := by
    rw [List.takeWhile_append_of_pos hl, List.dropWhile_append_of_pos hl]
    cases rest with
    | nil => simp
    | cons d rest => simp [hrest d rfl]
  rw [htext, List.cons_append, token, hne ' ' (by decide), hne '\n' (by decide),
    hne '.' (by decide), hdigit, hname, htake.1, htake.2, ← htext, String.ofList_toList]
  rfl

theorem numberTail_append (h : (numberTail last l).2 = [])
    (hrest : ∀ c ∈ rest.head?, goesOn (l.getLastD last) c = false) :
    numberTail last (l ++ rest) = (l, rest) := by
  induction l generalizing last with
  | nil =>
    cases rest with
    | nil => rfl
    | cons d rest => simpa [numberTail] using hrest
  | cons c l ih =>
    rw [numberTail] at h
    split at h
    . next hc =>
      rw [List.getLastD_cons] at hrest
      rw [List.cons_append, numberTail, if_pos hc, ih h hrest]
    . cases h

theorem toList_of_isNumber (h : C.isNumber text = true) :
    ∃ c l, text.toList = c :: l ∧ (c.isDigit || (c == '.' && l.head?.any Char.isDigit)) = true ∧
      (numberTail c l).2 = [] := by
  unfold C.isNumber at h
  split at h
  . next c l htext => exact ⟨c, l, htext, by simpa using h⟩
  . cases h

theorem token_number (h : C.isNumber text = true)
    (hrest : ∀ c ∈ rest.head?, goesOn (text.toList.getLastD ' ') c = false) :
    token (text.toList ++ rest) = some (.number text, rest) := by
  obtain ⟨c, l, htext, hstart, htail⟩ := toList_of_isNumber h
  rw [htext, List.getLastD_cons] at hrest
  have hstart : (c.isDigit || c == '.' && (l ++ rest).head?.any Char.isDigit) = true := by
    cases l <;> simp_all
  have hblank : (c == ' ' || c == '\n') = false := by
    rw [Bool.or_eq_false_iff, beq_eq_false_iff_ne, beq_eq_false_iff_ne]
    constructor <;> rintro rfl <;> simp at hstart
  rw [htext, List.cons_append, token, hblank, hstart, numberTail_append htail hrest, ← htext,
    String.ofList_toList]
  rfl

theorem isPrefixOf_append_cons {q p : List Char} (h : ¬ p ++ [c] <+: q) :
    q.isPrefixOf (p ++ c :: l) = q.isPrefixOf p := by
  rw [Bool.eq_iff_iff, List.isPrefixOf_iff_prefix, List.isPrefixOf_iff_prefix]
  constructor
  . intro hq
    by_contra hne
    refine h (List.prefix_of_prefix_length_le ⟨l, by simp⟩ hq ?_)
    by_contra hlen
    rw [List.length_append, List.length_singleton] at hlen
    exact hne (List.prefix_of_prefix_length_le hq (List.prefix_append _ _) (by omega))
  . exact fun hq => hq.trans (List.prefix_append _ _)

theorem token_dot (h : isIdentifier text = true) :
    token ('.' :: (text.toList ++ rest)) = some (.punct ".", text.toList ++ rest) := by
  obtain ⟨c, l, htext, hdigit, hname, -⟩ := toList_of_isIdentifier h
  have hdot : isNameChar '.' = false := by decide
  have hc : c ≠ '.' := by
    rintro rfl
    simp [hdot] at hname
  have hlength : ".".length = 1 := rfl
  rw [htext, List.cons_append]
  simp [token, punctuators, List.isPrefixOf, hdigit, hc.symm, hdot, hlength]

def operators : List String := assignOps ++ binaryOps.map (·.1) ++ unaryOps ++ stepOps

theorem token_operator (hp : p ∈ operators)
    (hc : ∀ q ∈ punctuators, ¬ p.toList ++ [c] <+: q.toList) :
    token (p.toList ++ c :: l) = some (.punct p, c :: l) := by
  have hfind : punctuators.find? (fun q => q.toList.isPrefixOf (p.toList ++ c :: l)) = some p := by
    rw [List.find?_congr fun q hq => isPrefixOf_append_cons (hc q hq)]
    clear hc
    revert p
    decide
  have hfirst : ∀ p ∈ operators, p.toList ≠ [] ∧ (p.toList.head?.all fun d =>
      d != ' ' && d != '\n' && d != '.' && !d.isDigit && !isNameChar d) = true := by
    decide
  obtain ⟨hne, hfirst⟩ := hfirst p hp
  obtain ⟨d, ds, hds⟩ := List.exists_cons_of_ne_nil hne
  rw [hds, List.cons_append] at hfind ⊢
  simp_all [token, ← String.length_toList]

theorem token_blank_operator (hp : p ∈ operators) :
    token (' ' :: (p.toList ++ ' ' :: l)) = some (.punct p, ' ' :: l) := by
  have hblank : ∀ q ∈ punctuators, ' ' ∉ q.toList := by decide
  refine token_operator hp fun q hq hle => hblank q hq (hle.subset (by simp))

def isFirst (c : Char) : Bool := isNameChar c || c == '.' || c == '('

theorem token_unary (hp : p ∈ unaryOps ++ stepOps) (hl : l.head?.any isFirst = true) :
    token (p.toList ++ l) = some (.punct p, l) := by
  have hnext : ∀ p ∈ unaryOps ++ stepOps, ∀ q ∈ punctuators, p.toList <+: q.toList →
      (q.toList.drop p.toList.length).any isFirst = false := by
    decide
  cases l with
  | nil => cases hl
  | cons c l =>
    refine token_operator (by simp_all [operators]) fun q hq hle => ?_
    obtain ⟨t, ht⟩ := hle
    have hany := hnext p hp q hq ⟨c :: t, by simpa using ht⟩
    simp_all [← ht]

/-! Which expressions are read back, and as what -/

namespace Expr

mutual

def Forall (P : Expr → Prop) : Expr → Prop
  | .missing => P .missing
  | .raw text isConstant => P (.raw text isConstant)
  | .call fn args => P (.call fn args) ∧ ForallOf P args
  | .callPtr fn args => P (.callPtr fn args) ∧ fn.Forall P ∧ ForallOf P args
  | .seq list => P (.seq list) ∧ ForallOf P list
  | .cond test thenE elseE => P (.cond test thenE elseE) ∧ test.Forall P ∧
    thenE.Forall P ∧ elseE.Forall P
  | .assign target op value => P (.assign target op value) ∧ target.Forall P ∧ value.Forall P
  | .binary op x y => P (.binary op x y) ∧ x.Forall P ∧ y.Forall P
  | .unary op x => P (.unary op x) ∧ x.Forall P
  | .index x i => P (.index x i) ∧ x.Forall P ∧ i.Forall P
  | .field x name arrow => P (.field x name arrow) ∧ x.Forall P
  | .likely x unlikely => P (.likely x unlikely) ∧ x.Forall P
  | .cast type x => P (.cast type x) ∧ x.Forall P
  | .bits test x => P (.bits test x) ∧ x.Forall P
  | .pointer type x => P (.pointer type x) ∧ x.Forall P

def ForallOf (P : Expr → Prop) : List Expr → Prop
  | [] => True
  | e :: rest => e.Forall P ∧ ForallOf P rest

end

mutual

/--
An expression without what its text does not show: which operands are constant, and that a plain
name is called through a pointer.
-/
def plain : Expr → Expr
  | .raw text _ => .raw text false
  | .call fn args => .call fn (plainList args)
  | .callPtr fn args => callOf fn.plain (plainList args)
  | .seq list => .seq (plainList list)
  | .cond test thenE elseE => .cond test.plain thenE.plain elseE.plain
  | .assign target op value => .assign target.plain op value.plain
  | .binary op x y => .binary op x.plain y.plain
  | .unary op x => .unary op x.plain
  | .index x i => .index x.plain i.plain
  | .field x name arrow => .field x.plain name arrow
  | .likely x unlikely => .likely x.plain unlikely
  | .cast type x => .cast type x.plain
  | e => e

def plainList : List Expr → List Expr
  | [] => []
  | e :: rest => e.plain :: plainList rest

end

theorem render_index (x i : Expr) : (index x i).render = x.render ++ "[" ++ i.render ++ "]" := by
  rw [render]

theorem plain_index (x i : Expr) : (index x i).plain = .index x.plain i.plain := by
  rw [plain]

variable (isType : String → Bool)

def isOperand (word : String) : Bool := isIdentifier word && !isType word && !keywords.contains word

def isTypeName (type : String) : Bool :=
  let word := String.ofList (type.toList.takeWhile isNameChar)
  isIdentifier word && isType word && typeText 0 (type.toList ++ [')']) == some (type.toList, [])

def Spelled : Expr → Prop
  | .raw text _ => isOperand isType text = true ∨ C.isNumber text = true
  | .call fn _ => isOperand isType fn = true ∧ fn ≠ "likely" ∧ fn ≠ "unlikely"
  | .seq list => 2 ≤ list.length
  | .assign _ op _ => op ∈ assignOps
  | .binary op _ _ => op ∈ binaryOps.map (·.1)
  | .unary op _ => op ∈ unaryOps ++ stepOps
  | .field _ name _ => isIdentifier name = true
  | .likely _ unlikely => isType (if unlikely then "unlikely" else "likely") = false
  | .cast type _ => isTypeName isType type = true
  | .missing | .bits .. | .pointer .. => False
  | .callPtr .. | .cond .. | .index .. => True

def runsInto : Expr → Char → Bool
  | .raw text _, c => C.isNumber text && goesOn (text.toList.getLastD ' ') c
  | _, _ => false

def Apart : Expr → Prop
  | .field x _ arrow => x.runsInto (if arrow then '-' else '.') = false
  | _ => True

def Follows (e : Expr) (rest : List Char) : Prop :=
  ∀ c ∈ rest.head?, isNameChar c = false ∧ e.runsInto c = false

end Expr

namespace Parse
open C.Expr

variable {isType : String → Bool} {e x y : Expr} {args : List Expr} {bare : Bool} {level : Nat}

def Legible (isType : String → Bool) (e : Expr) : Prop := Spelled isType e ∧ Apart e

theorem peek_eq {t : Token} (h : token l = some (t, rest)) : peek l = some t := by simp [peek, h]

theorem skip_eq {t : Token} (h : token l = some (t, rest)) : skip l = rest := by simp [skip, h]

theorem next_eq {t : Token} (h : peek l = some t) : next p l = (t == .punct p) := by simp [next, h]

theorem next_open : next "(" ('(' :: l) = true := rfl

theorem skip_open : skip ('(' :: l) = l := rfl

theorem expect_close : expect ")" (')' :: l) = some l := rfl

theorem castType?_of_peek {t : Token} (h : peek l = some t) (ht : t ≠ .punct "(") :
    castType? isType l = none := by
  simp [castType?, next_eq h, ht]

theorem operand_raw {t : Token} (ht : token l = some (t, rest)) (h : t = .number text ∨
      t = .word text ∧ isType text = false ∧ keywords.contains text = false) :
    operand isType l = postfixes isType true (.raw text false) rest := by
  obtain rfl | ⟨rfl, htype, hkeyword⟩ := h
  . rw [operand_eq, operandOf, castType?_of_peek (peek_eq ht) (by simp), peek_eq ht, skip_eq ht]
  . rw [operand_eq, operandOf, castType?_of_peek (peek_eq ht) (by simp), peek_eq ht, skip_eq ht]
    simp only [htype, hkeyword, Bool.or_self, Bool.false_eq_true, if_false]

theorem castType?_parens (h : ∀ w, peek l = some (.word w) → isType w = false) :
    castType? isType ('(' :: l) = none := by
  rw [castType?, next_open, skip_open, if_pos rfl]
  split
  . next w hw =>
    rw [h w hw]
    rfl
  . rfl

theorem operand_parens (hpeek : ∀ w, peek l = some (.word w) → isType w = false)
    (h : expression isType l = some (e, ')' :: rest)) :
    operand isType ('(' :: l) = postfixes isType false e rest := by
  have hpunct : peek ('(' :: l) = some (.punct "(") := rfl
  rw [operand_eq, operandOf, castType?_parens hpeek, hpunct, skip_open, h]
  simp [expect_close, unaryOps, stepOps]

theorem operand_blank : operand isType (' ' :: l) = operand isType l :=
  (operand_eq (' ' :: l)).trans (operand_eq l).symm

theorem assignment_blank : assignment isType (' ' :: l) = assignment isType l := by
  have hcast : castType? isType (' ' :: l) = castType? isType l := rfl
  rw [assignment_eq, assignmentOf, operand_blank, hcast, assignment_eq l, assignmentOf]

theorem sequence_blank : sequence isType (' ' :: l) = sequence isType l := by
  rw [sequence_eq, sequenceOf, assignment_blank, sequence_eq l, sequenceOf]

theorem expression_blank : expression isType (' ' :: l) = expression isType l := by
  rw [expression_eq, expressionOf, sequence_blank, expression_eq l, expressionOf]

/-! Where an expression ends -/

def Before (ps : List String) (l : List Char) : Prop := ∀ t ∈ peek l, ∃ p ∈ ps, t = .punct p

theorem before_of_peek {ps : List String} (hl : peek l = some (.punct p)) (hp : p ∈ ps) :
    Before ps l := by
  intro t ht
  rw [hl] at ht
  exact ⟨p, hp, (Option.mem_some.1 ht).symm⟩

theorem Before.mono {ps qs : List String} (h : Before ps l) (hle : ps ⊆ qs) : Before qs l := by
  intro t ht
  obtain ⟨p, hp, htp⟩ := h t ht
  exact ⟨p, hle hp, htp⟩

theorem Before.next {ps : List String} (h : Before ps l) (hp : p ∉ ps) : next p l = false := by
  rw [C.next, beq_eq_false_iff_ne]
  intro hl
  obtain ⟨q, hq, hpq⟩ := h _ hl
  cases hpq
  exact hp hq

theorem postfixes_of_before {ps : List String} (h : Before ps l)
    (hps : "[" ∉ ps ∧ "(" ∉ ps ∧ "." ∉ ps ∧ "->" ∉ ps) :
    postfixes isType bare x l = some (x, l) := by
  rw [postfixes_eq, postfixesOf, h.next hps.1, h.next hps.2.1, h.next hps.2.2.1, h.next hps.2.2.2]
  rfl

def closers : List String := [")", "]", ":", ";"]

theorem climb_of_before (h : Before ("?" :: "," :: closers) l) :
    climb isType level x l = some (x, l) := by
  have hlookup : ∀ p ∈ "?" :: "," :: closers, binaryOps.lookup p = none := by decide
  rw [climb_eq, climbOf]
  split
  . next op hop =>
    obtain ⟨p, hp, hop⟩ := h _ hop
    cases hop
    rw [hlookup _ hp]
  . rfl

theorem conditional_of_before (h : Before ("," :: closers) l) :
    conditional isType x l = some (x, l) := by
  rw [conditional_eq, conditionalOf, climb_of_before (h.mono (by simp))]
  simp [h.next (p := "?") (by decide)]

theorem assignment_of_operand (h : operand isType l = some (x, rest))
    (hrest : Before ("," :: closers) rest) : assignment isType l = some (x, rest) := by
  have hassign : ∀ p ∈ "," :: closers, assignOps.contains p = false := by decide
  rw [assignment_eq, assignmentOf, h, Option.bind_eq_bind, Option.bind_some]
  simp only
  split
  . next op hop =>
    obtain ⟨p, hp, hop⟩ := hrest _ hop
    cases hop
    rw [hassign _ hp, conditional_of_before hrest]
    rfl
  . exact conditional_of_before hrest

def breaks : List Char := [' ', ')', ']', ',', ';', '[', '(']

structure Ends (l : List Char) : Prop where
  breaks : ∀ c ∈ l.head?, c ∈ breaks
  before : Before closers l

theorem Ends.next_comma (h : Ends rest) : next "," rest = false := h.before.next (by decide)

theorem Ends.closers (h : Ends rest) : Before ("," :: closers) rest := h.before.mono (by simp)

theorem ends_nil : Ends [] := ⟨by simp, by simp [Before, peek, token]⟩

theorem ends_cons (h : c ∈ [')', ']', ';']) : Ends (c :: l) := by
  fin_cases h <;> exact ⟨by simp [Parse.breaks], before_of_peek rfl (by decide)⟩

theorem ends_colon : Ends (' ' :: ':' :: ' ' :: l) :=
  ⟨by simp [Parse.breaks], before_of_peek (p := ":") rfl (by decide)⟩

theorem follows_of_breaks (h : ∀ c ∈ l.head?, c ∈ breaks) :
    e.Follows l := by
  have hbreaks : (breaks.all fun c => !isNameChar c && c != '.' && c != '+' && c !=
    '-') = true := by
    decide
  intro c hc
  have hc := List.all_eq_true.1 hbreaks c (h c hc)
  simp only [Bool.and_eq_true, Bool.not_eq_eq_eq_not, Bool.not_true, bne_iff_ne] at hc
  refine ⟨hc.1.1.1, ?_⟩
  cases e <;> simp [runsInto, goesOn, hc]

def isBare : Expr → Bool
  | .raw .. => true
  | _ => false

structure Opens (isType : String → Bool) (l : List Char) : Prop where
  first : l.head?.any isFirst = true
  noType : ∀ w, peek l = some (.word w) → isType w = false
  noClose : next ")" l = false
  noCast : castType? isType l = none

theorem opens_parens (h : ∀ w, peek l = some (.word w) → isType w = false) :
    Opens isType ('(' :: l) where
  first := rfl
  noType := by rintro w ⟨⟩
  noClose := rfl
  noCast := castType?_parens h

structure Reads (isType : String → Bool) (e : Expr) : Prop where
  opens : ∀ rest, e.Follows rest → Opens isType (e.render.toList ++ rest)
  operand : ∀ rest, e.Follows rest →
    operand isType (e.render.toList ++ rest) = postfixes isType (isBare e) e.plain rest
  inner : e.hasTestParens = true → ∀ rest, Ends rest →
    expression isType ((inner e.render).toList ++ rest) = some (e.plain, rest)

theorem Reads.opens_breaks (h : Reads isType e) (hrest : ∀ c ∈ rest.head?, c ∈ breaks) :
    Opens isType (e.render.toList ++ rest) :=
  h.opens rest (follows_of_breaks hrest)

/-! The parts of an expression -/

theorem Reads.before {ps : List String} (h : Reads isType e)
    (hbreaks : ∀ c ∈ rest.head?, c ∈ breaks)
    (hrest : Before ps rest) (hps : "[" ∉ ps ∧ "(" ∉ ps ∧ "." ∉ ps ∧ "->" ∉ ps) :
    Parse.operand isType (e.render.toList ++ rest) = some (e.plain, rest) := by
  rw [h.operand _ (follows_of_breaks hbreaks), postfixes_of_before hrest hps]

theorem Reads.assignment (h : Reads isType e) (hbreaks : ∀ c ∈ rest.head?, c ∈ breaks)
    (hrest : Before ("," :: closers) rest) :
    assignment isType (e.render.toList ++ rest) = some (e.plain, rest) :=
  assignment_of_operand (h.before hbreaks hrest (by decide)) hrest

theorem expression_of_assignment (h : assignment isType l = some (x, rest)) (hrest : Ends rest) :
    expression isType l = some (x, rest) := by
  rw [expression_eq, expressionOf, sequence_eq, sequenceOf, h]
  simp [hrest.next_comma]

theorem Reads.expression (h : Reads isType e) (hrest : Ends rest) :
    expression isType (e.render.toList ++ rest) = some (e.plain, rest) :=
  expression_of_assignment (h.assignment hrest.breaks hrest.closers) hrest

theorem toList_joined_cons (h : args ≠ []) :
    (joined (renderList (e :: args))).toList ++ rest =
      e.render.toList ++ ',' :: ' ' :: ((joined (renderList args)).toList ++ rest) := by
  cases args with
  | nil => contradiction
  | cons f list => simp [renderList, joined]

theorem sequence_render (hne : args ≠ []) (h : ∀ e ∈ args, Reads isType e) (hrest : Ends rest) :
    sequence isType ((joined (renderList args)).toList ++ rest) = some (plainList args, rest) := by
  induction args with
  | nil => contradiction
  | cons e list ih =>
    rw [List.forall_mem_cons] at h
    by_cases hlist : list = []
    . subst hlist
      rw [sequence_eq, sequenceOf, renderList, renderList, joined,
        h.1.assignment hrest.breaks hrest.closers]
      simp [hrest.next_comma, plainList]
    . have hcomma {l} : next "," (',' :: l) = true := rfl
      have hskip {l} : skip (',' :: l) = l := rfl
      have hbefore {l} : Before ("," :: closers) (',' :: l) :=
        before_of_peek (p := ",") rfl (by simp)
      rw [toList_joined_cons hlist, sequence_eq, sequenceOf,
        h.1.assignment (by simp [breaks]) hbefore]
      simp [hcomma, hskip, sequence_blank, ih hlist h.2, plainList]

theorem opens_joined (hne : args ≠ []) (h : ∀ e ∈ args, Reads isType e) (hrest : Ends rest) :
    Opens isType ((joined (renderList args)).toList ++ rest) := by
  obtain ⟨e, list, rfl⟩ := List.exists_cons_of_ne_nil hne
  rw [List.forall_mem_cons] at h
  by_cases hlist : list = []
  . subst hlist
    exact h.1.opens_breaks hrest.breaks
  . rw [toList_joined_cons hlist]
    exact h.1.opens_breaks (by simp [breaks])

theorem postfixes_args (h : ∀ e ∈ args, Reads isType e) :
    postfixes isType bare x ('(' :: ((joined (renderList args)).toList ++ ')' :: rest)) =
      postfixes isType false (called bare x (plainList args)) rest := by
  have hbracket {l} : next "[" ('(' :: l) = false := rfl
  rw [postfixes_eq, postfixesOf, hbracket, next_open, skip_open]
  by_cases hargs : args = []
  . subst hargs
    rfl
  . have hends : Ends (')' :: rest) := ends_cons (by simp)
    rw [(opens_joined hargs h hends).noClose, sequence_render hargs h hends]
    simp [expect_close]

/-! What reads a text in parentheses, and what goes on with one -/

theorem reads_parens {s : String} (hrender : e.render = "(" ++ s ++ ")") (hbare : isBare e = false)
    (hpeek : ∀ rest w, Ends rest → peek (s.toList ++ rest) = some (.word w) → isType w = false)
    (h : ∀ rest, Ends rest → expression isType (s.toList ++ rest) = some (e.plain, rest)) :
    Reads isType e := by
  have hends {rest} : Ends (')' :: rest) := ends_cons (by simp)
  have htext (rest) : e.render.toList ++ rest = '(' ::
    (s.toList ++ ')' :: rest) := by simp [hrender]
  refine ⟨fun rest _ => ?_, fun rest _ => ?_, fun _ rest hrest => ?_⟩
  . rw [htext]
    exact opens_parens fun w => hpeek _ w hends
  . rw [htext, hbare, operand_parens (fun w => hpeek _ w hends) (h _ hends)]
  . have hinner : Expr.inner e.render = s := by simp [hrender, Expr.inner]
    rw [hinner, h rest hrest]

theorem Reads.extend {f : List Char → List Char} (hx : Reads isType x)
    (htext : ∀ rest, e.render.toList ++ rest = x.render.toList ++ f rest)
    (htail : ∀ rest, e.Follows rest → x.Follows (f rest))
    (hparens : e.hasTestParens = false)
    (h : ∀ rest, e.Follows rest →
      postfixes isType (isBare x) x.plain (f rest) = postfixes isType (isBare e) e.plain rest) :
    Reads isType e := by
  refine ⟨fun rest hrest => ?_, fun rest hrest => ?_, by simp [hparens]⟩
  . rw [htext]
    exact hx.opens _ (htail rest hrest)
  . rw [htext, hx.operand _ (htail rest hrest), h rest hrest]

theorem reads_raw {isConstant : Bool} (h : Spelled isType (.raw text isConstant)) :
    Reads isType (.raw text isConstant) := by
  have htoken (rest) (hrest : (Expr.raw text isConstant).Follows rest) :
      ∃ t, token (text.toList ++ rest) = some (t, rest) ∧ (t = .number text ∨
        t = .word text ∧ isType text = false ∧ keywords.contains text = false) := by
    obtain hw | hn := h
    . simp only [isOperand, Bool.and_eq_true, Bool.not_eq_eq_eq_not, Bool.not_true] at hw
      exact ⟨_, token_word hw.1.1 fun c hc => (hrest c hc).1, .inr ⟨rfl, hw.1.2, hw.2⟩⟩
    . refine ⟨_, token_number hn fun c hc => ?_, .inl rfl⟩
      have hc := (hrest c hc).2
      rwa [runsInto, hn, Bool.true_and] at hc
  have hfirst (rest) : (text.toList ++ rest).head?.any isFirst = true := by
    obtain hw | hn := h
    . simp only [isOperand, Bool.and_eq_true] at hw
      obtain ⟨c, l, htext, -, hname, -⟩ := toList_of_isIdentifier hw.1.1
      simp [htext, isFirst, hname]
    . obtain ⟨c, l, htext, hstart, -⟩ := toList_of_isNumber hn
      simp_all [isFirst, isNameChar, Char.isAlphanum]
      grind
  refine ⟨fun rest hrest => ?_, fun rest hrest => ?_, by simp [hasTestParens]⟩
  all_goals
    obtain ⟨t, ht, hkind⟩ := htoken rest hrest
    rw [render]
  . refine ⟨hfirst rest, ?_, ?_, castType?_of_peek (peek_eq ht) ?_⟩
    . rw [peek_eq ht]
      rintro w ⟨⟩
      simp_all
    . rw [next_eq (peek_eq ht)]
      obtain rfl | ⟨rfl, -⟩ := hkind <;> rfl
    . obtain rfl | ⟨rfl, -⟩ := hkind <;> simp
  . exact operand_raw ht hkind

theorem Reads.index (hx : Reads isType x) (hi : Reads isType y) : Reads isType (.index x y) := by
  refine hx.extend (f := fun rest => '[' :: (y.render.toList ++ ']' :: rest))
    (by simp [render_index])
    (fun rest _ => follows_of_breaks (by simp [breaks])) rfl fun rest _ => ?_
  have hopen {l} : next "[" ('[' :: l) = true := rfl
  have hskip {l} : skip ('[' :: l) = l := rfl
  have hclose {l} : expect "]" (']' :: l) = some l := rfl
  rw [postfixes_eq, postfixesOf, hopen, hskip, hi.expression (ends_cons (by simp))]
  simp [hclose, plain_index, isBare]

theorem postfixes_field {arrow : Bool}
    (hsign : token l = some (.punct (if arrow then "->" else "."), rest))
    (hname : token rest = some (.word text, l')) :
    postfixes isType bare x l = postfixes isType false (.field x text arrow) l' := by
  rw [postfixes_eq, postfixesOf, next_eq (peek_eq hsign), next_eq (peek_eq hsign),
    next_eq (peek_eq hsign),
    next_eq (peek_eq hsign), skip_eq hsign, peek_eq hname, skip_eq hname]
  cases arrow <;> rfl

theorem Reads.field {arrow : Bool} (hx : Reads isType x)
    (h : Legible isType (.field x text arrow)) :
    Reads isType (.field x text arrow) := by
  obtain ⟨hname, hapart⟩ := h
  refine hx.extend (f := fun rest => (if arrow then ['-', '>'] else ['.']) ++ (text.toList ++ rest))
    ?_ ?_ rfl ?_
  . cases arrow <;> simp [render]
  . rintro rest - c hc
    cases arrow with
    | true | false =>
      obtain rfl := by simpa using hc
      exact ⟨by decide, hapart⟩
  . intro rest hrest
    refine postfixes_field ?_ (token_word hname fun c hc => (hrest c hc).1)
    cases arrow with
    | true => rfl
    | false => exact token_dot hname

theorem reads_called (h : isOperand isType text = true) (hargs : ∀ e ∈ args, Reads isType e)
    (hrender : e.render = text ++ "(" ++ joined (renderList args) ++ ")") (hbare : isBare e = false)
    (hparens : e.hasTestParens = false)
    (hplain : e.plain = called true (.raw text false) (plainList args)) : Reads isType e := by
  have hfn : Reads isType (.raw text false) := reads_raw (.inl h)
  refine hfn.extend (f := fun rest => '(' :: ((joined (renderList args)).toList ++ ')' :: rest))
    ?_ (fun rest _ => follows_of_breaks (by simp [breaks])) hparens fun rest _ => ?_
  . simp [hrender, render]
  . rw [isBare, plain, postfixes_args hargs, hbare, hplain]

theorem reads_call (h : Spelled isType (.call text args)) (hargs : ∀ e ∈ args, Reads isType e) :
    Reads isType (.call text args) := by
  refine reads_called h.1 hargs (by simp [render]) rfl rfl ?_
  obtain ⟨hword, hlikely, hunlikely⟩ := h
  simp_all [plain, called, callOf, isOperand]

theorem Reads.likely {unlikely : Bool} (hx : Reads isType x)
    (h : Spelled isType (.likely x unlikely)) : Reads isType (.likely x unlikely) := by
  have hword : isOperand isType (if unlikely then "unlikely" else "likely") = true := by
    rw [isOperand, show isType _ = false from h]
    cases unlikely <;> decide
  have hargs : ∀ e ∈ [x], Reads isType e := by simpa using hx
  refine reads_called hword hargs ?_ rfl rfl ?_ <;> cases unlikely <;> rfl

theorem Reads.callPtr (hx : Reads isType x) (hargs : ∀ e ∈ args, Reads isType e) :
    Reads isType (.callPtr x args) := by
  have htext (rest) : (Expr.callPtr x args).render.toList ++ rest =
      '(' :: (x.render.toList ++ ')' :: '(' ::
        ((joined (renderList args)).toList ++ ')' :: rest)) := by
    simp [render]
  have hopens {l} : Opens isType (x.render.toList ++ ')' :: l) := hx.opens_breaks (by simp [breaks])
  refine ⟨fun rest _ => ?_, fun rest _ => ?_, by simp [hasTestParens]⟩
  all_goals rw [htext]
  . exact opens_parens hopens.noType
  . rw [operand_parens hopens.noType (hx.expression (ends_cons (by simp))), postfixes_args hargs]
    rfl

theorem assignment_of_conditional (h : operand isType l = some (x, rest))
    (hrest : C.peek rest = some (.punct p)) (hp : p ∉ assignOps) :
    assignment isType l = conditional isType x rest := by
  rw [assignment_eq, assignmentOf, h]
  simp [hrest, hp]

theorem Reads.cond {a b : Expr} (hx : Reads isType x) (ha : Reads isType a) (hb : Reads isType b) :
    Reads isType (.cond x a b) := by
  have hpeek {l} : C.peek (' ' :: '?' :: ' ' :: l) = some (.punct "?") := rfl
  have hskip {l} : skip (' ' :: '?' :: ' ' :: l) = ' ' :: l := rfl
  have hbefore {l} : Before ["?"] (' ' :: '?' :: ' ' :: l) := before_of_peek hpeek (by simp)
  have hcolon {l} : expect ":" (' ' :: ':' :: ' ' :: l) = some (' ' :: l) := rfl
  have htext (rest) : (x.render ++ " ? " ++ a.render ++ " : " ++ b.render).toList ++ rest =
      x.render.toList ++ ' ' :: '?' :: ' ' ::
        (a.render.toList ++ ' ' :: ':' :: ' ' :: (b.render.toList ++ rest)) := by
    simp
  refine reads_parens (s := x.render ++ " ? " ++ a.render ++ " : " ++ b.render)
    (by simp [render, String.append_assoc]) rfl (fun rest w _ => ?_) fun rest hrest => ?_
  all_goals rw [htext]
  . exact (hx.opens_breaks (by simp [breaks])).noType w
  . refine expression_of_assignment ?_ hrest
    rw [assignment_of_conditional (hx.before (by simp [breaks]) hbefore (by decide))
      hpeek (by decide),
      conditional_eq, conditionalOf, climb_of_before (hbefore.mono (by simp))]
    simp [next_eq hpeek, hskip, expression_blank, ha.expression ends_colon, hcolon, operand_blank,
      hb.before hrest.breaks hrest.before (by decide), conditional_of_before hrest.closers, plain]

theorem Reads.before_operator (hx : Reads isType x) (hp : p ∈ operators) :
    Parse.operand isType (x.render.toList ++ ' ' :: (p.toList ++ ' ' :: l)) =
      some (x.plain, ' ' :: (p.toList ++ ' ' :: l)) := by
  have hps : ∀ p ∈ operators, "[" ≠ p ∧ "(" ≠ p ∧ "." ≠ p ∧ "->" ≠ p := by decide
  have hbefore : Before [p] (' ' :: (p.toList ++ ' ' :: l)) :=
    before_of_peek (peek_eq (token_blank_operator hp)) (by simp)
  exact hx.before (by simp [breaks]) hbefore (by simpa using hps p hp)

theorem Reads.join (hx : Reads isType x) (hbare : isBare e = false)
    (hrender : e.render = "(" ++ (x.render ++ " " ++ p ++ " " ++ y.render) ++ ")")
    (h : ∀ rest, Ends rest →
      Parse.assignment isType (x.render.toList ++ ' ' ::
        (p.toList ++ ' ' :: (y.render.toList ++ rest))) =
        some (e.plain, rest)) :
    Reads isType e := by
  refine reads_parens hrender hbare (fun rest w _ => ?_) fun rest hrest => ?_
  . simp only [String.toList_append, List.append_assoc]
    exact (hx.opens_breaks (by simp [breaks])).noType w
  . simpa using expression_of_assignment (h rest hrest) hrest

theorem Reads.assign (hx : Reads isType x) (hy : Reads isType y) (hp : p ∈ assignOps) :
    Reads isType (.assign x p y) := by
  have hop : p ∈ operators := by simp [operators, hp]
  refine hx.join (p := p) (y := y) rfl (by simp [render, String.append_assoc]) fun rest hrest => ?_
  have htoken := token_blank_operator (l := y.render.toList ++ rest) hop
  have hopens : Opens isType (x.render.toList ++ ' ' ::
    (p.toList ++ ' ' :: (y.render.toList ++ rest))) :=
    hx.opens_breaks (by simp [breaks])
  rw [assignment_eq, assignmentOf, hx.before_operator hop]
  simp [peek_eq htoken, skip_eq htoken, hp, hopens.noCast, assignment_blank,
    hy.assignment hrest.breaks hrest.closers, plain]

theorem Reads.binary (hx : Reads isType x) (hy : Reads isType y) (hp : p ∈ binaryOps.map (·.1)) :
    Reads isType (.binary p x y) := by
  have hlevels : ∀ p ∈ binaryOps.map (·.1), p ∉ assignOps ∧
      (binaryOps.lookup p).isSome = true ∧ (binaryOps.lookup p).all (1 ≤ ·) = true := by
    decide
  obtain ⟨hassign, hsome, hall⟩ := hlevels p hp
  obtain ⟨q, hq⟩ := Option.isSome_iff_exists.1 hsome
  have hop : p ∈ operators := by simp_all [operators]
  refine hx.join (p := p) (y := y) rfl (by simp [render, String.append_assoc]) fun rest hrest => ?_
  have htoken := token_blank_operator (l := y.render.toList ++ rest) hop
  have hstop {level z} : climb isType level z rest = some (z, rest) :=
    climb_of_before (hrest.before.mono (by simp))
  rw [assignment_of_conditional (hx.before_operator hop) (peek_eq htoken) hassign,
    conditional_eq, conditionalOf,
    climb_eq, climbOf]
  simp_all [peek_eq htoken, skip_eq htoken, operand_blank,
    hy.before hrest.breaks hrest.before (by decide), hrest.before.next (p := "?")
      (by decide), plain]

theorem Reads.unary (hx : Reads isType x) (hp : p ∈ unaryOps ++ stepOps) :
    Reads isType (.unary p x) := by
  have hparen : ∀ p ∈ unaryOps ++ stepOps, p ≠ "(" := by decide
  refine reads_parens (s := p ++ x.render) (by simp [render, String.append_assoc]) rfl
    (fun rest w hrest => ?_) fun rest hrest => ?_
  all_goals
    have hopens := hx.opens_breaks hrest.breaks
    have htoken := token_unary hp hopens.first
    rw [String.toList_append, List.append_assoc]
  . simp [peek_eq htoken]
  . refine expression_of_assignment (assignment_of_operand ?_ hrest.closers) hrest
    rw [operand_eq, operandOf, castType?_of_peek (peek_eq htoken) (by simpa using hparen p hp),
      peek_eq htoken, skip_eq htoken, hopens.noCast, hx.before hrest.breaks
        hrest.before (by decide)]
    simp_all [plain]

theorem reads_seq (h : 2 ≤ args.length) (hargs : ∀ e ∈ args, Reads isType e) :
    Reads isType (.seq args) := by
  have hne : args ≠ [] := by
    rintro rfl
    simp at h
  refine reads_parens (s := joined (renderList args)) (by simp [render]) rfl
    (fun rest w hrest => (opens_joined hne hargs hrest).noType w) fun rest hrest => ?_
  rw [expression_eq, expressionOf, sequence_render hne hargs hrest]
  obtain _ | ⟨e, _ | ⟨f, list⟩⟩ := args
  . contradiction
  . simp at h
  . rfl

theorem typeText_append {d : Nat} (h : typeText d (l ++ [')']) = some (l, [])) :
    typeText d (l ++ ')' :: rest) = some (l, rest) := by
  induction l generalizing d with
  | nil =>
    cases d with
    | zero => rfl
    | succ d => simp [typeText] at h
  | cons c l ih =>
    by_cases hc : d = 0 ∧ c = ')'
    . obtain ⟨rfl, rfl⟩ := hc
      simp [typeText] at h
    . rw [List.cons_append, typeText] at h ⊢
      . simp only [Option.map_eq_some_iff, Prod.mk.injEq, List.cons.injEq, true_and] at h
        obtain ⟨⟨l, l'⟩, hl, rfl, rfl⟩ := h
        rw [ih hl]
        rfl
      all_goals simpa using hc

theorem castType?_of_isTypeName (h : isTypeName isType text = true) :
    castType? isType ('(' :: (text.toList ++ ')' :: rest)) = some (text, rest) := by
  simp only [isTypeName, Bool.and_eq_true, beq_iff_eq] at h
  obtain ⟨⟨hword, htype⟩, htext⟩ := h
  have hsplit : text.toList ++ ')' :: rest =
    (String.ofList (text.toList.takeWhile isNameChar)).toList ++
      (text.toList.dropWhile isNameChar ++ ')' :: rest) := by
    rw [String.toList_ofList, ← List.append_assoc, List.takeWhile_append_dropWhile]
  have hhead : ∀ c ∈ (text.toList.dropWhile isNameChar ++ ')' :: rest).head?,
    isNameChar c = false := by
    have hdrop := List.head?_dropWhile_not isNameChar text.toList
    cases hl : text.toList.dropWhile isNameChar with
    | nil => simp; decide
    | cons d l => simpa [hl] using hdrop
  have hpeek : C.peek (text.toList ++ ')' :: rest) =
      some (.word (String.ofList (text.toList.takeWhile isNameChar))) := by
    rw [hsplit, peek_eq (token_word hword hhead)]
  rw [castType?, next_open, skip_open, hpeek, typeText_append htext]
  simp [htype]

theorem Reads.cast (hx : Reads isType x) (h : isTypeName isType text = true) :
    Reads isType (.cast text x) := by
  have htext (rest) : ("(" ++ text ++ ")" ++ x.render).toList ++ rest =
      '(' :: (text.toList ++ ')' :: (x.render.toList ++ rest)) := by
    simp
  refine reads_parens (s := "(" ++ text ++ ")" ++ x.render)
    (String.toList_inj.1 (by simp [render])) rfl
    (fun rest w _ => ?_) fun rest hrest => ?_
  all_goals rw [htext]
  . rintro ⟨⟩
  . refine expression_of_assignment (assignment_of_operand ?_ hrest.closers) hrest
    rw [operand_eq, operandOf, castType?_of_isTypeName h]
    simp [hx.before hrest.breaks hrest.before (by decide), plain]

theorem reads_of_forall (h : e.Forall (Legible isType)) : Reads isType e := by
  induction e using Expr.rec
    (motive_2 := fun l => ForallOf (Legible isType) l → ∀ e ∈ l, Reads isType e) with
  | missing => exact absurd h.1 id
  | bits | pointer => exact absurd h.1.1 id
  | raw text isConstant => exact reads_raw h.1
  | call fn args ih => exact reads_call h.1.1 (ih h.2)
  | callPtr fn args ihf ih => exact (ihf h.2.1).callPtr (ih h.2.2)
  | seq list ih => exact reads_seq h.1.1 (ih h.2)
  | cond test thenE elseE iht iha ihb => exact (iht h.2.1).cond (iha h.2.2.1) (ihb h.2.2.2)
  | assign target op value iht ihv => exact (iht h.2.1).assign (ihv h.2.2) h.1.1
  | binary op x y ihx ihy => exact (ihx h.2.1).binary (ihy h.2.2) h.1.1
  | unary op x ih => exact (ih h.2).unary h.1.1
  | index x i ihx ihi => exact (ihx h.2.1).index (ihi h.2.2)
  | field x name arrow ih => exact (ih h.2).field h.1
  | likely x unlikely ih => exact (ih h.2).likely h.1.1
  | cast type x ih => exact (ih h.2).cast h.1.1
  | nil =>
    rename_i hmem
    cases hmem
  | cons e rest ih ihs =>
    rename_i h f hf
    exact List.forall_mem_cons.2 ⟨ih h.1, ihs h.2⟩ f hf

theorem statementText_cases (e : Expr) :
    e.statementText = e.render ∨ e.hasTestParens = true ∧ e.statementText =
      Expr.inner e.render := by
  cases e <;> simp [statementText, hasParens, hasTestParens]

/--
The text of an expression is read as the expression again, on its own as well as where a statement
or a test drops its outer parentheses.
-/
theorem expression_text (h : e.Forall (Legible isType)) (rest : List Char) :
    expression isType e.render.toList = some (e.plain, []) ∧
      expression isType (e.statementText.toList ++ ';' :: rest) = some (e.plain, ';' :: rest) ∧
      expression isType (e.testText.toList ++ ')' :: rest) = some (e.plain, ')' :: rest) := by
  have hreads := reads_of_forall h
  refine ⟨?_, ?_, ?_⟩
  . simpa using hreads.expression ends_nil
  . obtain htext | ⟨hparens, htext⟩ := statementText_cases e <;> rw [htext]
    . exact hreads.expression (ends_cons (by simp))
    . exact hreads.inner hparens _ (ends_cons (by simp))
  . rw [testText]
    split
    . exact hreads.inner ‹_› _ (ends_cons (by simp))
    . exact hreads.expression (ends_cons (by simp))

def spelledCall : Expr :=
  .assign (.index (.field (.callPtr (.var "f") [.var "x"]) "slots" true)
    (.binary "-" (.lit "2") (.lit "1")))
    "+=" (.cond (.likely (.unary "!" (.var "x")) true) (.cast "js_val *" (.var "y"))
      (.seq [.call "g" [], .var "z"]))

theorem expression_text_spelledCall :
    spelledCall.Forall (Legible (· == "js_val")) ∧
      expression (· == "js_val")
        "(f)(x)->slots[(2 - 1)] += (unlikely((!x)) ? ((js_val *)y) : (g(), z));".toList =
        some (spelledCall.plain, [';']) := by
  have h : spelledCall.Forall (Legible (· == "js_val")) := by
    simp only [spelledCall, Expr.Forall, ForallOf, Legible, Spelled, Apart, Expr.var, Expr.lit]
    decide
  exact ⟨h, (expression_text h []).2.1⟩

/-- A constant and the name of a field make up one number. -/
theorem field_of_constant_misread :
    (Expr.field (.lit "1") "number" false).Forall (Spelled fun _ => false) ∧
      expression (fun _ => false) (Expr.field (.lit "1") "number" false).render.toList =
        some (.var "1.number", []) := by
  have h : Spelled (fun _ => false) (.raw "1.number" false) := .inr rfl
  refine ⟨⟨rfl, .inr rfl⟩, ?_⟩
  exact (reads_raw h).expression ends_nil

end Parse
end ScriptC.C
