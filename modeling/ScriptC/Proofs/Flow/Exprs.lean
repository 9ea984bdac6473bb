import ScriptC.Proofs.Flow.Function

/-!
The expressions in the code of a function. The code of every expression of the script keeps to a
setting, and so do the few forms that statements put around it: all that is written does.
-/

namespace ScriptC

def C.Decl.Holds (P : C.Expr → Prop) (d : C.Decl) : Prop :=
  d.KeepsCell ∧ (d.init = .missing ∨ P d.init)

namespace C.Stmt

mutual

def exprs : Stmt → List Expr
  | .expr x | .ret x => [x]
  | .block decls body | .loop decls body => decls.map (·.init) ++ exprsOf body
  | .branch test a b => test :: (a.exprs ++ b.exprs)
  | .decl d => [d.init]
  | _ => []

def exprsOf : List Stmt → List Expr
  | [] => []
  | st :: rest => st.exprs ++ exprsOf rest

end

mutual

def Holds (P : Expr → Prop) : Stmt → Prop
  | .missing => P .missing
  | .expr x | .ret x => P x
  | .block decls body | .loop decls body => (∀ d ∈ decls, d.Holds P) ∧ Every P body
  | .branch test a b => P test ∧ a.Holds P ∧ (b = .missing ∨ b.Holds P)
  | .decl d => d.Holds P
  | .raw text => C.isIdle text = true
  | _ => True

def Every (P : Expr → Prop) : List Stmt → Prop
  | [] => True
  | st :: rest => st.Holds P ∧ Every P rest

end

mutual

def decls : Stmt → List Decl
  | .block decls body | .loop decls body => decls ++ declsOf body
  | .branch _ a b => a.decls ++ b.decls
  | .decl d => [d]
  | _ => []

def declsOf : List Stmt → List Decl
  | [] => []
  | st :: rest => st.decls ++ declsOf rest

end

mutual

def texts : Stmt → List String
  | .block _ body | .loop _ body => textsOf body
  | .branch _ a b => a.texts ++ b.texts
  | .raw text => [text]
  | _ => []

def textsOf : List Stmt → List String
  | [] => []
  | st :: rest => st.texts ++ textsOf rest

end

variable {P : Expr → Prop} {code rest : List Stmt}

mutual

theorem Holds.of_core : ∀ {st : Stmt}, st.core.Holds P → st.Holds P
  | .block _ _, h | .loop _ _, h => by
    rw [core, Holds] at h
    exact ⟨h.1, Every.of_coreList h.2⟩
  | .branch _ a b, h => by
    rw [core, Holds] at h
    refine ⟨h.1, Holds.of_core h.2.1, h.2.2.imp ?_ Holds.of_core⟩
    cases b <;> simp [core]
  | .missing, h | .expr _, h | .label _, h | .goto _, h | .ret _, h | .raw _, h | .comment _, h
  | .decl _, h => by simpa only [core] using h

theorem Every.of_coreList : ∀ {code : List Stmt}, Every P (coreList code) → Every P code
  | [], _ => trivial
  | .comment _ :: _, h => by
    rw [coreList] at h
    exact ⟨trivial, Every.of_coreList h⟩
  | .raw text :: _, h => by
    rw [coreList] at h
    split at h
    . next hidle => exact ⟨hidle, Every.of_coreList h⟩
    . exact ⟨h.1, Every.of_coreList h.2⟩
  | .missing :: _, h | .expr _ :: _, h | .block _ _ :: _, h | .branch _ _ _ :: _,
    h | .label _ :: _, h
  | .goto _ :: _, h | .ret _ :: _, h | .loop _ _ :: _, h | .decl _ :: _, h => by
    simp only [coreList, Every] at h
    exact ⟨Holds.of_core h.1, Every.of_coreList h.2⟩

end

mutual

theorem Holds.exprs : ∀ {st : Stmt}, st.Holds P → ∀ x ∈ st.exprs, x = .missing ∨ P x
  | .expr _, h, x, hx | .ret _, h, x, hx => .inr (List.mem_singleton.1 hx ▸ h)
  | .decl _, h, x, hx => List.mem_singleton.1 hx ▸ h.2
  | .block decls _, h, x, hx | .loop decls _, h, x, hx => by
    rw [Stmt.exprs, List.mem_append] at hx
    rcases hx with hx | hx
    . obtain ⟨d, hd, rfl⟩ := List.mem_map.1 hx
      exact (h.1 d hd).2
    . exact Every.exprs h.2 x hx
  | .branch _ a b, h, x, hx => by
    rw [Stmt.exprs, List.mem_cons, List.mem_append] at hx
    rcases hx with rfl | hx | hx
    . exact .inr h.1
    . exact Holds.exprs h.2.1 x hx
    . rcases h.2.2 with rfl | hb
      . simp [Stmt.exprs] at hx
      . exact Holds.exprs hb x hx
  | .missing, _, x, hx | .label _, _, x, hx | .goto _, _, x, hx | .raw _, _, x, hx
  | .comment _, _, x, hx => by simp [Stmt.exprs] at hx

theorem Every.exprs : ∀ {code : List Stmt}, Every P code → ∀ x ∈ exprsOf code, x = .missing ∨ P x
  | [], _, x, hx => by simp [exprsOf] at hx
  | st :: rest, h, x, hx => by
    rw [exprsOf, List.mem_append] at hx
    exact hx.elim (Holds.exprs h.1 x) (Every.exprs h.2 x)

end

mutual

theorem Holds.keepsCell : ∀ {st : Stmt}, st.Holds P → ∀ d ∈ st.decls, d.KeepsCell
  | .decl _, h, d, hd => List.mem_singleton.1 hd ▸ h.1
  | .block _ _, h, d, hd | .loop _ _, h, d, hd => by
    rw [Stmt.decls, List.mem_append] at hd
    exact hd.elim (fun hd => (h.1 d hd).1) (Every.keepsCell h.2 d)
  | .branch _ a b, h, d, hd => by
    rw [Stmt.decls, List.mem_append] at hd
    rcases hd with hd | hd
    . exact Holds.keepsCell h.2.1 d hd
    . rcases h.2.2 with rfl | hb
      . simp [Stmt.decls] at hd
      . exact Holds.keepsCell hb d hd
  | .missing, _, d, hd | .expr _, _, d, hd | .ret _, _, d, hd | .label _, _, d, hd
  | .goto _, _, d, hd | .raw _, _, d, hd | .comment _, _, d, hd => by simp [Stmt.decls] at hd

theorem Every.keepsCell : ∀ {code : List Stmt}, Every P code → ∀ d ∈ declsOf code, d.KeepsCell
  | [], _, d, hd => by simp [declsOf] at hd
  | st :: rest, h, d, hd => by
    rw [declsOf, List.mem_append] at hd
    exact hd.elim (Holds.keepsCell h.1 d) (Every.keepsCell h.2 d)

end

mutual

theorem Holds.isIdle : ∀ {st : Stmt}, st.Holds P → ∀ text ∈ st.texts, C.isIdle text = true
  | .raw _, h, text, ht => List.mem_singleton.1 ht ▸ h
  | .block _ _, h, text, ht | .loop _ _, h, text, ht => Every.isIdle h.2 text ht
  | .branch _ a b, h, text, ht => by
    rw [Stmt.texts, List.mem_append] at ht
    rcases ht with ht | ht
    . exact Holds.isIdle h.2.1 text ht
    . rcases h.2.2 with rfl | hb
      . simp [Stmt.texts] at ht
      . exact Holds.isIdle hb text ht
  | .missing, _, text, ht | .expr _, _, text, ht | .ret _, _, text, ht | .label _, _, text, ht
  | .goto _, _, text, ht | .decl _, _, text, ht | .comment _, _, text, ht => by
    simp [Stmt.texts] at ht

theorem Every.isIdle :
    ∀ {code : List Stmt}, Every P code → ∀ text ∈ textsOf code, C.isIdle text = true
  | [], _, text, ht => by simp [textsOf] at ht
  | st :: rest, h, text, ht => by
    rw [textsOf, List.mem_append] at ht
    exact ht.elim (Holds.isIdle h.1 text) (Every.isIdle h.2 text)

end

namespace Every

variable {decls : List Decl} {x : Expr} {a b : Stmt}

theorem nil : Every P [] := trivial

theorem append (h : Every P code) (h' : Every P rest) : Every P (code ++ rest) := by
  induction code with
  | nil => exact h'
  | cons st code ih => exact ⟨h.1, ih h.2⟩

theorem cons (h : Every P [a]) (h' : Every P rest) : Every P (a :: rest) := ⟨h.1, h'⟩

theorem expr (h : P x) : Every P [.expr x] := ⟨h, trivial⟩

theorem ret (h : P x) : Every P [.ret x] := ⟨h, trivial⟩

theorem block (hdecls : ∀ d ∈ decls, d.Holds P) (h : Every P code) :
    Every P [.block decls code] :=
  ⟨⟨hdecls, h⟩, trivial⟩

theorem loop (hdecls : ∀ d ∈ decls, d.Holds P) (h : Every P code) :
    Every P [.loop decls code] :=
  ⟨⟨hdecls, h⟩, trivial⟩

theorem branch (hx : P x) (ha : Every P [a]) (hb : b = .missing ∨ Every P [b]) :
    Every P [.branch x a b] :=
  ⟨⟨hx, ha.1, hb.imp_right And.left⟩, trivial⟩

theorem label {l : String} : Every P [.label l] := ⟨trivial, trivial⟩

theorem goto {l : String} : Every P [.goto l] := ⟨trivial, trivial⟩

end Every
end C.Stmt

def IsTemporaryName (text : String) : Prop := ∃ stem ∈ C.stems, ∃ id : Nat,
    text = temporaryName stem id

theorem isCellName_of_temporary {text : String} (h : IsTemporaryName text) :
    C.isCellName text.toList = false := by
  obtain ⟨stem, hstem, id, rfl⟩ := h
  exact isCellName_temporaryName hstem id

theorem isTemporaryName_tmp (id : Nat) : IsTemporaryName (temporaryName "tmp" id) :=
  ⟨_, by decide, id, rfl⟩

theorem isTemporaryName_try (id : Nat) : IsTemporaryName (temporaryName "try" id) :=
  ⟨_, by decide, id, rfl⟩

theorem isTemporaryName_it (id : Nat) : IsTemporaryName (temporaryName "it" id) :=
  ⟨_, by decide, id, rfl⟩

theorem isTemporaryName_code (f : Finalizer) : IsTemporaryName f.code :=
  ⟨"pend", by decide, f.id, by simp [Finalizer.code, temporaryName, ToString.toString, Int.repr]⟩

theorem isTemporaryName_value (f : Finalizer) : IsTemporaryName f.value :=
  ⟨"pendv", by decide, f.id, by simp [Finalizer.value, temporaryName, ToString.toString, Int.repr]⟩

def Exit.IsTame : Exit → Prop
  | .handler name | .iterator name => IsTemporaryName name
  | .finalizer f => IsTemporaryName f.handler
  | .withBody => True

namespace Lower

open C C.Stmt

def statementCalls : List String :=
  Engine.control ++ Engine.iteration ++ [Engine.getKeys]

def Scene.IsTame (K : Scene) : Prop := ∀ x ∈ K.exits, x.IsTame

theorem Scene.IsTame.within {K : Scene} {x : Exit} (hK : K.IsTame) (hx : x.IsTame) :
    (K.within x).IsTame :=
  List.forall_mem_cons.2 ⟨hx, hK⟩

theorem Scene.IsTame.finalizing {K : Scene} {f : Finalizer} {p : Pending} (hK : K.IsTame)
    (hf : IsTemporaryName f.handler) : (K.finalizing f p).IsTame :=
  List.forall_mem_cons.2 ⟨hf, hK⟩

theorem Scene.IsTame.iterating {K : Scene} {n : Node} {it : String} (hK : K.IsTame)
    (hit : IsTemporaryName it) : (K.iterating n it).IsTame := by
  unfold Scene.IsTame Scene.iterating
  dsimp only
  split
  . exact List.forall_mem_cons.2 ⟨hit, hK⟩
  . exact hK

structure Setting.IsOpen (S : Setting) : Prop where
  shows : ∀ f, S.shows f
  temporary : ∀ {text}, IsTemporaryName text →
    S.reads text ∧ S.reads ("&" ++ text) ∧ S.reads (text ++ "[2]")
  name : ∀ {last text}, CNames.IsName last text → S.reads text ∧ S.reads ("*" ++ text)
  calls : ∀ fn args, fn ≠ Engine.newFunction → S.allows fn args

structure Composes (S : Setting) (E : Eval) : Prop where
  sound : Sound S E
  whole : S.Whole
  isOpen : S.IsOpen

def Setting.FitsItem (S : Setting) : Item → Prop
  | .statement _ n | .block n | .catching n => S.Fits n
  | .list nodes | .cases _ _ nodes => ∀ n ∈ nodes, S.Fits n
  | .option o => S.FitsOption o
  | .arm o => S.FitsOption o ∧ (o = none → S.Part .missing)

theorem Laid.eq_missing {S : Setting} {E : Eval} {K : Scene} {lo hi : Nat} {c : List C.Stmt}
    (h : Laid S E K lo hi (.arm none) c) : c = [.missing] := by
  generalize hitem : Item.arm none = item at h
  induction h with
  | widen _ _ _ ih => exact ih hitem
  | noArm => rfl
  | _ => cases hitem

namespace Composes

variable {S : Setting} {E : Eval} (h : Composes S E) {n : Node} {o : Option Node} {c : List C.Stmt}
  {x v : C.Expr} {text : String} {list : List C.Decl}

include h

theorem temporary (htext : IsTemporaryName text) : S.Part (.var text) :=
  .inr (h.isOpen.temporary htext).1

theorem pointer (htext : IsTemporaryName text) : S.Part (.var ("&" ++ text)) :=
  .inr (h.isOpen.temporary htext).2.1

theorem set (htext : IsTemporaryName text) (hv : S.Part v) : S.Part (.set (.var text) v) :=
  ⟨Setting.targets_raw (isCellName_of_temporary htext), h.temporary htext, hv⟩

theorem allows {fn : String} (hfn : fn ≠ Engine.newFunction ∧ C.Expr.isQuiet fn = true)
    (args : List C.Expr) (slot : Nat) : (S.rules slot).allows fn args :=
  ⟨h.isOpen.calls fn args hfn.1, fun _ _ => .inl hfn.2⟩

theorem callEnv {fn : String} {args : List C.Expr}
    (hfn : fn ≠ Engine.newFunction ∧ C.Expr.isQuiet fn = true) (hargs : S.Parts args) :
    S.Part (.callEnv fn args) :=
  ⟨h.allows hfn _ _, .inr S.reads_env, hargs⟩

theorem statementCall {fn : String} {args : List C.Expr} (hfn : fn ∈ statementCalls)
    (hargs : S.Parts args) : S.Part (.callEnv fn args) :=
  h.callEnv ((by decide : ∀ fn ∈ statementCalls, fn ≠ Engine.newFunction ∧
    C.Expr.isQuiet fn = true) fn hfn) hargs

theorem expr (ho : S.FitsOption o) (hx : Given S (E.expr o) x) : S.Part x :=
  (hx.writes (h.sound.expr ho) h.isOpen.shows trivial).1

theorem test (ho : S.FitsOption o) (hx : Given S (E.test o) x) : S.Part x :=
  (hx.writes (h.sound.test ho) h.isOpen.shows trivial).1

theorem discard (hn : S.Fits n) (hx : Given S (E.discard n) x) : S.Part x :=
  (hx.writes (h.sound.discard hn) h.isOpen.shows trivial).1

theorem result (hv : S.Part v) (hx : Given S (resultOf v) x) : S.Part x :=
  hx.writes (writes_resultOf h.whole _) h.isOpen.shows
    ⟨hv, fun args => h.allows (by decide) args _⟩

theorem equal {t : String} (ht : IsTemporaryName t) (ho : S.FitsOption o)
    (hv : Given S (E.expr o) v)
    (hx : Given S (equal Engine.strictEq (.var t) v) x) : S.Part x :=
  (hx.writes (writes_equal (by decide) _ _) h.isOpen.shows
    ⟨h.temporary ht, h.expr ho hv⟩).1.1

omit h in
theorem items (ho : S.FitsOption o) : ∀ c ∈ (o.map (·.items)).getD [], S.Fits c := by
  cases o with
  | none => simp
  | some n => exact (ho n rfl).item

omit h in
theorem decls (hlist : ∀ d ∈ list, S.Silent d) : ∀ d ∈ list, d.Holds S.Part :=
  fun d hd => ⟨(hlist d hd).cell, (hlist d hd).init _⟩

omit h in
theorem effectCode (hx : S.Step x) : Every S.Part (effectCode x) := by
  unfold Lower.effectCode
  split
  . exact .nil
  . next hidle =>
    refine .expr (hx.resolve_left ?_)
    rintro rfl
    exact hidle rfl

theorem declarators {binds : BindingKind} {list : List Node} {es : List C.Expr}
    (hlist : ∀ n ∈ list, S.Fits n)
    (hes : List.Forall₂ (fun d x => Given S (declaratorCode E binds d) x) list es) :
    Every S.Part (es.flatMap Lower.effectCode) := by
  induction hes with
  | nil => exact .nil
  | cons hx _ ih =>
    rw [List.forall_mem_cons] at hlist
    exact (effectCode (hx.writes (h.sound.declaratorCode _ hlist.1) h.isOpen.shows trivial)).append
      (ih hlist.2)

theorem stores (hn : S.Fits n) (hkind : n.kind = .functionDeclaration) (hc : Stores S n c) :
    Every S.Part c := by
  obtain ⟨x, y, hx, hy, rfl⟩ := hc
  have hd := hn.suits.declared (.inl hkind)
  exact (effectCode (.inr (hx.writes (writes_storeCode hn hd) h.isOpen.shows trivial))).append
    (effectCode (hy.writes (writes_aliasCode hn hkind hd) h.isOpen.shows trivial))

theorem functions {sites : List Node} {list : List (List C.Stmt)}
    (hsites : ∀ n ∈ sites, S.Fits n ∧ n.kind = .functionDeclaration)
    (hlist : List.Forall₂ (Stores S) sites list) : Every S.Part list.flatten := by
  induction hlist with
  | nil => exact .nil
  | cons hc _ ih =>
    rw [List.forall_mem_cons] at hsites
    exact (h.stores hsites.1.1 hsites.1.2 hc).append (ih hsites.2)

theorem row (hn : S.Fits n) (hc : Row S E n c) : Every S.Part c := by
  unfold Row at hc
  split at hc
  case h_1 | h_2 => exact hc ▸ .nil
  case h_3 =>
    split at hc
    . exact hc ▸ .nil
    . next e he =>
      obtain ⟨x, hx, rfl⟩ := hc
      exact effectCode (h.discard (hn.part? .expression rfl e he) hx).step
  case h_4 =>
    obtain ⟨list, hlist, rfl⟩ := hc
    exact h.declarators hn.item hlist
  case h_5 hlabel => exact h.stores hn (congrArg Label.kind hlabel) hc
  case h_6 hlabel =>
    obtain ⟨x, hx, rfl⟩ := hc
    have hwrites := h.sound.classCode hn (congrArg Label.kind hlabel)
    exact effectCode (.inr (hx.writes hwrites h.isOpen.shows trivial))
  case h_7 hlabel =>
    obtain ⟨x, hx, rfl⟩ := hc
    have hx := h.expr (hn.argument (congrArg Label.kind hlabel) rfl) hx
    exact .expr (h.statementCall (by decide) ⟨hx, trivial⟩)
  case h_8 => exact hc.elim

theorem call_var {fn : String} (hfn : fn ∈ statementCalls) (htext : IsTemporaryName text) :
    S.Part (.callEnv fn [.var text]) :=
  h.statementCall hfn ⟨h.temporary htext, trivial⟩

theorem call_pointer {fn : String} (hfn : fn ∈ statementCalls) (htext : IsTemporaryName text) :
    S.Part (.callEnv fn [.var ("&" ++ text)]) :=
  h.statementCall hfn ⟨h.pointer htext, trivial⟩

theorem isLeft (f : Finalizer) (code : Nat) : S.Part (isLeft f code) :=
  ⟨h.temporary (isTemporaryName_code f), .inl rfl⟩

theorem register (htext : IsTemporaryName text) : S.Part (register text) :=
  ⟨h.allows (by decide) _ _, h.callEnv (by decide) ⟨h.pointer htext, trivial⟩, trivial⟩

theorem unregister (htext : IsTemporaryName text) : Every S.Part [unregister text] :=
  .expr (h.call_pointer (by decide) htext)

theorem throughFinally {f : Finalizer} (hf : IsTemporaryName f.handler) (code : Nat) :
    Every S.Part (throughFinally f code) :=
  .cons (.expr (h.set (isTemporaryName_code f) (.inl rfl))) (.cons (h.unregister hf) .goto)

theorem leaves {final : Finalizer → List C.Stmt → Prop} {done : List C.Stmt → Prop} {X : List Exit}
    (hX : ∀ x ∈ X, x.IsTame)
    (hfinal : ∀ f c, IsTemporaryName f.handler → final f c → Every S.Part c)
    (hdone : ∀ c, done c → Every S.Part c) (hc : Leaves final done X c) : Every S.Part c := by
  induction hc with
  | done hc => exact hdone _ hc
  | handler _ ih =>
    rw [List.forall_mem_cons] at hX
    exact .cons (h.unregister hX.1) (ih hX.2)
  | withBody _ ih =>
    rw [List.forall_mem_cons] at hX
    exact .cons (.expr (h.statementCall (by decide) trivial)) (ih hX.2)
  | iterator _ ih =>
    rw [List.forall_mem_cons] at hX
    exact .cons (.expr (h.call_var (by decide) hX.1)) (ih hX.2)
  | finalizer hc => exact hfinal _ _ (hX _ List.mem_cons_self) hc

theorem jumps {K : Scene} {t : Target} {continues : Bool} (hK : K.IsTame)
    (hc : Jumps K t continues c) : Every S.Part c := by
  refine h.leaves (fun x hx => hK x (List.mem_of_mem_take hx)) ?_ ?_ hc
  . rintro f c hf ⟨i, -, rfl⟩
    exact h.throughFinally hf _
  . rintro c rfl
    exact .goto

theorem returns {K : Scene} {lo hi : Nat} (hK : K.IsTame) (hv : S.Part v)
    (hc : Returns S K lo hi v c) : Every S.Part c := by
  cases hc with
  | here _ _ hr => exact .ret (h.result hv hr)
  | @leaving id _ _ _ _ hc =>
    have hid := isTemporaryName_tmp id
    refine .cons (.expr (h.set hid hv)) (h.leaves hK ?_ ?_ hc)
    . rintro f c hf ⟨-, rfl⟩
      exact .cons (.expr (h.set (isTemporaryName_value f) (h.temporary hid)))
        (h.throughFinally hf _)
    . rintro c ⟨r, hr, rfl⟩
      exact .ret (h.result (h.temporary hid) hr)

theorem resumesJumps {K : Scene} {f : Finalizer} {i : Nat} {list : List (Target × Bool)}
    (hK : K.IsTame) (hc : ResumesJumps S K f i list c) : Every S.Part c := by
  induction hc with
  | nil => exact .nil
  | cons _ hdecls hjump _ ih =>
    exact .cons (.branch (h.isLeft _ _) (.block (decls hdecls) (h.jumps hK hjump)) (.inl rfl)) ih

theorem resumesReturn {K : Scene} {lo hi : Nat} {f : Finalizer} {returns : Bool} (hK : K.IsTame)
    (hc : ResumesReturn S K lo hi f returns c) : Every S.Part c := by
  cases hc with
  | none => exact .nil
  | some hdecls hc =>
    exact .branch (h.isLeft _ _) (.block (decls hdecls)
      (h.returns hK (h.temporary (isTemporaryName_value f)) hc)) (.inl rfl)

omit h in
theorem leaveCode (hx : S.Part x) (t : Target) : Every S.Part (leaveCode x t) := by
  unfold Lower.leaveCode
  split
  . exact .nil
  . exact .branch hx .goto (.inl rfl)

omit h in
theorem ends {l : String} {code : List C.Stmt} (hc : Ends l code c) : Every S.Part c := by
  rcases hc with rfl | ⟨rfl, -⟩
  . exact .label
  . exact .nil

theorem tests {id i : Nat} {t : String} {list : List Node} {dflt out : Option String}
    (ht : IsTemporaryName t) (hlist : ∀ n ∈ list, S.Fits n)
    (hc : Tests S E id (.var t) i list dflt out c) : Every S.Part c := by
  induction hc with
  | nil => exact .nil
  | default _ _ ih => exact ih (List.forall_mem_cons.1 hlist).2
  | test hn hv hx _ ih =>
    rw [List.forall_mem_cons] at hlist
    have hm : S.FitsOption (some _) := hn ▸ hlist.1.part? .test rfl
    exact .cons (.branch (h.equal ht hm hv hx) .goto (.inl rfl)) (ih hlist.2)

theorem begins (ho : S.FitsOption o) (hc : Begins S E o c) : Every S.Part c := by
  unfold Begins at hc
  split at hc
  . exact hc ▸ .nil
  . next init =>
    have hinit := ho init rfl
    split at hc
    . obtain ⟨list, hlist, rfl⟩ := hc
      exact h.declarators hinit.item hlist
    . obtain ⟨x, hx, rfl⟩ := hc
      exact effectCode (h.discard hinit hx).step

theorem continues {t : Target} (ho : S.FitsOption o) (hc : Continues S E t o c) :
    Every S.Part c := by
  unfold Continues at hc
  split at hc
  . exact hc ▸ .nil
  . obtain ⟨x, hx, rfl⟩ := hc
    exact leaveCode (h.test ho hx) t

theorem updates (ho : S.FitsOption o) (hc : Updates S E o c) : Every S.Part c := by
  unfold Updates at hc
  split at hc
  . exact hc ▸ .nil
  . next update =>
    obtain ⟨x, hx, rfl⟩ := hc
    exact effectCode (h.discard (ho update rfl) hx).step

theorem renewal {last : Nat} (hname : CNames.IsName last text) : S.Part (renewal text) :=
  ⟨⟨fun _ _ => rfl, fun _ => ⟨_, rfl⟩⟩, .inr (h.isOpen.name hname).1,
    h.callEnv (by decide) ⟨.inr (h.isOpen.name hname).2, trivial⟩⟩

theorem copies (hc : Given S (headCopies n) c) : Every S.Part c := by
  obtain ⟨names, hnames, rfl⟩ := hc.yields (yields_headCopies n)
  clear hc
  induction names with
  | nil => exact .nil
  | cons name names ih =>
    obtain ⟨⟨last, hname⟩, hnames⟩ := List.forall_mem_cons.1 hnames
    exact .cons (.expr (h.renewal hname)) (ih hnames)

omit h in
theorem finalizes {f : Finalizer} (hlist : Finalizes S f list) :
    ∀ d ∈ list, d.Holds S.Part := by
  obtain ⟨a, b, rfl, ha, hb⟩ := hlist
  intro d hd
  simp only [ownDecls, List.mem_append, List.mem_cons, List.not_mem_nil, or_false] at hd
  rcases hd with (hd | rfl | rfl) | hd
  . exact decls ha d hd
  . exact ⟨.of_not (isCellName_of_temporary (isTemporaryName_code f)), .inr (.inl rfl)⟩
  . exact ⟨.of_not (isCellName_of_temporary (isTemporaryName_value f)), .inl rfl⟩
  . exact decls hb d hd

theorem catchFor {f : Finalizer} (hf : IsTemporaryName f.handler) : Every S.Part [catchFor f] :=
  .block (by simp) (.cons
    (.expr (h.set (isTemporaryName_value f) (h.call_pointer (by decide) hf)))
    (.expr (h.set (isTemporaryName_code f) (.inl rfl))))

theorem passes {it : String} (done : String) {y : C.Expr} {body skip : List C.Stmt}
    (hit : IsTemporaryName it) (hlist : ∀ d ∈ list, S.Silent d) (hy : S.Step y)
    (hbody : Every S.Part body) (hskip : Every S.Part skip) :
    Every S.Part [passesCode it done list y body skip] := by
  refine .loop (decls hlist)
    (.cons (.branch (h.call_var (by decide) hit) .goto (.inl rfl)) ?_)
  exact ((effectCode hy).append hbody).append hskip

-- An absent branch of an `if` can only be the other one.
theorem laid {K : Scene} {lo hi : Nat} {item : Item} (hc : Laid S E K lo hi item c)
    (hK : K.IsTame) (hitem : S.FitsItem item) : Every S.Part c := by
  induction hc with
  | widen _ _ _ ih => exact ih hK hitem
  | nil | absent | noCase => exact .nil
  | noArm => exact ⟨hitem.2 rfl, trivial⟩
  | cons _ _ iha ihb =>
    obtain ⟨hn, hrest⟩ := List.forall_mem_cons.1 hitem
    exact (iha hK hn).append (ihb hK hrest)
  | present _ ih => exact ih hK (hitem _ rfl)
  | arm _ ih => exact ih hK (hitem.1 _ rfl)
  | block _ _ ih | tryCatch _ _ _ ih => exact ih hK hitem
  | items _ hdecls _ ih => exact .block (decls hdecls) (ih hK hitem.item)
  | own _ hdecls _ ih => exact .block (decls hdecls) (ih hK hitem)
  | row _ hc => exact h.row hitem hc
  | @ifElse _ _ _ _ _ _ n _ _ b hn _ hx _ hb iha ihb =>
    refine .branch (h.test (hitem.part? _ rfl) hx) (iha hK ⟨hitem.part? _ rfl, ?_⟩) ?_
    . intro hnone hfull
      have := (hitem.suits.full hfull).2.1 hn
      simp [hnone] at this
    . cases halternate : n.part? .alternate with
      | none =>
        rw [halternate] at hb
        exact .inl (List.singleton_inj.1 hb.eq_missing)
      | some _ => exact .inr (ihb hK ⟨hitem.part? _ rfl, by simp [halternate]⟩)
  | whileLoop _ _ _ _ hx hdecls _ hskip hstop ih =>
    have hbody := ih hK (hitem.part? .body rfl)
    refine .cons (.loop (decls hdecls) ?_) (ends hstop)
    exact ((leaveCode (h.test (hitem.part? _ rfl) hx) _).append hbody).append (ends hskip)
  | doLoop _ _ _ _ _ _ hx hdecls hskip hstop ih =>
    have hbody := ih hK (hitem.part? .body rfl)
    refine .cons (.loop (decls hdecls) ?_) (ends hstop)
    exact (hbody.append (ends hskip)).append (leaveCode (h.test (hitem.part? _ rfl) hx) _)
  | forLoop _ hcopies hbegins _ _ _ hgoes _ _ hskip hupdates hdecls hdecls' hstop ih =>
    have hbody := ih hK (hitem.part? .body rfl)
    refine .block (decls hdecls) (((h.begins (hitem.part? _ rfl) hbegins).append
      (h.copies hcopies)).append (.cons (.loop (decls hdecls') ?_) (ends hstop)))
    exact ((((h.continues (hitem.part? _ rfl) hgoes).append hbody).append (ends hskip)).append
      (h.copies hcopies)).append (h.updates (hitem.part? _ rfl) hupdates)
  | @iteration _ _ _ _ _ _ _ _ _ _ _ _ _ _ it _ k _ _ hit _ _ hx _ _ _ _ hy _ hskip hdecls hdecls'
      hstop ih =>
    have hname : IsTemporaryName it := hit ▸ isTemporaryName_it k
    have hbody := ih (hK.iterating hname) (hitem.part? .body rfl)
    have hcurrent := hy.writes (h.sound.currentCode _ (hitem.part? _ rfl)) h.isOpen.shows
      (.inr (h.isOpen.temporary hname).2.2)
    refine .block (decls hdecls) (.cons (.expr (h.statementCall ?_ ?_)) (.cons
      (h.passes _ hname hdecls' hcurrent hbody (ends hskip))
      (((ends hstop).append ?_).append .label)))
    . split <;> decide
    . exact ⟨h.expr (hitem.part? _ rfl) hx, h.temporary hname, trivial⟩
    . split
      . exact .expr (h.call_var (by decide) hname)
      . exact .nil
  | @switch _ _ _ _ _ _ _ _ _ _ _ _ _ _ d _ _ _ hx hfunctions _ _ _ _ htests _ hdecls hstop ih =>
    have hitems := hitem.item
    have hd := isTemporaryName_tmp d
    refine .block (decls hdecls) (.append (.append (.cons (.expr (h.set hd ?_)) ?_) ?_)
      (.cons .goto ((ih hK hitems).append (ends hstop))))
    . exact h.expr (hitem.part? _ rfl) hx
    . refine h.functions ?_ hfunctions
      intro m hm
      obtain ⟨hm, hkind⟩ := List.mem_filter.1 hm
      obtain ⟨c, hc, hm⟩ := List.mem_flatMap.1 hm
      exact ⟨(hitems c hc).item m hm, by simpa using hkind⟩
    . exact h.tests hd hitems htests
  | case _ _ iha ihb =>
    obtain ⟨hn, hrest⟩ := List.forall_mem_cons.1 hitem
    refine .cons .label ((iha hK ?_).append (ihb hK hrest))
    exact fun m hm => hn.item m (List.mem_of_mem_filter hm)
  | labelled _ hm _ _ ih => exact ih hK (hitem.part? .body rfl _ hm)
  | target _ _ _ _ _ _ hstop ih => exact (ih hK (hitem.part? .body rfl)).append (ends hstop)
  | jump _ _ _ hc => exact h.jumps hK hc
  | return_ hn _ hx hc => exact h.returns hK (h.expr (hitem.argument hn rfl) hx) hc
  | withBlock hn _ hx _ ih =>
    refine .cons (.expr (h.statementCall (by decide) ⟨h.expr (hitem.part? _ rfl) hx, trivial⟩))
      (.cons (ih (hK.within trivial) ⟨hitem.part? _ rfl, ?_⟩)
        (.expr (h.statementCall (by decide) trivial)))
    intro hnone hfull
    have := (hitem.suits.full hfull).2.2 hn
    simp [hnone] at this
  | @tryFinally _ _ _ _ _ _ _ _ _ _ _ _ _ _ _ _ f k _ hm hf _ _ _ _ _ hreturns hjumps hdecls hdecls'
      ihc ihst =>
    have hf : IsTemporaryName f.handler := hf ▸ isTemporaryName_try k
    have hc := ihc (hK.finalizing hf) hitem
    refine .block (finalizes hdecls) (.cons (.branch (h.register hf)
      (.block (decls hdecls') (hc.append (h.unregister hf))) (.inr (h.catchFor hf))) (.cons .label
      (.cons (ihst hK (hitem.part? .finalizer rfl _ hm))
        (.cons (.branch (h.isLeft _ _) (.expr ?_) (.inl rfl))
      ((h.resumesReturn hK hreturns).append (h.resumesJumps hK hjumps))))))
    exact h.call_var (by decide) (isTemporaryName_value f)
  | noHandler _ _ ih => exact ih hK (hitem.part? .block rfl)
  | @handler _ _ _ _ _ _ _ _ _ _ _ _ _ _ name k hn hname _ _ _ _ hx _ hdecls hdecls' hdecls'' ihc
      ihbody =>
    have hname : IsTemporaryName name := hname ▸ isTemporaryName_try k
    have hh := hitem.part? .handler rfl _ hn
    have hcaught := hx.writes (h.sound.caughtCode _ hh) h.isOpen.shows
      (h.callEnv (by decide) ⟨h.pointer hname, trivial⟩)
    refine .block (decls hdecls) (.branch (h.register hname)
      (.block (decls hdecls') ((ihc (hK.within hname) (hitem.part? .block rfl)).append
        (h.unregister hname)))
      (.inr (.block (decls hdecls'') ((effectCode hcaught.step).append (ihbody hK ?_)))))
    exact items (hh.part? _ rfl)

theorem receives {i : Nat} (hn : S.Fits n) (hc : Receives S E i n c) : Every S.Part c := by
  unfold Receives at hc
  split at hc
  . exact hc ▸ .nil
  . split at hc
    . next hrest =>
      obtain ⟨x, hx, rfl⟩ := hc
      have hrest := hx.writes (h.sound.destructureOption _ _ (hn.argument hrest rfl)) h.isOpen.shows
        (h.callEnv (by decide) ⟨.inr reads_arguments, .inr reads_argumentCount, .inl rfl, trivial⟩)
      exact effectCode hrest.part.step
    . obtain ⟨k, x, hx, rfl⟩ := hc
      have hk := isTemporaryName_tmp k
      have hbind := hx.writes (h.sound.destructure _ _ hn) h.isOpen.shows (h.temporary hk)
      exact effectCode (.inr (Setting.part_pair (h.set hk (obeys_argument i _)) hbind.part))

theorem receivesAll {i : Nat} {list : List Node} (hlist : ∀ n ∈ list, S.Fits n)
    (hc : ReceivesAll S E i list c) : Every S.Part c := by
  induction hc with
  | nil => exact .nil
  | cons ha _ ih =>
    rw [List.forall_mem_cons] at hlist
    exact (h.receives hlist.1 ha).append (ih hlist.2)

theorem reserves : Every S.Part (Lower.effectCode (reserveCode S)) :=
  effectCode (.inr (h.callEnv (by decide) ⟨.inr (S.reads_fixed _ (isFixed_stackLimit _)), trivial⟩))

theorem yieldCode : Every S.Part (yieldCode S) := by
  unfold Lower.yieldCode
  split
  . have hyield : S.Part (.callEnv Engine.yieldValue [.undefined]) :=
      h.callEnv (by decide) ⟨.inl rfl, trivial⟩
    exact (effectCode hyield.step).append h.reserves
  . exact .nil

theorem opens (hparams : ∀ p ∈ S.function.params, S.Fits p) (hc : Opens S E c) :
    Every S.Part c := by
  cases hc with
  | mk hreceives hargs =>
    refine ((h.reserves.append (h.receivesAll hparams hreceives)).append ?_).append h.yieldCode
    rcases hargs with rfl | rfl
    . exact .nil
    . exact effectCode (.inr (h.callEnv (by decide)
        ⟨.inr reads_arguments, .inr reads_argumentCount, trivial⟩))

theorem bodied {st : C.Stmt} (hS : S.FitsFunction) (hst : Bodied S E st.core) :
    st.Holds S.Part := by
  generalize hcore : st.core = code at hst
  refine .of_core ?_
  rw [hcore]
  cases hst with
  | @mk decls opens c ends _ _ _ _ hdecls hopens hc hends =>
    have hK : ∀ pending, (Scene.mk [] [] pending).IsTame := fun _ => by simp [Scene.IsTame]
    have hends : Every S.Part ends := by
      split at hends
      . exact hends ▸ .nil
      . have hundefined : S.Part .undefined := .inl rfl
        exact h.returns (hK _) hundefined hends
    exact ⟨Composes.decls hdecls,
      ((h.opens hS.params hopens).append (h.laid hc (hK _) hS.body)).append hends⟩

end Composes
end Lower
end ScriptC
