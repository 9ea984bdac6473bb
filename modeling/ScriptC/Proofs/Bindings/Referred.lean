import Mathlib.Data.List.Forall2
import ScriptC.Proofs.Bindings.Declared

/-!
The uses of names in a function. A use of another function's declaration makes every function from
the use up to the owner capture it.
-/

namespace ScriptC

open Pass

theorem Captures.mem_decls_add {c : Captures} {d use x : Nat} :
    x ∈ (c.add d use).2.2.decls ↔ x ∈ c.decls ∨ x = d := by
  unfold Captures.add
  cases hi : c.index? d with
  | some i =>
    have hd : d ∈ c.decls := by
      obtain ⟨p, hp, heq⟩ := List.findIdx?_isSome ▸ Option.isSome_of_eq_some hi |>
        List.any_eq_true.1
      exact List.mem_map.2 ⟨p, hp, by simpa using heq⟩
    constructor
    . exact .inl
    . rintro (hx | rfl)
      . exact hx
      . exact hd
  | none => simp [Captures.decls]

namespace Bindings

variable {e : Extraction} {fn d owner : Nat} {b b' : Bindings}

structure Catches (e : Extraction) (d owner : Nat) (b b' : Bindings) : Prop where
  rest : b' = { b with functions := b'.functions }
  functions : b'.functions.map (fun f => (f.node, f.words, f.frame)) =
    b.functions.map fun f => (f.node, f.words, f.frame)
  grows : ∀ f x, x ∈ (b.function f).captures.decls → x ∈ (b'.function f).captures.decls
  only : ∀ f x, x ∈ (b'.function f).captures.decls → x ∈ (b.function f).captures.decls ∨
    x = d ∧ ∃ p, Lineage.Parent e.lineage p f ∧ (owner = p ∨ d ∈ (b'.function p).captures.decls)

theorem Catches.refl : Catches e d owner b b :=
  ⟨rfl, rfl, fun _ _ h => h, fun _ _ h => .inl h⟩

theorem catches_captureIn (he : e.IsSplit) {use : Node} {f : Nat} {u : Unit}
    (hsize : b.functions.size = e.functions.size)
    (hw : Lineage.Within e.lineage owner f) (hf : f < e.functions.size)
    (h : Ends (Resolve.captureIn use d owner (Lineage.chain e.lineage f)) b u b') :
    Catches e d owner b b' ∧ (owner = f ∨ d ∈ (b'.function f).captures.decls) ∧
      ∀ i, f < i → (b'.function i).captures = (b.function i).captures := by
  have hlineage : e.lineage.size = e.functions.size := by
    unfold Extraction.lineage
    rw [Array.size_map]
  induction hw generalizing b with
  | self =>
    obtain ⟨l, hl⟩ : ∃ l, e.lineage[owner]? = some l :=
      ⟨_, Array.getElem?_eq_getElem (hlineage.symm ▸ hf)⟩
    rw [he.isTree.chain_eq hl, Resolve.captureIn, if_pos (beq_self_eq_true _)] at h
    obtain ⟨-, rfl⟩ := ends_pure.1 h
    exact ⟨.refl, .inl rfl, fun _ _ => rfl⟩
  | @step p f hp hw ih =>
    obtain ⟨l, hl, hlp⟩ := hp
    have hlt := he.isTree.before ⟨l, hl, hlp⟩
    have hle := he.isTree.le_of_within hw
    rw [he.isTree.chain_eq hl, hlp, Option.elim_some, Resolve.captureIn, if_neg (by simp; omega),
      ends_get_bind] at h
    rcases hadd : (b.function f).captures.add d use.id with ⟨slot, isNew, captures⟩
    rw [hadd] at h
    dsimp only at h
    split at h
    . exact absurd h not_ends_throw_bind
    . obtain ⟨_, c, hset, h⟩ := ends_bind.1 h
      cases ends_modify.1 hset
      have hcaptures : ∀ x, x ∈ captures.decls ↔ x ∈ (b.function f).captures.decls ∨ x = d := by
        intro x
        rw [← @Captures.mem_decls_add _ d use.id, hadd]
      obtain ⟨hcatch, hself, hlater⟩ := ih (by simpa using hsize) (by omega) h
      have hfunction := fun j => @function_modify b f j (fun f => { f with captures }) (by omega)
      have hd : d ∈ (b'.function f).captures.decls := by
        apply hcatch.grows
        rw [hfunction f, if_pos rfl]
        exact (hcaptures d).2 (.inr rfl)
      refine ⟨⟨hcatch.rest, ?_, ?_, ?_⟩, .inr hd, ?_⟩
      . refine hcatch.functions.trans ?_
        dsimp only
        rw [map_modify_eq]
        intro f
        rfl
      . intro g x hx
        apply hcatch.grows
        rw [hfunction g]
        split
        . next heq =>
          subst heq
          exact (hcaptures x).2 (.inl hx)
        . exact hx
      . intro g x hx
        rcases hcatch.only g x hx with hx | hx
        . rw [hfunction g] at hx
          split at hx
          . next heq =>
            subst heq
            rcases (hcaptures x).1 hx with hx | rfl
            . exact .inl hx
            . exact .inr ⟨rfl, p, ⟨l, hl, hlp⟩, hself⟩
          . exact .inl hx
        . exact .inr hx
      . intro i hi
        rw [hlater i (by omega), hfunction i, if_neg (by omega)]

structure Stays (b b' : Bindings) : Prop where
  counters : b'.counters = b.counters
  sites : b'.sites = b.sites
  scopes : b'.scopes = b.scopes
  uses : b'.uses = b.uses
  scopeOf : b'.scopeOf = b.scopeOf
  aliases : b'.aliases = b.aliases

structure Caught (e : Extraction) (fn d : Nat) (decl : Declaration) (b b' : Bindings) : Prop
    where
  stays : Stays b b'
  functions : b'.functions.map (fun f => (f.node, f.words, f.frame)) =
    b.functions.map fun f => (f.node, f.words, f.frame)
  grows : ∀ f x, x ∈ (b.function f).captures.decls → x ∈ (b'.function f).captures.decls
  only : ∀ f x, x ∈ (b'.function f).captures.decls → x ∈ (b.function f).captures.decls ∨
    (x = d ∧ decl.owner ≠ fn) ∧
      ∃ p, Lineage.Parent e.lineage p f ∧ (decl.owner = p ∨ d ∈ (b'.function p).captures.decls)
  decls : ∀ i, (b'.decls.get? i).map (fun x => (x.owner, x.isCaptured)) =
    (b.decls.get? i).map fun x => (x.owner, x.isCaptured || decide (i = d ∧ x.owner ≠ fn))
  reached : decl.owner = fn ∨ d ∈ (b'.function fn).captures.decls
  later : ∀ i, fn < i → (b'.function i).captures = (b.function i).captures

theorem lineage_of_frame (h : b.functions.map (·.frame) = e.functions.map (·.frame)) :
    b.lineage = e.lineage := by
  have hmap := congrArg (Array.map Function.lineage) h
  simp only [Array.map_map] at hmap
  exact hmap

theorem caught_capture (he : e.IsSplit) {use : Node} {decl : Declaration} {u : Unit}
    (hframe : b.functions.map (·.frame) = e.functions.map (·.frame))
    (hd : b.decls.get? d = some decl) (hw : Lineage.Within e.lineage decl.owner fn)
    (hfn : fn < e.functions.size) (h : Ends (Resolve.capture fn d use) b u b') :
    Caught e fn d decl b b' := by
  unfold Resolve.capture at h
  obtain ⟨_, c, hmark, h⟩ := ends_bind.1 h
  cases ends_modify.1 hmark
  rw [ends_get_bind] at h
  dsimp only at h
  have howner : (({ b with decls := b.decls.modify d fun x => { x with isReferenced := true } } :
      Bindings).decl d).owner = decl.owner := by
    unfold Bindings.decl
    rw [Table.getD_eq_get?, Table.get?_modify, if_pos rfl, hd]
    rfl
  rw [howner] at h
  split at h
  . next heq =>
    obtain ⟨-, rfl⟩ := ends_pure.1 h
    have heq : decl.owner = fn := by simpa using heq
    refine ⟨⟨rfl, rfl, rfl, rfl, rfl, rfl⟩, rfl, fun _ _ h => h, fun _ _ h => .inl h, ?_, .inl heq,
      fun _ _ => rfl⟩
    intro i
    dsimp only
    rw [Table.get?_modify]
    split
    . next hi =>
      subst hi
      rw [hd]
      simp [heq]
    . next hi => simp [Ne.symm hi]
  . next hne =>
    have hne : decl.owner ≠ fn := by simpa using hne
    obtain ⟨_, c, hmark, h⟩ := ends_bind.1 h
    cases ends_modify.1 hmark
    have hlineage : ∀ decls, ({ b with decls } : Bindings).lineage = e.lineage :=
      fun _ => lineage_of_frame hframe
    rw [hlineage] at h
    dsimp only at h
    have hsize : b.functions.size = e.functions.size := by
      have := congrArg Array.size hframe
      rwa [Array.size_map, Array.size_map] at this
    obtain ⟨hcatch, hself, hlater⟩ := catches_captureIn he (by exact hsize) hw hfn h
    have hrest := hcatch.rest
    refine ⟨?_, hcatch.functions, hcatch.grows, ?_, ?_, hself, hlater⟩
    . rw [hrest]
      exact ⟨rfl, rfl, rfl, rfl, rfl, rfl⟩
    . intro f x hx
      rcases hcatch.only f x hx with hx | ⟨rfl, hp⟩
      . exact .inl hx
      . exact .inr ⟨⟨rfl, hne⟩, hp⟩
    . intro i
      rw [hrest]
      dsimp only
      rw [Table.get?_modify, Table.get?_modify]
      split
      . next heq =>
        subst heq
        rw [hd]
        simp [hne]
      . next hi => simp [Ne.symm hi]

structure Referring (e : Extraction) (fn : Nat) (b : Bindings) : Prop where
  linked : Linked e (fn + 1) b
  own : ∀ f g, f ≤ fn → e.functions[f]? = some g → g.isArrow = false → b.HasWords f

def Reaches (b : Bindings) (fn d : Nat) : Prop :=
  ∃ decl, b.decls.get? d = some decl ∧ (decl.owner = fn ∨ d ∈ (b.function fn).captures.decls)

theorem Caught.exists_of_get {decl : Declaration} (h : Caught e fn d decl b b') {i : Nat}
    {x : Declaration} (hx : b.decls.get? i = some x) : ∃ x', b'.decls.get? i = some x' ∧
      x'.owner = x.owner ∧ x'.isCaptured = (x.isCaptured || decide (i = d ∧ x.owner ≠ fn)) := by
  have hmap := h.decls i
  rw [hx, Option.map_some] at hmap
  obtain ⟨x', hx', hpair⟩ := Option.map_eq_some_iff.1 hmap
  rw [Prod.mk.injEq] at hpair
  exact ⟨x', hx', hpair⟩

theorem Caught.exists_of_get' {decl : Declaration} (h : Caught e fn d decl b b') {i : Nat}
    {x' : Declaration} (hx' : b'.decls.get? i = some x') : ∃ x, b.decls.get? i = some x ∧
      x'.owner = x.owner ∧ x'.isCaptured = (x.isCaptured || decide (i = d ∧ x.owner ≠ fn)) := by
  have hmap := h.decls i
  rw [hx', Option.map_some] at hmap
  obtain ⟨x, hx, hpair⟩ := Option.map_eq_some_iff.1 hmap.symm
  rw [Prod.mk.injEq] at hpair
  exact ⟨x, hx, hpair.1.symm, hpair.2.symm⟩

structure Notes (e : Extraction) (fn d : Nat) (b : Bindings) (uses : Std.TreeMap Nat Binding) : Prop
    where
  new : ∀ id u x, uses.get? id = some u → u.decl? = some x →
    b.uses.get? id = some u ∨ e.InTree fn id ∧ x = d
  old : ∀ f id u x decl, e.InTree f id → b.uses.get? id = some u → u.decl? = some x →
    b.decls.get? x = some decl → f ≠ decl.owner → uses.get? id = some u
  made : ∀ id, e.counters.node ≤ id → uses.get? id = b.uses.get? id

theorem Linked.caught {k : Nat} {uses : Std.TreeMap Nat Binding} {decl : Declaration}
    (hb : Linked e k b) (hnotes : Notes e fn d b uses) (hd : b.decls.get? d = some decl)
    (hused : Uses e { b with uses } fn d)
    (h : Caught e fn d decl { b with uses } b') : Linked e k b' := by
  have hwords : b'.functions.map (·.words) = b.functions.map (·.words) := by
    have hmap := congrArg (Array.map fun p => p.2.1) h.functions
    simp only [Array.map_map] at hmap
    exact hmap
  have hframe : b'.functions.map (·.frame) = b.functions.map (·.frame) := by
    have hmap := congrArg (Array.map fun p => p.2.2) h.functions
    simp only [Array.map_map] at hmap
    exact hmap
  obtain ⟨hcounters, hsites, hscopes, huses, hscopeOf, haliases⟩ := h.stays
  constructor
  case counters =>
    rw [hcounters]
    exact hb.counters
  case functions => exact hframe.trans hb.functions
  case sites => exact hsites.trans hb.sites
  case scopes =>
    rw [hscopes]
    intro j s hs
    obtain ⟨hk, hparent, hnames⟩ := hb.scopes j s hs
    refine ⟨hk, hparent, fun name i hi => ?_⟩
    obtain ⟨x, hx, howner⟩ := hnames name i hi
    obtain ⟨x', hx', howner', -⟩ := h.exists_of_get hx
    exact ⟨x', hx', howner'.trans howner⟩
  case decls =>
    intro i x' hx'
    obtain ⟨x, hx, howner, -⟩ := h.exists_of_get' hx'
    rw [howner, hcounters]
    exact hb.decls i x hx
  case scopeOf =>
    rw [hscopeOf, hscopes]
    exact hb.scopeOf
  case uses =>
    rw [huses, hcounters]
    intro id u x hu hx
    rcases hnotes.new id u x hu hx with hu | ⟨htree, rfl⟩
    . obtain ⟨y, hy, hcase⟩ := hb.uses id u x hu hx
      obtain ⟨y', hy', howner, -⟩ := h.exists_of_get hy
      refine ⟨y', hy', hcase.imp_left ?_⟩
      rintro ⟨f, hf, hcase⟩
      exact ⟨f, hf, hcase.imp howner.trans (h.grows f x)⟩
    . obtain ⟨y', hy', howner, -⟩ := h.exists_of_get hd
      exact ⟨y', hy', .inl ⟨fn, htree, h.reached.imp_left howner.trans⟩⟩
  case aliases =>
    rw [haliases, huses, hcounters]
    intro id outer hid
    obtain ⟨hle, hlt, f, u, x, y, hf, hu, hx, hy, howner⟩ := hb.aliases id outer hid
    obtain ⟨y', hy', howner', -⟩ := h.exists_of_get hy
    exact ⟨hle, hlt, f, u, x, y', hf, (hnotes.made _ hle).trans hu, hx, hy', howner'.trans howner⟩
  case captures =>
    intro f x hx
    rcases h.only f x hx with hx | ⟨⟨rfl, hne⟩, p, hp, hcase⟩
    . obtain ⟨y, p, hy, hcaptured, hp, hcase⟩ := hb.captures f x hx
      obtain ⟨y', hy', howner, hcaptured'⟩ := h.exists_of_get hy
      exact ⟨y', p, hy', by simp [hcaptured', hcaptured], hp, hcase.imp howner.trans (h.grows p x)⟩
    . obtain ⟨y', hy', howner, hcaptured⟩ := h.exists_of_get hd
      exact ⟨y', p, hy', by simp [hcaptured, hne], hp, hcase.imp_left howner.trans⟩
  case captured =>
    intro i x' hx' hcaptured
    obtain ⟨x, hx, howner, hcaptured'⟩ := h.exists_of_get' hx'
    rw [hcaptured', Bool.or_eq_true, decide_eq_true_eq] at hcaptured
    rw [howner]
    rcases hcaptured with hcaptured | ⟨rfl, hne⟩
    . obtain ⟨f, hf, hold⟩ := hb.captured i x hx hcaptured
      refine ⟨f, hf, hold.transfer ?_ hwords⟩
      intro id u htree hu hd
      rw [huses]
      exact ⟨u, hnotes.old f id u i x htree hu hd hx hf, hd⟩
    . refine ⟨fn, Ne.symm hne, hused.transfer ?_ hwords⟩
      intro id u htree hu hd
      exact ⟨u, huses ▸ hu, hd⟩

structure Refers (e : Extraction) (fn : Nat) (nodes : List Node) (b b' : Bindings) : Prop where
  referring : Referring e fn b'
  counters : b'.counters = b.counters
  scopes : b'.scopes = b.scopes
  scopeOf : b'.scopeOf = b.scopeOf
  functions : b'.functions.map (fun f => (f.node, f.words)) =
    b.functions.map fun f => (f.node, f.words)
  decls : ∀ d, (b'.decls.get? d).map (·.owner) = (b.decls.get? d).map (·.owner)
  grows : ∀ f d, d ∈ (b.function f).captures.decls → d ∈ (b'.function f).captures.decls
  later : ∀ i, fn < i → (b'.function i).captures = (b.function i).captures
  uses : ∀ id, b'.uses.get? id = b.uses.get? id ∨
    ∃ m ∈ nodes, m.id = id ∧ (m.kind = .identifier → b.uses.get? id = none)

theorem Refers.refl (hb : Referring e fn b) : Refers e fn [] b b :=
  ⟨hb, rfl, rfl, rfl, rfl, fun _ => rfl, fun _ _ h => h, fun _ _ => rfl, fun _ => .inl rfl⟩

theorem Refers.trans {nodes nodes' : List Node} {c : Bindings} (h : Refers e fn nodes b c)
    (h' : Refers e fn nodes' c b') : Refers e fn (nodes ++ nodes') b b' where
  referring := h'.referring
  counters := h'.counters.trans h.counters
  scopes := h'.scopes.trans h.scopes
  scopeOf := h'.scopeOf.trans h.scopeOf
  functions := h'.functions.trans h.functions
  decls d := (h'.decls d).trans (h.decls d)
  grows f d hd := h'.grows f d (h.grows f d hd)
  later i hi := (h'.later i hi).trans (h.later i hi)
  uses id := by
    rcases h.uses id with hsame | ⟨m, hm, hid, hnone⟩
    . rcases h'.uses id with hsame' | ⟨m, hm, hid, hnone⟩
      . exact .inl (hsame'.trans hsame)
      . exact .inr ⟨m, List.mem_append_right _ hm, hid, fun hkind => hsame ▸ hnone hkind⟩
    . exact .inr ⟨m, List.mem_append_left _ hm, hid, hnone⟩

theorem Refers.mono {nodes nodes' : List Node} (h : Refers e fn nodes b b')
    (hsub : nodes ⊆ nodes') :
    Refers e fn nodes' b b' :=
  { h with
    uses := fun id => (h.uses id).imp_right fun hm =>
      hm.elim fun m hm => ⟨m, hsub hm.1, hm.2⟩ }

theorem Refers.declIn {nodes : List Node} (h : Refers e fn nodes b b') {f : Nat}
    (hd : b.DeclIn f d) : b'.DeclIn f d := by
  obtain ⟨decl, hdecl, howner⟩ := hd
  have hmap := h.decls d
  rw [hdecl, Option.map_some] at hmap
  obtain ⟨decl', hdecl', howner'⟩ := Option.map_eq_some_iff.1 hmap
  exact ⟨decl', hdecl', howner'.trans howner⟩

theorem Refers.reaches {nodes : List Node} (h : Refers e fn nodes b b') {f : Nat}
    (hd : b.Reaches f d) : b'.Reaches f d := by
  obtain ⟨decl, hdecl, hcase⟩ := hd
  obtain ⟨decl', hdecl', howner⟩ := h.declIn ⟨decl, hdecl, rfl⟩
  exact ⟨decl', hdecl', hcase.imp howner.trans (h.grows f d)⟩

theorem hasWords_of_eq {f : Nat} (h : b.HasWords f)
    (hwords : (b'.function f).words = (b.function f).words)
    (hdecls : ∀ d, b.DeclIn f d → b'.DeclIn f d) : b'.HasWords f := by
  obtain ⟨this, target, value, hw, hthis, htarget, hvalue⟩ := h
  refine ⟨this, target, value, ?_, hdecls _ hthis, hdecls _ htarget, hdecls _ hvalue⟩
  have hlineage : (b'.function f).lineage = (b.function f).lineage := congrArg Prod.fst hwords
  rw [hwords, hw, hlineage]

theorem refers_caught {uses : Std.TreeMap Nat Binding} {decl : Declaration} {nodes : List Node}
    (hb : Referring e fn b) (hnotes : Notes e fn d b uses) (hd : b.decls.get? d = some decl)
    (hused : Uses e { b with uses } fn d) (h : Caught e fn d decl { b with uses } b')
    (huses : ∀ id, uses.get? id = b.uses.get? id ∨
      ∃ m ∈ nodes, m.id = id ∧ (m.kind = .identifier → b.uses.get? id = none)) :
    Refers e fn nodes b b' ∧ b'.Reaches fn d := by
  have hfunctions : b'.functions.map (fun f => (f.node, f.words)) =
      b.functions.map fun f => (f.node, f.words) := by
    have hmap := congrArg (Array.map fun p => (p.1, p.2.1)) h.functions
    simp only [Array.map_map] at hmap
    exact hmap
  have hdecls : ∀ i, (b'.decls.get? i).map (·.owner) = (b.decls.get? i).map (·.owner) := by
    intro i
    have hmap := congrArg (Option.map Prod.fst) (h.decls i)
    simp only [Option.map_map] at hmap
    exact hmap
  have hin : ∀ f x, b.DeclIn f x → b'.DeclIn f x := by
    rintro f x ⟨y, hy, howner⟩
    obtain ⟨y', hy', howner', -⟩ := h.exists_of_get hy
    exact ⟨y', hy', howner'.trans howner⟩
  refine ⟨⟨⟨hb.linked.caught hnotes hd hused h, ?_⟩, h.stays.counters, h.stays.scopes,
    h.stays.scopeOf, hfunctions, hdecls, h.grows, h.later, ?_⟩, ?_⟩
  . intro f g hf hg harrow
    exact hasWords_of_eq (hb.own f g hf hg harrow) (congrArg Prod.snd (map_function hfunctions f))
      (hin f)
  . rw [h.stays.uses]
    exact huses
  . obtain ⟨decl', hdecl', howner', -⟩ := h.exists_of_get hd
    exact ⟨decl', hdecl', h.reached.imp_left howner'.trans⟩

def Untouched (b : Bindings) (fn : Nat) (nodes : List Node) : Prop :=
  ∀ m ∈ nodes, ∀ u d decl, b.uses.get? m.id = some u → u.decl? = some d →
    b.decls.get? d = some decl → decl.owner = fn

theorem refers_use (he : e.IsSplit) {n : Node} {binding : Binding} {decl : Declaration} {u : Unit}
    (hb : Referring e fn b) (hfn : fn < e.functions.size) (htree : e.InTree fn n.id)
    (huntouched : Untouched b fn [n]) (hkind : n.kind = .identifier → b.uses.get? n.id = none)
    (hbinding : binding.decl? = some d) (hd : b.decls.get? d = some decl)
    (hw : Lineage.Within e.lineage decl.owner fn)
    (h : Ends (Resolve.capture fn d n) { b with uses := b.uses.insert n.id binding } u b') :
    Refers e fn [n] b b' ∧ b'.Reaches fn d := by
  have hcaught := caught_capture he (by exact hb.linked.functions) (by exact hd) hw hfn h
  refine @refers_caught e fn d b b' (b.uses.insert n.id binding) decl [n] hb ⟨?_, ?_, ?_⟩ hd
    (.name htree Table.get?_insert_self hbinding) hcaught ?_
  . intro id u x hu hx
    rw [Table.get?_insert] at hu
    split at hu
    . next heq =>
      cases hu
      rw [hbinding] at hx
      cases hx
      exact .inr ⟨heq ▸ htree, rfl⟩
    . exact .inl hu
  . intro f id u x y hid hu hx hy hne
    rw [Table.get?_insert, if_neg]
    . exact hu
    . rintro rfl
      apply hne
      rw [he.eq_of_inTree hid htree]
      exact (huntouched n List.mem_cons_self u x y hu hx hy).symm
  . intro id hid
    have := he.lt_of_inTree htree
    exact Table.get?_insert_of_ne (by omega)
  . intro id
    rw [Table.get?_insert]
    split
    . next heq =>
      subst heq
      exact .inr ⟨n, List.mem_cons_self, rfl, hkind⟩
    . exact .inl rfl

theorem refers_capture (he : e.IsSplit) {n : Node} {decl : Declaration} {u : Unit}
    (hb : Referring e fn b) (hfn : fn < e.functions.size) (hd : b.decls.get? d = some decl)
    (hw : Lineage.Within e.lineage decl.owner fn) (hused : Uses e b fn d)
    (h : Ends (Resolve.capture fn d n) b u b') : Refers e fn [] b b' ∧ b'.Reaches fn d := by
  have hcaught := caught_capture he hb.linked.functions hd hw hfn h
  refine @refers_caught e fn d b b' b.uses decl [] hb ⟨?_, ?_, ?_⟩ hd hused hcaught
    (fun _ => .inl rfl)
  . exact fun _ _ _ hu _ => .inl hu
  . exact fun _ _ _ _ _ _ hu _ _ _ => hu
  . exact fun _ _ => rfl

theorem Linked.within_of_resolveIn {k fuel i : Nat} {s : Scope} {name : String}
    {throughWith : Bool} (hb : Linked e k b) (hs : b.scopes[i]? = some s)
    (hd : (Scopes.resolveIn name throughWith (b.scopes.chainFrom fuel (some i))).decl = some d) :
    ∃ decl, b.decls.get? d = some decl ∧ Lineage.Within e.lineage decl.owner s.owner := by
  induction fuel generalizing i s throughWith with
  | zero => cases hd
  | succ fuel ih =>
    rw [Scopes.chainFrom, hs] at hd
    dsimp only [Scopes.resolveIn] at hd
    obtain ⟨-, hparent, hnames⟩ := hb.scopes i s hs
    split at hd
    . next hlookup =>
      cases hd
      obtain ⟨decl, hdecl, howner⟩ := hnames name d (mem_of_lookup hlookup)
      exact ⟨decl, hdecl, howner ▸ .self⟩
    . cases hp : s.parent with
      | none =>
        rw [hp] at hd
        cases fuel <;> cases hd
      | some p =>
        rw [hp] at hd
        obtain ⟨t, ht, howner⟩ := hparent p hp
        obtain ⟨decl, hdecl, hw⟩ := ih ht hd
        refine ⟨decl, hdecl, ?_⟩
        rcases howner with howner | howner
        . exact howner ▸ hw
        . exact .step howner hw

theorem refers_setGlobal (he : e.IsSplit) {n : Node} {u : Unit} (hb : Referring e fn b)
    (htree : e.InTree fn n.id) (hnone : b.uses.get? n.id = none)
    (h : Ends (Resolve.setUse n .global) b u b') : Refers e fn [n] b b' := by
  cases ends_modify.1 h
  have hget : ∀ id, id ≠ n.id → (b.uses.insert n.id .global).get? id = b.uses.get? id :=
    fun id hne => Table.get?_insert_of_ne (Ne.symm hne)
  refine ⟨⟨{ hb.linked with uses := ?_, aliases := ?_, captured := ?_ }, hb.own⟩, rfl, rfl, rfl,
    rfl, fun _ => rfl, fun _ _ h => h, fun _ _ => rfl, ?_⟩
  . intro id u d hu hd
    dsimp only at hu ⊢
    rw [Table.get?_insert] at hu
    split at hu
    . cases hu
      cases hd
    . exact hb.linked.uses id u d hu hd
  . intro id outer hid
    obtain ⟨hle, hlt, f, u, d, decl, hf, hu, hrest⟩ := hb.linked.aliases id outer hid
    have := he.lt_of_inTree htree
    exact ⟨hle, hlt, f, u, d, decl, hf, (hget _ (by omega)).trans hu, hrest⟩
  . intro d decl hdecl hcaptured
    obtain ⟨f, hf, hused⟩ := hb.linked.captured d decl hdecl hcaptured
    refine ⟨f, hf, hused.transfer ?_ rfl⟩
    intro id u _ hu hd
    refine ⟨u, (hget id ?_).trans hu, hd⟩
    rintro rfl
    rw [hnone] at hu
    cases hu
  . intro id
    by_cases heq : n.id = id
    . subst heq
      exact .inr ⟨n, List.mem_cons_self, rfl, fun _ => hnone⟩
    . exact .inl (hget id (Ne.symm heq))

theorem Referring.exists_words (he : e.IsSplit) (hb : Referring e fn b)
    (hfn : fn < e.functions.size) :
    ∃ o this target value, b.thisOwner fn = o ∧ Lineage.Within e.lineage o fn ∧
      (b.function o).this = some this ∧ (b.function o).newTarget = some target ∧
      (b.function o).functionValue = some value ∧ b.DeclIn o this ∧ b.DeclIn o target ∧
      b.DeclIn o value := by
  have hsize : fn < e.lineage.size := by
    unfold Extraction.lineage
    rwa [Array.size_map]
  obtain ⟨o, l, hthis, hw, hl, harrow⟩ := he.isTree.exists_thisOwner hsize
  unfold Extraction.lineage at hl
  rw [Array.getElem?_map, Option.map_eq_some_iff] at hl
  obtain ⟨g, hg, rfl⟩ := hl
  obtain ⟨this, target, value, hwords, hdecls⟩ :=
    hb.own o g (he.isTree.le_of_within hw) hg harrow
  obtain ⟨-, hthisWord, htarget, hvalue⟩ := Function.words_eq_iff.1 hwords
  refine ⟨o, this, target, value, ?_, hw, hthisWord, htarget, hvalue, hdecls⟩
  unfold thisOwner
  rw [lineage_of_frame hb.linked.functions, hthis, Option.getD_some]

def SuperReached (b : Bindings) (fn : Nat) (list : List (Option Place × Node)) : Prop :=
  ∀ x ∈ list, x.2.kind = .super →
    (∀ d, (b.function (b.thisOwner fn)).this = some d → b.Reaches fn d) ∧
    ((x.1.any fun p => p.parent.kind == .call && p.role == .callee) = true →
      ∀ d, (b.function (b.thisOwner fn)).newTarget = some d → b.Reaches fn d)

theorem Refers.words_eq {nodes : List Node} (h : Refers e fn nodes b b') :
    b'.functions.map (·.words) = b.functions.map (·.words) := by
  have hmap := congrArg (Array.map Prod.snd) h.functions
  simp only [Array.map_map] at hmap
  exact hmap

theorem Refers.thisOwner_eq {nodes : List Node} (h : Refers e fn nodes b b') (f : Nat) :
    (b'.function (b'.thisOwner f)).words = (b.function (b.thisOwner f)).words := by
  unfold thisOwner
  rw [lineage_of_words h.words_eq]
  exact map_function h.words_eq _

theorem Refers.superReached {nodes : List Node} {list : List (Option Place × Node)}
    (h : Refers e fn nodes b b') (hlist : SuperReached b fn list) : SuperReached b' fn list := by
  intro x hx hkind
  have hwords := Function.words_eq_iff.1 (h.thisOwner_eq fn)
  obtain ⟨hthis, htarget⟩ := hlist x hx hkind
  constructor
  . intro d hd
    exact h.reaches (hthis d (hwords.2.1.symm.trans hd))
  . intro hcall d hd
    exact h.reaches (htarget hcall d (hwords.2.2.1.symm.trans hd))

end Bindings

def Part.sketch : Part → Role × Option (Nat × Bool)
  | .node r c => (r, some (c.id, c.kind == .super))
  | .hole r => (r, none)

def Node.shape (n : Node) : Nat × Label × List (Role × Option (Nat × Bool)) :=
  (n.id, n.label, n.parts.map Part.sketch)

def Node.Becomes (m m' : Node) : Prop :=
  m'.shape = m.shape ∨ m.kind = .identifier ∧ m'.kind = .literal ∧ m'.id = m.id

structure Node.Rewrites (n n' : Node) : Prop where
  sketch : ∀ r, (Part.node r n').sketch = (Part.node r n).sketch
  nodes : List.Forall₂ Node.Becomes n.preorder n'.preorder

theorem Node.becomes_refl (nodes : List Node) : List.Forall₂ Node.Becomes nodes nodes :=
  List.forall₂_same.2 fun _ _ => .inl rfl

theorem Node.exists_of_becomes {nodes nodes' : List Node} {m' : Node}
    (h : List.Forall₂ Node.Becomes nodes nodes') (hm : m' ∈ nodes') : ∃ m ∈ nodes,
      m.Becomes m' := by
  induction h with
  | nil => cases hm
  | @cons m _ nodes _ hbecomes _ ih =>
    rcases List.mem_cons.1 hm with rfl | hm
    . exact ⟨m, List.mem_cons_self, hbecomes⟩
    . obtain ⟨x, hx, hbecomes⟩ := ih hm
      exact ⟨x, List.mem_cons_of_mem _ hx, hbecomes⟩

theorem Node.Rewrites.refl (n : Node) : n.Rewrites n :=
  ⟨fun _ => rfl, becomes_refl _⟩

theorem Node.Rewrites.ofParts {id : Nat} {span : Span} {label : Label} {parts parts' : List Part}
    (hsketch : parts'.map Part.sketch = parts.map Part.sketch)
    (hnodes : List.Forall₂ Node.Becomes (Part.nodes parts) (Part.nodes parts')) :
    (Node.mk id span label parts).Rewrites (.mk id span label parts') := by
  refine ⟨fun _ => rfl, ?_⟩
  rw [Node.preorder_eq, Node.preorder_eq]
  exact .cons (.inl (Prod.ext rfl (Prod.ext rfl hsketch))) hnodes

namespace Resolve

open Bindings

variable {e : Extraction} {fn : Nat} {b b' : Bindings} {g : Function} {n n' : Node}
  {place : Option Place}

theorem refers_name (he : e.IsSplit) (hb : Referring e fn b) (hfn : fn < e.functions.size)
    (htree : e.InTree fn n.id) (hnone : b.uses.get? n.id = none) (hkind : n.kind = .identifier)
    (hparts : n.parts = []) (h : Ends (referName fn place n) b n' b') : Refers e fn [n] b b' ∧
      n.Rewrites n' := by
  unfold referName at h
  rw [ends_get_bind] at h
  dsimp only at h
  split at h
  . split at h
    . next l hl =>
      obtain ⟨rfl, rfl⟩ := ends_pure.1 h
      refine ⟨(Refers.refl hb).mono (List.nil_subset _), fun _ => ?_, ?_⟩
      . dsimp only [Part.sketch]
        rw [hkind]
        rfl
      . rw [Node.preorder_eq n, hparts]
        exact .cons (.inr ⟨hkind, rfl, rfl⟩) .nil
    . obtain ⟨_, c, hset, h⟩ := ends_bind.1 h
      obtain ⟨rfl, rfl⟩ := ends_pure.1 h
      exact ⟨refers_setGlobal he hb htree hnone hset, .refl _⟩
  . next d hd =>
    rw [ends_bind] at h
    obtain ⟨_, c, hset, h⟩ := h
    cases ends_modify.1 hset
    split at h
    . exact absurd h not_ends_throw_bind
    . obtain ⟨_, c, hcapture, h⟩ := ends_bind.1 h
      obtain ⟨hn, rfl⟩ := ends_pure.1 h
      rw [hn]
      obtain ⟨decl, hdecl, hw⟩ : ∃ decl, b.decls.get? d = some decl ∧
          Lineage.Within e.lineage decl.owner fn := by
        cases hsc : b.scopeOf.get? n.id with
        | none =>
          rw [hsc] at hd
          cases hd
        | some sc =>
          rw [hsc, Option.map_some, Option.getD_some] at hd
          obtain ⟨s, hs, hin⟩ := hb.linked.scopeOf _ _ hsc
          obtain rfl := he.eq_of_inTree htree hin
          exact hb.linked.within_of_resolveIn hs hd
      refine ⟨(refers_use he hb hfn htree ?_ (fun _ => hnone) ?_ hdecl hw hcapture).1, .refl _⟩
      . intro m hm u d decl hu
        obtain rfl := List.mem_singleton.1 hm
        rw [hnone] at hu
        cases hu
      . split <;> rfl

theorem refers_word (he : e.IsSplit) (hb : Referring e fn b) (hfn : fn < e.functions.size)
    (htree : e.InTree fn n.id) (huntouched : Untouched b fn [n]) (hkind : n.kind ≠ .identifier)
    {o d : Nat} {u : Unit} (hd : b.DeclIn o d) (hw : Lineage.Within e.lineage o fn)
    (h : Ends (referWord fn n (some d)) b u b') : Refers e fn [n] b b' := by
  obtain ⟨decl, hdecl, rfl⟩ := hd
  unfold referWord at h
  obtain ⟨_, c, hset, h⟩ := ends_bind.1 h
  cases ends_modify.1 hset
  exact (refers_use he hb hfn htree huntouched (fun hk => absurd hk hkind) rfl hdecl hw h).1

structure Stands (g : Function) (place : Option Place) (n : Node) : Prop where
  mem : n ∈ g.node.preorder
  parent : ∀ p, place = some p → p.parent ∈ g.node.preorder ∧ .node p.role n ∈ p.parent.parts

theorem refers_super (he : e.IsSplit) (hg : e.functions[fn]? = some g) (hb : Referring e fn b)
    (hstands : Stands g place n) (htree : e.InTree fn n.id) (huntouched : Untouched b fn [n])
    (hkind : n.kind = .super) {u : Unit} (h : Ends (referSuper fn place n) b u b') :
    Refers e fn [n] b b' ∧ SuperReached b' fn [(place, n)] := by
  have hfn : fn < e.functions.size := (Array.getElem?_eq_some_iff.1 hg).1
  obtain ⟨o, this, target, value, ho, hw, hthis, htarget, hvalue, hthisIn, htargetIn, hvalueIn⟩ :=
    hb.exists_words he hfn
  unfold referSuper at h
  rw [ends_get_bind, ho] at h
  dsimp only at h
  rw [hvalue, hthis, htarget, Option.getD_some, Option.getD_some] at h
  -- The word itself and `this` are bound in any case.
  have hbase : ∀ {c}, Ends (do referWord fn n (some value); capture fn this n) b u c →
      Refers e fn [n] b c ∧ c.Reaches fn this := by
    intro c h
    obtain ⟨_, c₁, hword, h⟩ := ends_bind.1 h
    have hfirst := refers_word he hb hfn htree huntouched (by simp [hkind]) hvalueIn hw hword
    obtain ⟨decl, hdecl, howner⟩ := hfirst.declIn hthisIn
    have hwords := Function.words_eq_iff.1 (hfirst.thisOwner_eq fn)
    obtain ⟨hsecond, hreach⟩ := refers_capture he hfirst.referring hfn hdecl (howner ▸ hw)
      (.superThis hg hstands.mem hkind (hwords.2.1.trans (ho ▸ hthis))) h
    exact ⟨hfirst.trans hsecond, hreach⟩
  generalize hcall : (place.any fun p => p.parent.kind == .call && p.role == .callee) = isCall at h
  have hanswer : ∀ {c}, Refers e fn [n] b c → c.Reaches fn this →
      (isCall = true → c.Reaches fn target) → SuperReached c fn [(place, n)] := by
    intro c hc hreach hreach'
    obtain ⟨-, hthisWord, htargetWord, -⟩ := Function.words_eq_iff.1 (hc.thisOwner_eq fn)
    intro x hx _
    obtain rfl := List.mem_singleton.1 hx
    dsimp only
    rw [hthisWord, htargetWord, ho, Function.words, hthis, htarget, hcall]
    constructor
    . rintro d ⟨⟩
      exact hreach
    . rintro hisCall d ⟨⟩
      exact hreach' hisCall
  cases isCall with
  | false =>
    simp only [Bool.false_eq_true, if_false] at h
    split at h
    . exact absurd h not_ends_throw_bind
    . obtain ⟨_, c, hword, h⟩ := ends_bind.1 h
      obtain ⟨_, c', hcapture, h⟩ := ends_bind.1 h
      obtain ⟨-, rfl⟩ := ends_pure.1 h
      obtain ⟨hrefers, hreach⟩ := hbase (ends_bind.2 ⟨_, c, hword, hcapture⟩)
      exact ⟨hrefers, hanswer hrefers hreach fun hfalse => by cases hfalse⟩
  | true =>
    simp only [if_true] at h
    split at h
    . exact absurd h not_ends_throw_bind
    . obtain ⟨_, c, hword, h⟩ := ends_bind.1 h
      obtain ⟨_, c', hcapture, h⟩ := ends_bind.1 h
      obtain ⟨hrefers, hreach⟩ := hbase (ends_bind.2 ⟨_, c, hword, hcapture⟩)
      obtain ⟨decl, hdecl, howner⟩ := hrefers.declIn htargetIn
      have hwords := Function.words_eq_iff.1 (hrefers.thisOwner_eq fn)
      cases place with
      | none => cases hcall
      | some p =>
        obtain ⟨hparent, hpart⟩ := hstands.parent p rfl
        simp only [Option.any_some, Bool.and_eq_true, beq_iff_eq] at hcall
        obtain ⟨hlast, hreach'⟩ := refers_capture he hrefers.referring hfn hdecl (howner ▸ hw)
          (.superTarget hg hparent hcall.1 (hcall.2 ▸ hpart) hkind
            (hwords.2.2.1.trans (ho ▸ htarget))) h
        have hall := hrefers.trans hlast
        exact ⟨hall, hanswer hall (hlast.reaches hreach) fun _ => hreach'⟩

theorem Untouched.rest {nodes rest : List Node} (h : Untouched b fn rest)
    (hrefers : Refers e fn nodes b b') (hapart : ∀ m ∈ nodes, ∀ m' ∈ rest, m.id ≠ m'.id) :
    Untouched b' fn rest := by
  intro m' hm' u d decl hu hd hdecl
  have hmap := hrefers.decls d
  rw [hdecl, Option.map_some] at hmap
  obtain ⟨decl', hdecl', howner⟩ := Option.map_eq_some_iff.1 hmap.symm
  rw [← howner]
  rcases hrefers.uses m'.id with hsame | ⟨m, hm, hid, -⟩
  . exact h m' hm' u d decl' (hsame ▸ hu) hd hdecl'
  . exact absurd hid (hapart m hm m' hm')

mutual

theorem refers_refer (he : e.IsSplit) (hg : e.functions[fn]? = some g) :
    ∀ (n : Node) ⦃place : Option Place⦄ ⦃b : Bindings⦄ ⦃n' : Node⦄ ⦃b' : Bindings⦄,
      Referring e fn b → Stands g place n → Held e fn n → Untouched b fn n.preorder →
      (∀ x, Part.times x [.node .body n] ≤ 1) → Ends (refer fn place n) b n' b' →
      Refers e fn n.preorder b b' ∧ n.Rewrites n' ∧ SuperReached b' fn (n.walk place)
  | .mk id span label parts => by
    intro place b n' b' hb hstands hheld huntouched honce h
    have hfn : fn < e.functions.size := (Array.getElem?_eq_some_iff.1 hg).1
    have hself := hheld.self
    rw [refer.eq_def] at h
    dsimp only at h
    -- The first four kinds of nodes have nothing below them.
    have hleaf : label.kind.roles = [] → parts = [] :=
      fun hroles => hself.2.1.parts_eq_nil hroles
    have hhead : Untouched b fn [.mk id span label parts] := by
      intro m hm
      rw [List.mem_singleton.1 hm]
      exact huntouched _ Node.mem_preorder_self
    have hquiet : ∀ c, label.kind ≠ .super → SuperReached c fn
      [(place, .mk id span label parts)] := by
      intro c hkind x hx hsuper
      rw [List.mem_singleton.1 hx] at hsuper
      exact absurd hsuper hkind
    obtain ⟨o, this, target, value, ho, hw, hthis, htarget, -, hthisIn, htargetIn, -⟩ :=
      hb.exists_words he hfn
    split at h
    . next name =>
      obtain rfl := hleaf rfl
      rw [ends_get_bind] at h
      split at h
      . next hcond =>
        simp only [Bool.and_eq_true, Option.isNone_iff_eq_none] at hcond
        obtain ⟨hrefers, hrewrites⟩ := refers_name he hb hfn hself.1 hcond.2 rfl rfl h
        exact ⟨hrefers, hrewrites, hquiet _ nofun⟩
      . obtain ⟨rfl, rfl⟩ := ends_pure.1 h
        exact ⟨(Refers.refl hb).mono (List.nil_subset _), .refl _, hquiet _ nofun⟩
    . obtain rfl := hleaf rfl
      rw [ends_get_bind, ho, hthis] at h
      obtain ⟨_, c, hword, h⟩ := ends_bind.1 h
      obtain ⟨rfl, rfl⟩ := ends_pure.1 h
      exact ⟨refers_word he hb hfn hself.1 hhead nofun hthisIn hw hword, .refl _, hquiet _ nofun⟩
    . obtain rfl := hleaf rfl
      rw [ends_get_bind, ho] at h
      split at h
      . exact absurd h not_ends_throw_bind
      . rw [htarget] at h
        obtain ⟨_, c, hword, h⟩ := ends_bind.1 h
        obtain ⟨rfl, rfl⟩ := ends_pure.1 h
        exact ⟨refers_word he hb hfn hself.1 hhead nofun htargetIn hw hword, .refl _,
          hquiet _ nofun⟩
    . obtain rfl := hleaf rfl
      obtain ⟨_, c, hsuper, h⟩ := ends_bind.1 h
      obtain ⟨rfl, rfl⟩ := ends_pure.1 h
      obtain ⟨hrefers, hreached⟩ := refers_super he hg hb hstands hself.1 hhead rfl hsuper
      exact ⟨hrefers, .refl _, hreached⟩
    . next hnotId hnotThis hnotMeta hnotSuper =>
      obtain ⟨parts', c, hparts, h⟩ := ends_bind.1 h
      obtain ⟨rfl, rfl⟩ := ends_pure.1 h
      obtain ⟨hrefers, hsketch, hnodes, hreached⟩ := refers_referParts he hg parts hb hstands.mem
        (List.Subset.refl _) (fun c hc => hheld.below hc) (by
          intro m hm
          apply huntouched
          rw [Node.preorder_eq]
          exact List.mem_cons_of_mem _ hm) (by
          intro x
          have := honce x
          rw [Node.times_eq, Node.parts_mk] at this
          omega) hparts
      refine ⟨hrefers.mono ?_, .ofParts hsketch hnodes, ?_⟩
      . rw [Node.preorder_eq]
        exact List.subset_cons_self _ _
      . intro x hx hkind
        rw [Node.walk, Node.walkWhere, if_pos rfl, List.mem_cons] at hx
        rcases hx with rfl | hx
        . cases label <;> first | exact absurd rfl hnotSuper | cases hkind
        . exact hreached x hx hkind

theorem refers_referParts (he : e.IsSplit) (hg : e.functions[fn]? = some g) :
    ∀ (parts : List Part) ⦃place : Option Place⦄ ⦃parent : Node⦄ ⦃b : Bindings⦄
      ⦃parts' : List Part⦄ ⦃b' : Bindings⦄, Referring e fn b → parent ∈ g.node.preorder →
        parts ⊆ parent.parts →
      (∀ c, Part.Holds parts c → Held e fn c) → Untouched b fn (Part.nodes parts) →
      (∀ x, Part.times x parts ≤ 1) → Ends (referParts fn place parent parts) b parts' b' →
      Refers e fn (Part.nodes parts) b b' ∧ parts'.map Part.sketch = parts.map Part.sketch ∧
      List.Forall₂ Node.Becomes (Part.nodes parts) (Part.nodes parts') ∧
      SuperReached b' fn (Node.walkParts (fun _ => true) place parent parts)
  | [] => by
    intro place parent b parts' b' hb _ _ _ _ _ h
    obtain ⟨rfl, rfl⟩ := ends_pure.1 h
    refine ⟨.refl hb, rfl, .nil, ?_⟩
    intro x hx
    cases hx
  | .hole role :: rest => by
    intro place parent b parts' b' hb hparent hsub hheld huntouched honce h
    rw [referParts] at h
    obtain ⟨rest', c, hrest, h⟩ := ends_bind.1 h
    obtain ⟨rfl, rfl⟩ := ends_pure.1 h
    obtain ⟨hrefers, hsketch, hnodes, hsuper⟩ := refers_referParts he hg rest hb hparent
      (fun p hp => hsub (List.mem_cons_of_mem _ hp))
      (fun c hc => hheld c (hc.imp fun r hr => List.mem_cons_of_mem _ hr)) huntouched honce hrest
    exact ⟨hrefers, congrArg (_ :: ·) hsketch, hnodes, hsuper⟩
  | .node role c :: rest => by
    intro place parent b parts' b' hb hparent hsub hheld huntouched honce h
    rw [referParts] at h
    obtain ⟨c', b₁, hc, h⟩ := ends_bind.1 h
    obtain ⟨rest', b₂, hrest, h⟩ := ends_bind.1 h
    obtain ⟨rfl, rfl⟩ := ends_pure.1 h
    have hcheld := hheld c ⟨role, List.mem_cons_self⟩
    rw [Part.nodes_node] at huntouched
    have htimes : ∀ x, Part.times x [.node .body c] + Part.times x rest ≤ 1 := by
      intro x
      have := honce x
      rwa [Part.times_cons, Part.times_node, ← Part.times_node (r := .body)] at this
    have hstands : Stands g (some (parent.placeIn place role)) c := by
      refine ⟨Node.preorder_trans hparent (Node.preorder_subset ⟨role, hsub List.mem_cons_self⟩
        Node.mem_preorder_self), ?_⟩
      rintro _ ⟨⟩
      exact ⟨hparent, hsub List.mem_cons_self⟩
    obtain ⟨hfirst, hrewrites, hsuper⟩ := refers_refer he hg c hb hstands hcheld
      (fun m hm => huntouched m (List.mem_append_left _ hm))
      (fun x => by have := htimes x; omega) hc
    have hapart : ∀ m ∈ c.preorder, ∀ m' ∈ Part.nodes rest, m.id ≠ m'.id := by
      intro m hm m' hm' heq
      have hleft : 0 < Part.times m.id [.node .body c] := Part.times_pos_of_mem (by simpa using hm)
      have hright : 0 < Part.times m'.id rest := Part.times_pos_of_mem hm'
      have := htimes m.id
      rw [heq] at hleft this
      omega
    obtain ⟨hsecond, hsketch, hnodes, hsuper'⟩ := refers_referParts he hg rest hfirst.referring
      hparent (fun p hp => hsub (List.mem_cons_of_mem _ hp))
      (fun c hc => hheld c (hc.imp fun r hr => List.mem_cons_of_mem _ hr))
      (Untouched.rest (fun m hm => huntouched m (List.mem_append_right _ hm)) hfirst hapart)
      (fun x => by have := htimes x; omega) hrest
    refine ⟨hfirst.trans hsecond, ?_, List.rel_append hrewrites.nodes hnodes, ?_⟩
    . rw [List.map_cons, List.map_cons, hsketch, hrewrites.sketch]
    . intro x hx
      rw [Node.walkParts, List.mem_append] at hx
      rcases hx with hx | hx
      . exact hsecond.superReached hsuper x hx
      . exact hsuper' x hx

end

end Resolve
end ScriptC
