import ScriptC.Proofs.Bindings.Linked

/-!
The declarations of a function. What is declared in a function belongs to it, and every function and
class that is declared in it is bound under its name.
-/

namespace ScriptC

open Pass

inductive Scopes.Inside (scopes : Scopes) (fn : Nat) : Nat → Prop
  | function {i : Nat} {s : Scope} : scopes[i]? = some s → s.owner = fn → s.isFunction = true →
    Inside scopes fn i
  | block {i p : Nat} {s : Scope} : scopes[i]? = some s → s.owner = fn → s.parent = some p →
    Inside scopes fn p → Inside scopes fn i

namespace Bindings

variable {e : Extraction} {fn : Nat} {b b' : Bindings}

theorem Declares.inside {i : Nat} (h : Declares e fn b b') (hi : b.scopes.Inside fn i) :
    b'.scopes.Inside fn i := by
  induction hi with
  | function hs howner hfunction =>
    obtain ⟨s', hs', howner', -, hfunction'⟩ := h.scopes _ _ hs
    exact .function hs' (howner'.trans howner) (hfunction'.trans hfunction)
  | block hs howner hparent _ ih =>
    obtain ⟨s', hs', howner', hparent', -⟩ := h.scopes _ _ hs
    exact .block hs' (howner'.trans howner) (hparent'.trans hparent) ih

theorem scopeIn_of_inside {i : Nat} (h : b.scopes.Inside fn i) : b.ScopeIn fn i := by
  cases h with
  | function hs howner _ => exact ⟨_, hs, howner⟩
  | block hs howner _ _ => exact ⟨_, hs, howner⟩

def Climbs (b : Bindings) (fn : Nat) : List (Nat × Scope) → Prop
  | [] => True
  | (i, s) :: rest => b.ScopeIn fn i ∧ (∀ name d, s.lookup? name = some d → b.DeclIn fn d) ∧
    (s.isFunction = false → Climbs b fn rest)

theorem Climbs.declares {list : List (Nat × Scope)} (h : Climbs b fn list)
    (hdeclares : Declares e fn b b') : Climbs b' fn list := by
  induction list with
  | nil => trivial
  | cons p rest ih =>
    obtain ⟨hscope, hnames, hrest⟩ := h
    exact ⟨hdeclares.scopeIn hscope, fun name d hd => hdeclares.decls fn d (hnames name d hd),
      fun hs => ih (hrest hs)⟩

theorem mem_of_lookup {α : Type} {names : List (String × α)} {name : String} {a : α}
    (h : names.lookup name = some a) : (name, a) ∈ names := by
  induction names with
  | nil => cases h
  | cons p rest ih =>
    rw [List.lookup_cons] at h
    split at h
    . next heq =>
      cases h
      rw [eq_of_beq heq]
      exact List.mem_cons_self
    . exact List.mem_cons_of_mem _ (ih h)

theorem Stage.declIn_of_lookup (hb : Stage e fn b) {i : Nat} {s : Scope}
    (hs : b.scopes[i]? = some s)
    (howner : s.owner = fn) {name : String} {d : Nat} (hd : s.lookup? name = some d) :
    b.DeclIn fn d := by
  obtain ⟨decl, hdecl, ho⟩ := (hb.linked.scopes i s hs).2.2 name d (mem_of_lookup hd)
  exact ⟨decl, hdecl, ho.trans howner⟩

theorem Stage.climbs (hb : Stage e fn b) {i : Nat} (fuel : Nat) (hi : b.scopes.Inside fn i) :
    Climbs b fn (b.scopes.chainFrom fuel (some i)) := by
  induction hi generalizing fuel with
  | function hs howner hfunction =>
    cases fuel with
    | zero => trivial
    | succ fuel =>
      rw [Scopes.chainFrom, hs]
      refine ⟨⟨_, hs, howner⟩, fun name d => hb.declIn_of_lookup hs howner, ?_⟩
      intro hnot
      rw [hfunction] at hnot
      cases hnot
  | block hs howner hparent _ ih =>
    cases fuel with
    | zero => trivial
    | succ fuel =>
      rw [Scopes.chainFrom, hs]
      refine ⟨⟨_, hs, howner⟩, fun name d => hb.declIn_of_lookup hs howner, ?_⟩
      intro _
      rw [hparent]
      exact ih fuel

theorem Usable.noteCrossing {id i : Nat} {name : String} {u : Unit} (h : Usable e fn b id)
    (hrun : Ends (Resolve.modifyScope i (·.noteCrossing name)) b u b') : Usable e fn b' id := by
  cases ends_modify.1 hrun
  exact h

theorem Usable.modifyDecl {id d : Nat} {change : Declaration → Declaration} {u : Unit}
    (h : Usable e fn b id) (hchange : ∀ decl, (change decl).owner = decl.owner)
    (hrun : Ends (Resolve.modifyDecl d change) b u b') : Usable e fn b' id := by
  cases ends_modify.1 hrun
  rcases h with htree | ⟨hle, hlt, haliases, howner⟩
  . exact .inl htree
  . refine .inr ⟨hle, hlt, haliases, ?_⟩
    intro decl hdecl
    dsimp only at hdecl
    rw [Table.get?_modify] at hdecl
    split at hdecl
    . obtain ⟨decl', hdecl', rfl⟩ := Option.map_eq_some_iff.1 hdecl
      exact (hchange decl').trans (howner decl' hdecl')
    . exact howner decl hdecl

theorem Usable.addDecl {id : Node} {d : Declaration} {i : Nat} {change : Function → Function}
    {u : Unit} {c : Bindings} (h : Usable e fn b id.id) (howner : d.owner = fn)
    (hdecl : Ends (Resolve.addDecl id d) b u c)
    (hvars : Ends (Resolve.modifyFunction i change) c u b') : Usable e fn b' id.id := by
  unfold Resolve.addDecl at hdecl
  rw [ends_modify_bind] at hdecl
  cases ends_modify.1 hdecl
  cases ends_modify.1 hvars
  rcases h with htree | ⟨hle, hlt, haliases, -⟩
  . exact .inl htree
  . refine .inr ⟨hle, hlt, haliases, ?_⟩
    intro decl hget
    dsimp only at hget
    rw [Table.get?_insert_self] at hget
    cases hget
    exact howner

end Bindings

namespace Resolve

open Bindings

variable {e : Extraction} {fn : Nat} {b b' : Bindings} {id : Node} {kind : BindingKind} {stop : Int}
  {sc : Nat} {u : Unit}

theorem declares_newDecl (he : e.IsSplit) {d : Declaration} {change : Function → Function}
    {throughWith : Bool} (hb : Stage e fn b) (hid : Usable e fn b id.id) (howner : d.owner = fn)
    (hcaptured : d.isCaptured = false) (hscope : b.ScopeIn fn d.scope)
    (hchange : ∀ f, (change f).node = f.node ∧ (change f).words = f.words ∧
      (change f).frame = f.frame ∧ (change f).captures = f.captures)
    (h : Ends (do addDecl id d; modifyFunction fn change; bindTo id id.id throughWith) b u b') :
    Declares e fn b b' ∧ b'.BoundIn fn id.id := by
  obtain ⟨_, c, hdecl, h⟩ := ends_bind.1 h
  obtain ⟨_, c', hvars, h⟩ := ends_bind.1 h
  obtain ⟨hadded, hin⟩ := declares_addDecl he hb hid howner hcaptured hscope hdecl
  have hlisted := declares_modifyFunction hadded.stage hchange hvars
  obtain ⟨hbound, hin'⟩ := declares_bindTo he hlisted.stage (hid.addDecl howner hdecl hvars)
    (hlisted.decls _ _ hin) h
  exact ⟨hadded.trans (hlisted.trans hbound), hin'⟩

theorem declares_climb (he : e.IsSplit) {list : List (Nat × Scope)} {throughWith : Bool}
    (hb : Stage e fn b) (hid : Usable e fn b id.id) (hlist : Climbs b fn list)
    (h : Ends (addVar.climb fn id kind stop throughWith list) b u b') :
    Declares e fn b b' ∧ b'.BoundIn fn id.id := by
  induction list generalizing b throughWith with
  | nil =>
    rw [addVar.climb] at h
    exact absurd h not_ends_throw
  | cons p rest ih =>
    obtain ⟨i, s⟩ := p
    obtain ⟨hscope, hnames, hrest⟩ := hlist
    have hup : Ends (addVar.up fn id kind stop throughWith i s rest) b u b' →
        Declares e fn b b' ∧ b'.BoundIn fn id.id := by
      intro h
      rw [addVar.up] at h
      split at h
      . exact declares_newDecl he hb hid rfl rfl hscope (by intro f; exact ⟨rfl, rfl, rfl, rfl⟩) h
      . next hfunction =>
        obtain ⟨_, c, hcross, h⟩ := ends_bind.1 h
        have hcrossed := declares_noteCrossing hb hcross
        have hclimbs := (hrest (by simpa using hfunction)).declares hcrossed
        obtain ⟨hmore, hbound⟩ := ih hcrossed.stage (hid.noteCrossing hcross) hclimbs h
        exact ⟨hcrossed.trans hmore, hbound⟩
    rw [addVar.climb] at h
    split at h
    . next existing hexisting =>
      rw [ends_get_bind] at h
      dsimp only at h
      have hin := hnames _ existing hexisting
      split at h
      . split at h
        . obtain ⟨_, c, hkind, h⟩ := ends_bind.1 h
          have hchanged := declares_modifyDecl hb (by intro d; exact ⟨rfl, rfl⟩) hkind
          obtain ⟨hbound, hin'⟩ := declares_bindTo he hchanged.stage
            (hid.modifyDecl (by intro d; rfl) hkind) (hchanged.decls _ _ hin) h
          exact ⟨hchanged.trans hbound, hin'⟩
        . exact declares_bindTo he hb hid hin h
      . split at h
        . exact hup h
        . exact absurd h not_ends_throw
    . exact hup h

theorem declares_addVar (he : e.IsSplit) (hb : Stage e fn b) (hid : Usable e fn b id.id)
    (hsc : b.scopes.Inside fn sc) (h : Ends (addVar fn id sc kind stop) b u b') :
    Declares e fn b b' ∧ b'.BoundIn fn id.id := by
  unfold addVar at h
  rw [ends_get_bind] at h
  exact declares_climb he hb hid (hb.climbs _ hsc) h

theorem declares_addLexical (he : e.IsSplit) (hb : Stage e fn b) (hid : Usable e fn b id.id)
    (hsc : b.ScopeIn fn sc) (h : Ends (addLexical fn id sc kind stop) b u b') :
    Declares e fn b b' ∧ b'.BoundIn fn id.id := by
  obtain ⟨s, hs, howner⟩ := hsc
  have hadd : ∀ s, Ends (addLexical.add fn id sc kind stop s) b u b' →
      Declares e fn b b' ∧ b'.BoundIn fn id.id := by
    intro s' h
    unfold addLexical.add at h
    split at h
    . exact absurd h not_ends_throw_bind
    . exact declares_newDecl he hb hid rfl rfl ⟨s, hs, howner⟩
        (by intro f; exact ⟨rfl, rfl, rfl, rfl⟩) h
  unfold addLexical at h
  rw [ends_get_bind] at h
  dsimp only at h
  rw [Array.getD_eq_getD_getElem?, hs, Option.getD_some] at h
  split at h
  . next existing found hexisting =>
    obtain ⟨d, hd, hpair⟩ := Option.map_eq_some_iff.1 hexisting
    cases hpair
    split at h
    . exact hadd _ h
    . split at h
      . exact declares_bindTo he hb hid (hb.declIn_of_lookup hs howner hd) h
      . split at h <;> exact absurd h not_ends_throw
  . exact hadd _ h

theorem exists_parent_of_inside {i : Nat} {s : Scope} (h : b.scopes.Inside fn i)
    (hs : b.scopes[i]? = some s) (hfunction : s.isFunction = false) :
    ∀ p, s.parent = some p → b.scopes.Inside fn p := by
  intro p hp
  cases h with
  | function hs' _ hf =>
    rw [hs] at hs'
    cases hs'
    rw [hfunction] at hf
    cases hf
  | block hs' _ hp' hin =>
    rw [hs] at hs'
    cases hs'
    rw [hp] at hp'
    cases hp'
    exact hin

theorem declares_addFunction (he : e.IsSplit) (hb : Stage e fn b) {site : Node}
    (hid : site.part? .name = some id) (htree : e.InTree fn id.id) (hsite : e.InTree fn site.id)
    (hsc : b.scopes.Inside fn sc) (h : Ends (addFunction fn site sc) b u b') :
    Declares e fn b b' ∧ b'.BoundIn fn id.id := by
  unfold addFunction at h
  rw [hid, Option.getD_some] at h
  dsimp only at h
  obtain ⟨_, c, hset, h⟩ := ends_bind.1 h
  rw [ends_get_bind] at h
  have hscoped := declares_setScope hb htree (scopeIn_of_inside hsc) hset
  have hsc' := hscoped.inside hsc
  obtain ⟨s, hs, howner⟩ := scopeIn_of_inside hsc'
  rw [Array.getD_eq_getD_getElem?, hs, Option.getD_some] at h
  split at h
  . obtain ⟨hvar, hbound⟩ := declares_addVar he hscoped.stage (.inl htree) hsc' h
    exact ⟨hscoped.trans hvar, hbound⟩
  . next hfunction =>
    obtain ⟨_, c₁, hlexical, h⟩ := ends_bind.1 h
    obtain ⟨hadded, hbound⟩ := declares_addLexical he hscoped.stage (.inl htree)
      (scopeIn_of_inside hsc') hlexical
    have hsofar := hscoped.trans hadded
    rw [ends_get_bind] at h
    split at h
    . obtain ⟨-, rfl⟩ := ends_pure.1 h
      exact ⟨hsofar, hbound⟩
    . split at h
      . exact absurd h not_ends_throw
      . next outer hparent =>
        have houter := hadded.inside
          (exists_parent_of_inside hsc' hs (by simpa using hfunction) outer hparent)
        split at h
        . obtain ⟨-, rfl⟩ := ends_pure.1 h
          exact ⟨hsofar, hbound⟩
        . obtain ⟨number, c₂, hnumber, h⟩ := ends_bind.1 h
          obtain ⟨_, c₃, hvar, h⟩ := ends_bind.1 h
          obtain ⟨hfresh, hle, hlt, husable⟩ := declares_freshNode he hsofar.stage hnumber
          have hname : Usable e fn c₂ (Node.mk number id.span (.identifier id.name)
            []).id := husable
          obtain ⟨hmade, hin⟩ := declares_addVar he hfresh.stage hname (hfresh.inside houter) hvar
          have halias : Declares e fn c₃ b' := by
            refine declares_alias hmade.stage hsite ?_ ?_ hin h
            . exact hle
            . exact Nat.lt_of_lt_of_le hlt hmade.numbers
          refine ⟨hsofar.trans (hfresh.trans (hmade.trans halias)), ?_⟩
          exact halias.bound _ _ htree (hmade.bound _ _ htree (hfresh.bound _ _ htree hbound))

def Held (e : Extraction) (fn : Nat) (n : Node) : Prop :=
  ∀ m ∈ n.preorder, e.InTree fn m.id ∧ m.IsFormed ∧ m.IsLeft

theorem Held.self {n : Node} (h : Held e fn n) : e.InTree fn n.id ∧ n.IsFormed ∧ n.IsLeft :=
  h n Node.mem_preorder_self

theorem Held.below {n c : Node} (h : Held e fn n) (hc : Part.Holds n.parts c) : Held e fn c :=
  fun m hm => h m (Node.preorder_subset hc hm)

def Done (e : Extraction) (fn : Nat) (n : Node) (b : Bindings) : Prop :=
  ∀ m ∈ n.preorder, m.kind = .functionDeclaration ∨ m.kind = .classDeclaration →
    ∃ c, m.part? .name = some c ∧ e.InTree fn c.id ∧ b.BoundIn fn c.id

theorem Done.declares {n : Node} (h : Done e fn n b) (hdeclares : Declares e fn b b') :
    Done e fn n b' := by
  intro m hm hkind
  obtain ⟨c, hc, htree, hbound⟩ := h m hm hkind
  exact ⟨c, hc, htree, hdeclares.bound _ _ htree hbound⟩

theorem isStatement_of_holds {k : Kind} {r : Role} (h : k.holds r = true) :
    k.isStatement = true ∨ k.isFunction = true := by
  cases k <;> first | exact .inl rfl | exact .inr rfl | cases r <;> cases h

theorem Held.isStatement_below {n m : Node} (h : Held e fn n) (hn : n.kind.isStatement = false)
    (hm : m ∈ n.preorder) : m.kind.isStatement = false := by
  induction n using Node.below_induction with
  | h n ih =>
    rw [Node.preorder_eq, List.mem_cons] at hm
    rcases hm with rfl | hm
    . exact hn
    . obtain ⟨c, ⟨r, hc⟩, hmc⟩ := Part.exists_holds_of_mem_nodes hm
      refine ih c ⟨r, hc⟩ (h.below ⟨r, hc⟩) ?_ hmc
      obtain ⟨-, hformed, hleft⟩ := h.self
      cases hstatement : c.kind.isStatement with
      | false => rfl
      | true =>
        have hholds := hformed.statement r c hc hstatement
        rcases isStatement_of_holds hholds with hk | hk
        . rw [hn] at hk
          cases hk
        . rw [Extract.role_of_holds hk hholds] at hc
          cases hleft hk _ hc

theorem Held.done {n : Node} (h : Held e fn n)
    (hself : n.kind = .functionDeclaration ∨ n.kind = .classDeclaration →
      ∃ c, n.part? .name = some c ∧ e.InTree fn c.id ∧ b.BoundIn fn c.id)
    (hbelow : ∀ r c, .node r c ∈ n.parts → c.kind.isStatement = true → Done e fn c b) :
    Done e fn n b := by
  intro m hm hkind
  rw [Node.preorder_eq, List.mem_cons] at hm
  rcases hm with rfl | hm
  . exact hself hkind
  . obtain ⟨c, ⟨r, hc⟩, hmc⟩ := Part.exists_holds_of_mem_nodes hm
    cases hstatement : c.kind.isStatement with
    | true => exact hbelow r c hc hstatement m hmc hkind
    | false =>
      have hm := (h.below ⟨r, hc⟩).isStatement_below hstatement hmc
      rcases hkind with hkind | hkind <;> rw [hkind] at hm <;> cases hm

def Declarer (e : Extraction) (fn : Nat) (A : Node → Prop)
    (declare : Node → Nat → Nat → Resolve Unit) : Prop :=
  ∀ {n sc b u b'}, Stage e fn b → Held e fn n → b.scopes.Inside fn sc →
    Ends (declare n fn sc) b u b' → Declares e fn b b' ∧ (A n → Done e fn n b')

variable {declare : Node → Nat → Nat → Resolve Unit} {A : Node → Prop}

theorem declares_option (hdeclare : Declarer e fn A declare) (hb : Stage e fn b) {o : Option Node}
    (ho : ∀ n, o = some n → Held e fn n) (hsc : b.scopes.Inside fn sc)
    (h : Ends (declareOption declare fn sc o) b u b') :
    Declares e fn b b' ∧ ∀ n, o = some n → A n → Done e fn n b' := by
  cases o with
  | none =>
    obtain ⟨-, rfl⟩ := ends_pure.1 h
    exact ⟨.refl hb, fun n hn => by cases hn⟩
  | some n =>
    obtain ⟨hdeclares, hdone⟩ := hdeclare hb (ho n rfl) hsc h
    refine ⟨hdeclares, ?_⟩
    rintro _ ⟨⟩
    exact hdone

theorem declares_forIn {α : Type} {xs : List α} {f : α → PUnit → Resolve (ForInStep PUnit)}
    {P : α → Bindings → Prop} {r : PUnit}
    (hP : ∀ x b b', Declares e fn b b' → P x b → P x b')
    (hf : ∀ x ∈ xs, ∀ {b step b'}, Stage e fn b → b.scopes.Inside fn sc → Ends (f x ⟨⟩) b step b' →
      Declares e fn b b' ∧ P x b' ∧ step = .yield ⟨⟩)
    (hb : Stage e fn b) (hsc : b.scopes.Inside fn sc) (h : Ends (forIn xs ⟨⟩ f) b r b') :
    Declares e fn b b' ∧ ∀ x ∈ xs, P x b' := by
  induction xs generalizing b with
  | nil =>
    rw [List.forIn_nil] at h
    obtain ⟨-, rfl⟩ := ends_pure.1 h
    exact ⟨.refl hb, fun x hx => by cases hx⟩
  | cons x rest ih =>
    rw [List.forIn_cons] at h
    obtain ⟨step, c, hstep, h⟩ := ends_bind.1 h
    obtain ⟨hhead, hx, rfl⟩ := hf x List.mem_cons_self hb hsc hstep
    obtain ⟨htail, hrest⟩ := ih (fun y hy => hf y (List.mem_cons_of_mem _ hy)) hhead.stage
      (hhead.inside hsc) h
    refine ⟨hhead.trans htail, ?_⟩
    intro y hy
    rcases List.mem_cons.1 hy with rfl | hy
    . exact hP y _ _ htail hx
    . exact hrest y hy

theorem declares_nodes (hdeclare : Declarer e fn A declare) {xs : List Node} {r : PUnit}
    (hxs : ∀ c ∈ xs, Held e fn c) (hb : Stage e fn b) (hsc : b.scopes.Inside fn sc)
    (h : Ends (forIn xs ⟨⟩ fun c _ => do declare c fn sc; pure (ForInStep.yield ⟨⟩)) b r b') :
    Declares e fn b b' ∧ ∀ c ∈ xs, A c → Done e fn c b' := by
  refine declares_forIn (P := fun c b => A c → Done e fn c b) ?_ ?_ hb hsc h
  . intro c b b' hdeclares hdone hA
    exact (hdone hA).declares hdeclares
  . intro c hc b step b' hb hsc h
    obtain ⟨_, t, hrun, h⟩ := ends_bind.1 h
    obtain ⟨rfl, rfl⟩ := ends_pure.1 h
    obtain ⟨hdeclares, hdone⟩ := hdeclare hb (hxs c hc) hsc hrun
    exact ⟨hdeclares, hdone, rfl⟩

theorem inTree_of_part {n c : Node} {r : Role} (h : Held e fn n) (hc : n.part? r = some c) :
    Held e fn c :=
  h.below (Node.holds_of_part? hc)

theorem declares_addClass (he : e.IsSplit) (hdeclare : Declarer e fn A declare) (hb : Stage e fn b)
    {site : Node} (hsite : Held e fn site) (hsc : b.scopes.Inside fn sc)
    (h : Ends (addClass declare fn site sc) b u b') :
    Declares e fn b b' ∧ (site.kind = .classDeclaration →
      ∃ c, site.part? .name = some c ∧ e.InTree fn c.id ∧ b'.BoundIn fn c.id) := by
  unfold addClass at h
  extract_lets rest at h
  have hrest : ∀ inner c, Stage e fn c → c.scopes.Inside fn inner → Ends (rest inner) c u b' →
      Declares e fn c b' := by
    intro inner c hc hinner h
    dsimp only [rest] at h
    obtain ⟨_, c₁, hset, h⟩ := ends_bind.1 h
    have hscoped := declares_setScope hc hsite.self.1 (scopeIn_of_inside hinner) hset
    obtain ⟨_, c₂, hheritage, h⟩ := ends_bind.1 h
    obtain ⟨hvisited, -⟩ := declares_option hdeclare hscoped.stage
      (fun n hn => inTree_of_part hsite hn) (hscoped.inside hinner) hheritage
    have hsofar := hscoped.trans hvisited
    split at h
    . next body hbody =>
      have hbodyHeld := inTree_of_part hsite hbody
      obtain ⟨_, c₃, hset, h⟩ := ends_bind.1 h
      have hscoped' := declares_setScope hsofar.stage hbodyHeld.self.1
        (scopeIn_of_inside (hsofar.inside hinner)) hset
      have hsofar := hsofar.trans hscoped'
      obtain ⟨_, c₄, hloop, h⟩ := ends_bind.1 h
      obtain ⟨-, rfl⟩ := ends_pure.1 h
      refine hsofar.trans (declares_forIn (P := fun _ _ => True) (fun _ _ _ _ => id) ?_
        hsofar.stage (hsofar.inside hinner) hloop).1
      intro m hm b step b' hb hin h
      have hheld := hbodyHeld.below (Node.holds_of_mem_items hm)
      obtain ⟨_, d₁, hset, h⟩ := ends_bind.1 h
      have hscoped := declares_setScope hb hheld.self.1 (scopeIn_of_inside hin) hset
      obtain ⟨_, d₂, hkey, h⟩ := ends_bind.1 h
      obtain ⟨hvisited, -⟩ := declares_option hdeclare hscoped.stage
        (fun n hn => inTree_of_part hheld hn) (hscoped.inside hin) hkey
      have hsofar := hscoped.trans hvisited
      split at h
      . next value hvalue =>
        obtain ⟨_, d₃, hset, h⟩ := ends_bind.1 h
        obtain ⟨rfl, rfl⟩ := ends_pure.1 h
        have hlast := declares_setScope hsofar.stage (inTree_of_part hheld hvalue).self.1
          (scopeIn_of_inside (hsofar.inside hin)) hset
        exact ⟨hsofar.trans hlast, trivial, rfl⟩
      . obtain ⟨rfl, rfl⟩ := ends_pure.1 h
        exact ⟨hsofar, trivial, rfl⟩
    . obtain ⟨-, rfl⟩ := ends_pure.1 h
      exact hsofar
  split at h
  . next hdecl =>
    have hkind : site.kind = .classDeclaration := by simpa using hdecl
    obtain ⟨id, hid⟩ := Option.isSome_iff_exists.1 (hsite.self.2.1.named (.inr hkind))
    rw [hid, Option.getD_some] at h
    obtain ⟨_, c, hset, h⟩ := ends_bind.1 h
    have htree := (inTree_of_part hsite hid).self.1
    have hscoped := declares_setScope hb htree (scopeIn_of_inside hsc) hset
    obtain ⟨_, c₁, hlexical, h⟩ := ends_bind.1 h
    obtain ⟨hadded, hbound⟩ := declares_addLexical he hscoped.stage (.inl htree)
      (scopeIn_of_inside (hscoped.inside hsc)) hlexical
    have hsofar := hscoped.trans hadded
    rw [pure_bind] at h
    have hmore := hrest _ _ hsofar.stage (hsofar.inside hsc) h
    exact ⟨hsofar.trans hmore, fun _ => ⟨id, hid, htree, hmore.bound _ _ htree hbound⟩⟩
  . next id hdecl hid =>
    obtain ⟨inner, c, hopen, h⟩ := ends_bind.1 h
    obtain ⟨s, hs, howner⟩ := scopeIn_of_inside hsc
    obtain ⟨hopened, hinner⟩ := declares_openScope hb rfl rfl
      (by rintro p ⟨⟩; exact ⟨s, hs, .inl howner⟩) hopen
    have hin : c.scopes.Inside fn inner := .block hinner rfl rfl (hopened.inside hsc)
    obtain ⟨_, c₁, hset, h⟩ := ends_bind.1 h
    have htree := (inTree_of_part hsite hid).self.1
    have hscoped := declares_setScope hopened.stage htree (scopeIn_of_inside hin) hset
    obtain ⟨_, c₂, hlexical, h⟩ := ends_bind.1 h
    obtain ⟨hadded, -⟩ := declares_addLexical he hscoped.stage (.inl htree)
      (scopeIn_of_inside (hscoped.inside hin)) hlexical
    rw [pure_bind] at h
    have hsofar := hscoped.trans hadded
    refine ⟨hopened.trans (hsofar.trans (hrest _ _ hsofar.stage (hsofar.inside hin) h)), ?_⟩
    intro hkind
    simp [hkind] at hdecl
  . next hdecl hid =>
    rw [pure_bind] at h
    refine ⟨hrest _ _ hb hsc h, ?_⟩
    intro hkind
    simp [hkind] at hdecl

theorem declares_openInside (hb : Stage e fn b) {inner i : Nat} {isWith : Bool}
    (hsc : b.scopes.Inside fn sc)
    (h : Ends (openScope { parent := some sc, opener := some i, owner := fn, isWith }) b inner b') :
    Declares e fn b b' ∧ b'.scopes.Inside fn inner := by
  obtain ⟨s, hs, howner⟩ := scopeIn_of_inside hsc
  obtain ⟨hopened, hinner⟩ := declares_openScope hb rfl rfl
    (by rintro p ⟨⟩; exact ⟨s, hs, .inl howner⟩) h
  exact ⟨hopened, .block hinner rfl rfl (hopened.inside hsc)⟩

theorem declares_enter {α : Type} {k : Nat → Resolve α} {n : Node} {i : Nat} {a : α}
    (hb : Stage e fn b) (hn : Held e fn n) (hsc : b.scopes.Inside fn sc)
    (h : Ends (do
      let inner ← openScope { parent := some sc, opener := some i, owner := fn }
      setScope n inner
      k inner) b a b') :
    ∃ inner c, Declares e fn b c ∧ c.scopes.Inside fn inner ∧ Ends (k inner) c a b' := by
  obtain ⟨inner, c₁, hopen, h⟩ := ends_bind.1 h
  obtain ⟨hopened, hin⟩ := declares_openInside hb hsc hopen
  obtain ⟨_, c₂, hset, h⟩ := ends_bind.1 h
  have hscoped := declares_setScope hopened.stage hn.self.1 (scopeIn_of_inside hin) hset
  exact ⟨inner, c₂, hopened.trans hscoped, hscoped.inside hin, h⟩

theorem Held.doneItems {n : Node} (hn : Held e fn n)
    (hkind : n.kind = .block ∨ n.kind = .switchStatement)
    (h : ∀ c, .node .item c ∈ n.parts → Done e fn c b) : Done e fn n b := by
  refine hn.done (by rcases hkind with hk | hk <;> simp [hk]) fun r c hc hstatement => ?_
  have hholds := hn.self.2.1.statement r c hc hstatement
  obtain rfl : r = .item := by
    rcases hkind with hk | hk <;> rw [hk] at hholds <;> cases r <;> first | rfl | cases hholds
  exact h c hc

theorem declares_bound (he : e.IsSplit) {ids : List Node} {r : PUnit} (hb : Stage e fn b)
    (hsc : b.scopes.Inside fn sc) (hids : ∀ id ∈ ids, e.InTree fn id.id)
    (h : Ends (forIn ids ⟨⟩ fun id _ => do
      addLexical fn id sc kind stop
      pure (ForInStep.yield ⟨⟩)) b r b') : Declares e fn b b' := by
  refine (declares_forIn (P := fun _ _ => True) (fun _ _ _ _ => fun h => h) ?_ hb hsc h).1
  intro id hid b step b' hb hsc h
  obtain ⟨_, t, hrun, h⟩ := ends_bind.1 h
  obtain ⟨rfl, rfl⟩ := ends_pure.1 h
  obtain ⟨hadded, -⟩ := declares_addLexical he hb (.inl (hids id hid)) (scopeIn_of_inside hsc) hrun
  exact ⟨hadded, trivial, rfl⟩

theorem declares_children (hdeclare : Declarer e fn A declare) {n : Node} {r : PUnit}
    (hn : Held e fn n) (hb : Stage e fn b) (hsc : b.scopes.Inside fn sc)
    (h : Ends (forIn n.children ⟨⟩ fun x _ => do declare x.2 fn sc; pure (ForInStep.yield ⟨⟩)) b r
      b') :
    Declares e fn b b' ∧ ∀ r c, .node r c ∈ n.parts → A c → Done e fn c b' := by
  have hmem : ∀ x ∈ n.children, .node x.1 x.2 ∈ n.parts := by
    intro x hx
    obtain ⟨p, hp, hpx⟩ := List.mem_filterMap.1 hx
    cases p with
    | hole r => cases hpx
    | node r c =>
      cases hpx
      exact hp
  obtain ⟨hdeclares, hdone⟩ := declares_forIn (P := fun x b => A x.2 → Done e fn x.2 b)
    (by
      intro x b b' hdeclares hdone hA
      exact (hdone hA).declares hdeclares) (by
      intro x hx b step b' hb hsc h
      obtain ⟨_, t, hrun, h⟩ := ends_bind.1 h
      obtain ⟨rfl, rfl⟩ := ends_pure.1 h
      obtain ⟨hdeclares, hdone⟩ := hdeclare hb (hn.below ⟨_, hmem x hx⟩) hsc hrun
      exact ⟨hdeclares, hdone, rfl⟩) hb hsc h
  refine ⟨hdeclares, ?_⟩
  intro r c hc hA
  exact hdone (r, c) (List.mem_filterMap.2 ⟨_, hc, rfl⟩) hA

theorem of_part {n c : Node} {r : Role} (hA : ∀ m ∈ Part.nodes n.parts, A m)
    (hc : .node r c ∈ n.parts) : A c :=
  hA _ (Part.mem_nodes_of_holds ⟨_, hc⟩ Node.mem_preorder_self)

theorem declares_scopedItems (hdeclare : Declarer e fn A declare) {n : Node} {i : Nat}
    (hkind : n.kind = .block ∨ n.kind = .switchStatement) (hn : Held e fn n) (hb : Stage e fn b)
    (hsc : b.scopes.Inside fn sc)
    (h : Ends (do
      let inner ← openScope { parent := some sc, opener := some i, owner := fn }
      setScope n inner
      for c in n.items do declare c fn inner) b u b') :
    Declares e fn b b' ∧ ((∀ m ∈ Part.nodes n.parts, A m) → Done e fn n b') := by
  obtain ⟨inner, c₁, hopened, hin, h⟩ := declares_enter hb hn hsc h
  obtain ⟨_, c₃, hloop, h⟩ := ends_bind.1 h
  obtain ⟨-, rfl⟩ := ends_pure.1 h
  obtain ⟨hlist, hdone⟩ := declares_nodes hdeclare
    (fun c hc => hn.below (Node.holds_of_mem_items hc)) hopened.stage hin hloop
  refine ⟨hopened.trans hlist, fun hA => hn.doneItems hkind fun c hc => ?_⟩
  exact hdone c (Node.mem_items_of_part hc) (of_part hA hc)

theorem Held.part?_body {n c : Node} {r : Role} (hn : Held e fn n)
    (hkind : n.kind = .catchClause ∨ n.kind = .withStatement) (hc : .node r c ∈ n.parts)
    (hstatement : c.kind.isStatement = true) : r = .body ∧ n.part? .body = some c := by
  have hholds := hn.self.2.1.statement r c hc hstatement
  obtain rfl : r = .body := by
    rcases hkind with hk | hk <;> rw [hk] at hholds <;> cases r <;> first | rfl | cases hholds
  exact ⟨rfl, Node.part?_of_single (hn.self.2.1.single hkind) hc⟩

theorem declares_catchBody (hdeclare : Declarer e fn A declare) {n body : Node}
    (hkind : n.kind = .catchClause) (hn : Held e fn n) (hbody : n.part? .body = some body)
    (hb : Stage e fn b) (hsc : b.scopes.Inside fn sc)
    (h : Ends (do
      setScope body sc
      for c in body.items do declare c fn sc) b u b') :
    Declares e fn b b' ∧ ((∀ m ∈ Part.nodes n.parts, A m) → Done e fn n b') := by
  have hheld := inTree_of_part hn hbody
  obtain ⟨_, d₁, hset, h⟩ := ends_bind.1 h
  have hscoped := declares_setScope hb hheld.self.1 (scopeIn_of_inside hsc) hset
  obtain ⟨_, d₂, hloop, h⟩ := ends_bind.1 h
  obtain ⟨-, rfl⟩ := ends_pure.1 h
  obtain ⟨hlist, hdone⟩ := declares_nodes hdeclare
    (fun c hc => hheld.below (Node.holds_of_mem_items hc)) hscoped.stage (hscoped.inside hsc) hloop
  refine ⟨hscoped.trans hlist, fun hA => hn.done (by simp [hkind]) ?_⟩
  intro r c hc hstatement
  obtain ⟨rfl, hpart⟩ := hn.part?_body (.inl hkind) hc hstatement
  obtain rfl : body = c := Option.some.inj (hbody.symm.trans hpart)
  refine hheld.doneItems (.inl (hn.self.2.1.caught hkind body hc)) fun c' hc' => ?_
  refine hdone c' (Node.mem_items_of_part hc') (hA c' ?_)
  exact Part.mem_nodes_of_holds ⟨_, hc⟩ (Node.preorder_subset ⟨_, hc'⟩ Node.mem_preorder_self)

theorem declares_names (he : e.IsSplit) {ids : List Node} {r : PUnit} (hb : Stage e fn b)
    (hsc : b.scopes.Inside fn sc) (hids : ∀ id ∈ ids, e.InTree fn id.id)
    (h : Ends (forIn ids ⟨⟩ fun id _ =>
      if kind == .var then do
        addVar fn id sc .var stop
        pure (ForInStep.yield ⟨⟩)
      else do
        addLexical fn id sc kind stop
        pure (ForInStep.yield ⟨⟩)) b r b') : Declares e fn b b' := by
  refine (declares_forIn (P := fun _ _ => True) (fun _ _ _ _ => fun h => h) ?_ hb hsc h).1
  intro id hid b step b' hb hsc h
  have htree := hids id hid
  split at h
  . obtain ⟨_, t, hrun, h⟩ := ends_bind.1 h
    obtain ⟨rfl, rfl⟩ := ends_pure.1 h
    exact ⟨(declares_addVar he hb (.inl htree) hsc hrun).1, trivial, rfl⟩
  . obtain ⟨_, t, hrun, h⟩ := ends_bind.1 h
    obtain ⟨rfl, rfl⟩ := ends_pure.1 h
    exact ⟨(declares_addLexical he hb (.inl htree) (scopeIn_of_inside hsc) hrun).1, trivial, rfl⟩

theorem declares_declarator (he : e.IsSplit) (hdeclare : Declarer e fn A declare) {d : Node}
    {step : ForInStep PUnit} (hb : Stage e fn b) (hd : Held e fn d) (hsc : b.scopes.Inside fn sc)
    (h : Ends (do
      setScope d sc
      declareOption declare fn sc (d.part? .name)
      for id in ((d.part? .name).map (·.bound)).getD [] do
        if kind == .var then addVar fn id sc .var d.stop
        else addLexical fn id sc kind d.stop
      declareOption declare fn sc (d.part? .init)
      pure (ForInStep.yield ⟨⟩)) b step b') :
    Declares e fn b b' ∧ step = .yield ⟨⟩ := by
  obtain ⟨_, d₁, hset, h⟩ := ends_bind.1 h
  have hscoped := declares_setScope hb hd.self.1 (scopeIn_of_inside hsc) hset
  obtain ⟨_, d₂, hname, h⟩ := ends_bind.1 h
  obtain ⟨hvisited, -⟩ := declares_option hdeclare hscoped.stage
    (fun c hc => inTree_of_part hd hc) (hscoped.inside hsc) hname
  have hsofar := hscoped.trans hvisited
  obtain ⟨_, d₃, hbound, h⟩ := ends_bind.1 h
  have htree : ∀ id ∈ ((d.part? .name).map (·.bound)).getD [], e.InTree fn id.id := by
    intro id hid
    cases hpart : d.part? .name with
    | none =>
      rw [hpart] at hid
      cases hid
    | some name =>
      rw [hpart, Option.map_some, Option.getD_some] at hid
      exact (inTree_of_part hd hpart id (Node.bound_subset _ hid)).1
  have hnamed := hsofar.trans (declares_names he hsofar.stage (hsofar.inside hsc) htree hbound)
  obtain ⟨_, d₄, hinit, h⟩ := ends_bind.1 h
  obtain ⟨rfl, rfl⟩ := ends_pure.1 h
  obtain ⟨hlast, -⟩ := declares_option hdeclare hnamed.stage
    (fun c hc => inTree_of_part hd hc) (hnamed.inside hsc) hinit
  exact ⟨hnamed.trans hlast, rfl⟩

theorem declarer_step (he : e.IsSplit) (hdeclare : Declarer e fn A declare) :
    Declarer e fn (fun n => ∀ m ∈ Part.nodes n.parts, A m) (declareStep declare) := by
  intro n sc b u b' hb hn hsc h
  unfold declareStep at h
  obtain ⟨_, c, hset, h⟩ := ends_bind.1 h
  have hscoped := declares_setScope hb hn.self.1 (scopeIn_of_inside hsc) hset
  have hsc := hscoped.inside hsc
  suffices hgoal : Declares e fn c b' ∧ ((∀ m ∈ Part.nodes n.parts, A m) → Done e fn n b') from
    ⟨hscoped.trans hgoal.1, hgoal.2⟩
  have hc := hscoped.stage
  clear hset hscoped hb
  split at h
  case h_1 hlabel =>
    exact declares_scopedItems hdeclare (by simp [Node.kind, hlabel, Label.kind]) hn hc hsc h
  case h_2 hlabel | h_3 hlabel | h_4 hlabel =>
    have hself : n.kind ≠ .functionDeclaration ∧ n.kind ≠ .classDeclaration := by
      simp [Node.kind, hlabel, Label.kind]
    dsimp only at h
    generalize Option.any _ _ = isLexical at h
    cases isLexical with
    | true =>
      simp only [if_true] at h
      obtain ⟨inner, c₁, hopened, hin, h⟩ := declares_enter hc hn hsc h
      obtain ⟨_, c₃, hloop, h⟩ := ends_bind.1 h
      obtain ⟨-, rfl⟩ := ends_pure.1 h
      obtain ⟨hlist, hdone⟩ := declares_children hdeclare hn hopened.stage hin hloop
      refine ⟨hopened.trans hlist, fun hA => hn.done ?_ ?_⟩
      . simp [hself]
      . exact fun r c hc _ => hdone r c hc (of_part hA hc)
    | false =>
      simp only [Bool.false_eq_true, if_false, pure_bind] at h
      obtain ⟨_, c₃, hloop, h⟩ := ends_bind.1 h
      obtain ⟨-, rfl⟩ := ends_pure.1 h
      obtain ⟨hlist, hdone⟩ := declares_children hdeclare hn hc hsc hloop
      refine ⟨hlist, fun hA => hn.done ?_ ?_⟩
      . simp [hself]
      . exact fun r c hc _ => hdone r c hc (of_part hA hc)
  case h_5 hlabel =>
    obtain ⟨_, c₁, hdisc, h⟩ := ends_bind.1 h
    obtain ⟨hvisited, -⟩ := declares_option hdeclare hc (fun c hc => inTree_of_part hn hc) hsc hdisc
    obtain ⟨hitems, hdone⟩ := declares_scopedItems hdeclare
      (by simp [Node.kind, hlabel, Label.kind]) hn hvisited.stage (hvisited.inside hsc) h
    exact ⟨hvisited.trans hitems, hdone⟩
  case h_6 hlabel =>
    have hkind : n.kind = .catchClause := by
      rw [Node.kind, hlabel]
      rfl
    obtain ⟨inner, c₁, hsofar, hin, h⟩ := declares_enter hc hn hsc h
    extract_lets rest at h
    have hrest : ∀ {d}, Declares e fn c d → d.scopes.Inside fn inner → Ends (rest ()) d u b' →
        Declares e fn c b' ∧ ((∀ m ∈ Part.nodes n.parts, A m) → Done e fn n b') := by
      intro d hsofar hin h
      dsimp only [rest] at h
      split at h
      . next body hbody =>
        obtain ⟨hlist, hdone⟩ := declares_catchBody hdeclare hkind hn hbody hsofar.stage hin h
        exact ⟨hsofar.trans hlist, hdone⟩
      . next hbody =>
        obtain ⟨-, rfl⟩ := ends_pure.1 h
        refine ⟨hsofar, fun hA => hn.done (by simp [hkind]) ?_⟩
        intro r c hc hstatement
        exact absurd (hn.part?_body (.inl hkind) hc hstatement).2 (hbody c)
    split at h
    . next param hparam =>
      have hheld := inTree_of_part hn hparam
      obtain ⟨_, c₃, hdeclared, h⟩ := ends_bind.1 h
      obtain ⟨hvisited, -⟩ := hdeclare hsofar.stage hheld hin hdeclared
      obtain ⟨_, c₄, hloop, h⟩ := ends_bind.1 h
      have hnames := declares_bound he (hvisited.stage) (hvisited.inside hin) (by
        intro id hid
        exact (hheld id (Node.bound_subset _ hid)).1) hloop
      refine hrest (hsofar.trans (hvisited.trans hnames)) ((hvisited.trans hnames).inside hin) h
    . exact hrest hsofar hin h
  case h_7 hlabel =>
    have hkind : n.kind = .withStatement := by
      rw [Node.kind, hlabel]
      rfl
    obtain ⟨_, c₁, hobject, h⟩ := ends_bind.1 h
    obtain ⟨hvisited, -⟩ := declares_option hdeclare hc (fun c hc => inTree_of_part hn hc) hsc
      hobject
    obtain ⟨inner, c₂, hopen, h⟩ := ends_bind.1 h
    obtain ⟨hopened, hin⟩ := declares_openInside hvisited.stage (hvisited.inside hsc) hopen
    obtain ⟨hbody, hdone⟩ := declares_option hdeclare hopened.stage
      (fun c hc => inTree_of_part hn hc) hin h
    refine ⟨hvisited.trans (hopened.trans hbody), fun hA => hn.done (by simp [hkind]) ?_⟩
    intro r c hc hstatement
    exact hdone c (hn.part?_body (.inr hkind) hc hstatement).2 (of_part hA hc)
  case h_8 binds hlabel =>
    have hkind : n.kind = .variableDeclaration := by
      rw [Node.kind, hlabel]
      rfl
    obtain ⟨_, c₁, hloop, h⟩ := ends_bind.1 h
    obtain ⟨-, rfl⟩ := ends_pure.1 h
    refine ⟨?_, fun _ => hn.done (by simp [hkind]) ?_⟩
    . refine (declares_forIn (P := fun _ _ => True) (fun _ _ _ _ => fun h => h) ?_ hc hsc hloop).1
      intro d hd b step b' hb hsc h
      obtain ⟨hdeclares, hstep⟩ := declares_declarator he hdeclare hb
        (hn.below (Node.holds_of_mem_items hd)) hsc h
      exact ⟨hdeclares, trivial, hstep⟩
    . intro r c hc hstatement
      have hholds := hn.self.2.1.statement r c hc hstatement
      rw [hkind] at hholds
      cases r <;> cases hholds
  case h_9 marks hlabel =>
    have hkind : n.kind = .functionDeclaration := by
      rw [Node.kind, hlabel]
      rfl
    obtain ⟨id, hid⟩ := Option.isSome_iff_exists.1 (hn.self.2.1.named (.inl hkind))
    have htree := (inTree_of_part hn hid).self.1
    obtain ⟨hadded, hbound⟩ := declares_addFunction he hc hid htree hn.self.1 hsc h
    refine ⟨hadded, fun _ => hn.done (fun _ => ⟨id, hid, htree, hbound⟩) ?_⟩
    intro r c hc hstatement
    have hholds := hn.self.2.1.statement r c hc hstatement
    rw [hkind] at hholds
    obtain rfl : r = .body := by cases r <;> first | rfl | cases hholds
    cases hn.self.2.2 (by rw [hkind]; rfl) _ hc
  case h_10 hlabel | h_11 hlabel =>
    obtain ⟨hadded, hbound⟩ := declares_addClass he hdeclare hc hn hsc h
    refine ⟨hadded, fun _ => hn.done ?_ ?_⟩
    . rintro (hkind | hkind)
      . simp [Node.kind, hlabel, Label.kind] at hkind
      . exact hbound hkind
    . intro r c hc hstatement
      have hholds := hn.self.2.1.statement r c hc hstatement
      rw [Node.kind, hlabel] at hholds
      cases r <;> cases hholds
  case h_12 hblock hfor hforIn hforOf hswitch hcatch hwith hvar hfunction hclass hclass' =>
    obtain ⟨_, c₁, hloop, h⟩ := ends_bind.1 h
    obtain ⟨-, rfl⟩ := ends_pure.1 h
    obtain ⟨hlist, hdone⟩ := declares_children hdeclare hn hc hsc hloop
    refine ⟨hlist, fun hA => hn.done ?_ fun r c hc _ => hdone r c hc (of_part hA hc)⟩
    rintro (hkind | hkind)
    . cases hl : n.label <;> rw [Node.kind, hl] at hkind <;>
        first | exact absurd hl (hfunction _) | cases hkind
    . cases hl : n.label <;> rw [Node.kind, hl] at hkind <;>
        first | exact absurd hl hclass | cases hkind

theorem declarer_declare (he : e.IsSplit) : Declarer e fn (fun _ => True) Resolve.declare := by
  have hunroll : ∀ depth, Declarer e fn (fun n => n.height ≤ depth)
      (Node.unroll declareStep (fun _ _ _ => pure ()) depth) := by
    intro depth
    induction depth with
    | zero =>
      intro n sc b u b' hb hn hsc h
      obtain ⟨-, rfl⟩ := ends_pure.1 h
      refine ⟨.refl hb, fun hheight => ?_⟩
      cases n
      cases hheight
    | succ depth ih =>
      intro n sc b u b' hb hn hsc h
      obtain ⟨hdeclares, hdone⟩ := declarer_step he ih hb hn hsc h
      refine ⟨hdeclares, fun hheight => hdone fun m hm => ?_⟩
      obtain ⟨c, hc, hmc⟩ := Part.exists_holds_of_mem_nodes hm
      have hlt := Node.height_lt hc
      have hle := Node.height_le_of_mem_preorder hmc
      omega
  intro n sc b u b' hb hn hsc h
  obtain ⟨hdeclares, hdone⟩ := hunroll n.height hb hn hsc h
  exact ⟨hdeclares, fun _ => hdone (Nat.le_refl _)⟩

theorem declares_addParam (he : e.IsSplit) {strict : Bool} {ids : List Node} {seen r : List String}
    (hb : Stage e fn b) (hsc : b.ScopeIn fn sc) (hids : ∀ id ∈ ids, e.InTree fn id.id)
    (h : Ends (addParam fn sc strict stop ids seen) b r b') : Declares e fn b b' := by
  induction ids generalizing b seen with
  | nil =>
    obtain ⟨-, rfl⟩ := ends_pure.1 h
    exact .refl hb
  | cons id rest ih =>
    rw [List.forall_mem_cons] at hids
    rw [addParam] at h
    dsimp only at h
    split at h
    . exact absurd h not_ends_throw_bind
    . obtain ⟨_, c, hdecl, h⟩ := ends_bind.1 h
      obtain ⟨hadded, hin⟩ := declares_addDecl he hb (.inl hids.1) rfl rfl hsc hdecl
      obtain ⟨_, c', hbind, h⟩ := ends_bind.1 h
      obtain ⟨hbound, -⟩ := declares_bindTo he hadded.stage (.inl hids.1) hin hbind
      have hsofar := hadded.trans hbound
      exact hsofar.trans (ih hsofar.stage (hsofar.scopeIn hsc) hids.2 h)

theorem declares_params (he : e.IsSplit) {strict : Bool} {params : List Node} {seen : List String}
    (hb : Stage e fn b) (hsc : b.scopes.Inside fn sc) (hparams : ∀ p ∈ params, Held e fn p)
    (h : Ends (declareParams fn sc strict params seen) b u b') : Declares e fn b b' := by
  induction params generalizing b seen with
  | nil =>
    obtain ⟨-, rfl⟩ := ends_pure.1 h
    exact .refl hb
  | cons p rest ih =>
    rw [List.forall_mem_cons] at hparams
    rw [declareParams] at h
    obtain ⟨_, c, hdeclare, h⟩ := ends_bind.1 h
    obtain ⟨hvisited, -⟩ := declarer_declare he hb hparams.1 hsc hdeclare
    obtain ⟨seen', c', hids, h⟩ := ends_bind.1 h
    have hnames := declares_addParam he hvisited.stage (hvisited.scopeIn (scopeIn_of_inside hsc))
      (fun id hid => (hparams.1 id (Node.bound_subset _ hid)).1) hids
    have hsofar := hvisited.trans hnames
    exact hsofar.trans (ih hsofar.stage (hsofar.inside hsc) hparams.2 h)

end Resolve

namespace Bindings

variable {e : Extraction} {fn : Nat} {b b' : Bindings} {g : Function}

def HasWords (b : Bindings) (fn : Nat) : Prop :=
  ∃ this target value, (b.function fn).words = ((b.function fn).lineage, some this,
    some target, some value) ∧
    b.DeclIn fn this ∧ b.DeclIn fn target ∧ b.DeclIn fn value

structure Prepares (e : Extraction) (fn : Nat) (g : Function) (b b' : Bindings) : Prop where
  stage : Stage e fn b'
  nodes : b'.functions.map (·.node) = b.functions.map (·.node)
  words : ∀ i, i ≠ fn → (b'.function i).words = (b.function i).words
  captures : ∀ i, (b'.function i).captures = (b.function i).captures
  own : g.isArrow = false → b'.HasWords fn
  bound : ∀ f id, e.InTree f id → b.BoundIn f id → b'.BoundIn f id
  decls : ∀ f d, b.DeclIn f d → b'.DeclIn f d

theorem Declares.node_eq (h : Declares e fn b b') :
    b'.functions.map (·.node) = b.functions.map (·.node) := by
  have hmap := congrArg (Array.map Prod.fst) h.functions
  simp only [Array.map_map] at hmap
  exact hmap

theorem Declares.words_eq (h : Declares e fn b b') (i : Nat) :
    (b'.function i).words = (b.function i).words :=
  congrArg (fun p => p.2.1) (map_function h.functions i)

theorem Declares.captures_eq (h : Declares e fn b b') (i : Nat) :
    (b'.function i).captures = (b.function i).captures :=
  congrArg (fun p => p.2.2) (map_function h.functions i)

theorem Prepares.trans {c : Bindings} (h : Prepares e fn g b c) (h' : Declares e fn c b') :
    Prepares e fn g b b' where
  stage := h'.stage
  nodes := h'.node_eq.trans h.nodes
  words i hi := (h'.words_eq i).trans (h.words i hi)
  captures i := (h'.captures_eq i).trans (h.captures i)
  own harrow := by
    obtain ⟨this, target, value, hwords, hthis, htarget, hvalue⟩ := h.own harrow
    have hsame := h'.words_eq fn
    refine ⟨this, target, value, ?_, h'.decls _ _ hthis, h'.decls _ _ htarget, h'.decls _ _ hvalue⟩
    have hlineage : (b'.function fn).lineage = (c.function fn).lineage := congrArg Prod.fst hsame
    rw [hsame, hlineage, hwords]
  bound f id htree hid := h'.bound f id htree (h.bound f id htree hid)
  decls f d hd := h'.decls f d (h.decls f d hd)

theorem Declares.prepares (h : Declares e fn b b') (hg : g.isArrow = true) :
    Prepares e fn g b b' where
  stage := h.stage
  nodes := h.node_eq
  words i _ := h.words_eq i
  captures := h.captures_eq
  own hnot := by
    rw [hg] at hnot
    cases hnot
  bound := h.bound
  decls := h.decls

theorem Linked.frame_function {k : Nat} (h : Linked e k b) (hg : e.functions[fn]? = some g) :
    (b.function fn).frame = g.frame ∧ fn < b.functions.size := by
  have hframe := congrArg (·[fn]?) h.functions
  simp only [Array.getElem?_map, hg, Option.map_some] at hframe
  obtain ⟨f, hf, hfg⟩ := Option.map_eq_some_iff.1 hframe
  obtain ⟨hlt, -⟩ := Array.getElem?_eq_some_iff.1 hf
  refine ⟨?_, hlt⟩
  unfold function
  rw [Array.getD_eq_getD_getElem?, hf]
  exact hfg

theorem Linked.stage (h : Linked e fn b) (hblank : (b.function fn).IsBlank) : Stage e fn b := by
  refine ⟨{ h with scopes := ?_, decls := ?_ }, ?_, hblank.2.2⟩
  . intro j s hs
    obtain ⟨hlt, hrest⟩ := h.scopes j s hs
    exact ⟨by omega, hrest⟩
  . intro d decl hd
    obtain ⟨hlt, hrest⟩ := h.decls d decl hd
    exact ⟨by omega, hrest⟩
  . intro d decl hd howner
    have := (h.decls d decl hd).1
    omega

theorem function_modify {i j : Nat} {change : Function → Function} (hi : i < b.functions.size) :
    ({ b with functions := b.functions.modify i change } : Bindings).function j =
      if i = j then change (b.function j) else b.function j := by
  unfold function
  rw [Array.getD_eq_getD_getElem?, Array.getD_eq_getD_getElem?, Array.getElem?_modify]
  split
  . next heq =>
    subst heq
    rw [Array.getElem?_eq_getElem hi]
    rfl
  . rfl

theorem Stage.setWords (hb : Stage e fn b) (hsize : fn < b.functions.size)
    (hthis : (b.function fn).this = none) (htarget : (b.function fn).newTarget = none)
    {change : Function → Function} {u : Unit}
    (hchange : ∀ f, (change f).frame = f.frame ∧ (change f).captures = f.captures ∧
      (change f).lineage = f.lineage)
    (h : Ends (Resolve.modifyFunction fn change) b u b') : Stage e fn b' := by
  cases ends_modify.1 h
  have hfunction := fun j => @function_modify b fn j change hsize
  have hcaptures : ∀ j, (({ b with functions := b.functions.modify fn change } :
      Bindings).function j).captures = (b.function j).captures := by
    intro j
    rw [hfunction j]
    split
    . exact (hchange _).2.1
    . rfl
  refine ⟨{ hb.linked with
    functions := ?_, uses := ?_, captures := ?_, captured := ?_ }, hb.quiet, ?_⟩
  . exact (map_modify_eq fun f => (hchange f).1).trans hb.linked.functions
  . intro id u d hu hd
    obtain ⟨decl, hdecl, hcase⟩ := hb.linked.uses id u d hu hd
    refine ⟨decl, hdecl, hcase.imp_left ?_⟩
    rintro ⟨f, hf, howner⟩
    exact ⟨f, hf, (hcaptures f).symm ▸ howner⟩
  . intro f d hd
    rw [hcaptures f] at hd
    obtain ⟨decl, p, hdecl, hcap, hparent, hcase⟩ := hb.linked.captures f d hd
    exact ⟨decl, p, hdecl, hcap, hparent, (hcaptures p).symm ▸ hcase⟩
  . intro d decl hdecl hcap
    obtain ⟨f, hf, hused⟩ := hb.linked.captured d decl hdecl hcap
    refine ⟨f, hf, hused.transferOf (fun id u _ hu hd => ⟨u, hu, hd⟩) ?_ ?_ ?_⟩
    . exact map_modify_eq fun f => (hchange f).2.2
    . intro i hi
      rw [hfunction i, if_neg]
      . exact hi
      . rintro rfl
        rw [hthis] at hi
        cases hi
    . intro i hi
      rw [hfunction i, if_neg]
      . exact hi
      . rintro rfl
        rw [htarget] at hi
        cases hi
  . rw [hcaptures fn]
    exact hb.idle

theorem prepares_setWords {c : Bindings} {this target value : Nat} {u : Unit}
    (hsofar : Declares e fn b c) (hsize : fn < c.functions.size)
    (hblank : (b.function fn).IsBlank) (hthis : c.DeclIn fn this) (htarget : c.DeclIn fn target)
    (hvalue : c.DeclIn fn value)
    (h : Ends (Resolve.modifyFunction fn fun f =>
      { f with this := some this, newTarget := some target, functionValue := some value }) c u b') :
    Prepares e fn g b b' ∧ b'.scopes = c.scopes := by
  have hwords := Function.words_eq_iff.1 (hsofar.words_eq fn)
  have hstage := hsofar.stage.setWords hsize (hwords.2.1.trans hblank.1)
    (hwords.2.2.1.trans hblank.2.1) (by intro f; exact ⟨rfl, rfl, rfl⟩) h
  cases ends_modify.1 h
  refine ⟨⟨hstage, ?_, ?_, ?_, ?_, hsofar.bound, hsofar.decls⟩, rfl⟩
  . refine Eq.trans ?_ hsofar.node_eq
    dsimp only
    rw [map_modify_eq]
    intro f
    rfl
  . intro i hi
    rw [function_modify hsize, if_neg (Ne.symm hi)]
    exact hsofar.words_eq i
  . intro i
    rw [function_modify hsize]
    split <;> exact hsofar.captures_eq i
  . intro _
    refine ⟨this, target, value, ?_, hthis, htarget, hvalue⟩
    rw [function_modify hsize, if_pos rfl]
    rfl

end Bindings

namespace Resolve

open Bindings

variable {e : Extraction} {fn : Nat} {b b' : Bindings} {g : Function} {u : Unit}

theorem held_of_holds (he : e.IsSplit) (hg : e.functions[fn]? = some g) {c : Node}
    (hc : Part.Holds g.node.parts c) : Held e fn c := by
  intro m hm
  have hmem := Part.mem_nodes_of_holds hc hm
  refine ⟨⟨g, hg, ?_⟩, (he.formed fn g hg).split m hmem⟩
  rw [Node.ids, Node.preorder_eq]
  exact List.mem_map.2 ⟨m, List.mem_cons_of_mem _ hmem, rfl⟩

theorem outer_parent (he : e.IsSplit) (hg : e.functions[fn]? = some g)
    (hb : Linked e fn b) {p : Nat}
    (hp : (g.site.bind fun s => b.scopeOf.get? s.id) = some p) : ∃ t, b.scopes[p]? = some t ∧
      (t.owner = fn ∨ Lineage.Parent e.lineage t.owner fn) := by
  obtain ⟨s, hs, hp⟩ := Option.bind_eq_some_iff.1 hp
  obtain ⟨t, ht, htree⟩ := hb.scopeOf _ _ hp
  refine ⟨t, ht, .inr ?_⟩
  have hlt := (hb.scopes p t ht).1
  obtain ⟨-, q, site, gq, hparent, hsite, -, hgq, hin⟩ := he.parent fn g (by omega) hg
  rw [hs] at hsite
  cases hsite
  have hq : e.InTree q s.id := by
    obtain ⟨m, hm, hid⟩ := List.mem_map.1 hin
    refine ⟨gq, hgq, ?_⟩
    rw [Node.ids, Node.preorder_eq]
    exact List.mem_map.2 ⟨m, List.mem_cons_of_mem _ hm, hid⟩
  refine ⟨g.lineage, ?_, ?_⟩
  . unfold Extraction.lineage
    rw [Array.getElem?_map, hg]
    rfl
  . rw [he.eq_of_inTree htree hq]
    exact hparent

theorem declares_functionBody (he : e.IsSplit) (hg : e.functions[fn]? = some g) {f : Function}
    {strict : Bool} (hnode : f.node = g.node) (hb : Stage e fn b) (hsc : b.scopes.Inside fn sc)
    (h : Ends (do
      declareParams fn sc strict f.params []
      setScope f.body sc
      for statement in f.body.items do Resolve.declare statement fn sc) b u b') :
    Declares e fn b b' ∧ ∀ c ∈ g.body.items, Done e fn c b' := by
  have hheld := fun c => @held_of_holds e fn g he hg c
  obtain ⟨_, d₁, hparams, h⟩ := ends_bind.1 h
  have hdeclared := declares_params he hb hsc (by
    intro p hp
    refine hheld p (Node.holds_of_mem_nodesAt (r := .param) ?_)
    rw [← hnode]
    exact hp) hparams
  obtain ⟨_, d₂, hset, h⟩ := ends_bind.1 h
  have hf : f.body = g.body := by
    unfold Function.body
    rw [← hnode]
  rw [hf] at hset h
  obtain ⟨block, hblock, -⟩ := (he.formed fn g hg).body
  have hbodyHeld : Held e fn g.body := by
    unfold Function.body
    rw [hblock]
    exact hheld _ (Node.holds_of_part? hblock)
  have hscoped := declares_setScope hdeclared.stage hbodyHeld.self.1
    (scopeIn_of_inside (hdeclared.inside hsc)) hset
  have hsofar := hdeclared.trans hscoped
  obtain ⟨_, d₃, hloop, h⟩ := ends_bind.1 h
  obtain ⟨-, rfl⟩ := ends_pure.1 h
  obtain ⟨hlist, hdone⟩ := declares_nodes (declarer_declare he)
    (fun c hc => hbodyHeld.below (Node.holds_of_mem_items hc)) hscoped.stage
    (hsofar.inside hsc) hloop
  exact ⟨hsofar.trans hlist, fun c hc => hdone c hc trivial⟩

theorem declares_all (he : e.IsSplit) (hg : e.functions[fn]? = some g) (hb : Linked e fn b)
    (hnode : (b.function fn).node = g.node) (hblank : (b.function fn).IsBlank)
    (h : Ends (declareAll fn) b u b') :
    Prepares e fn g b b' ∧ ∀ c ∈ g.body.items, Done e fn c b' := by
  obtain ⟨hframe, hsize⟩ := hb.frame_function hg
  have hheld := fun c => @held_of_holds e fn g he hg c
  have hstage := hb.stage hblank
  unfold declareAll at h
  rw [ends_get_bind] at h
  extract_lets f outer isSimple main checked at h
  have houter : ∀ p, outer = some p → ∃ t, b.scopes[p]? = some t ∧
      (t.owner = fn ∨ Lineage.Parent e.lineage t.owner fn) := by
    intro p hp
    apply outer_parent he hg hb
    rw [← hp]
    have hsite : f.frame.site = g.frame.site := congrArg Function.site hframe
    exact congrArg (Option.bind · _) hsite.symm
  have hmain : ∀ outer c, Declares e fn b c → (∀ p, outer = some p → ∃ t, c.scopes[p]? = some t ∧
      (t.owner = fn ∨ Lineage.Parent e.lineage t.owner fn)) → Ends (main outer) c u b' →
      Prepares e fn g b b' ∧ ∀ c ∈ g.body.items, Done e fn c b' := by
    intro outer c hsofar houter h
    dsimp -zeta only [main] at h
    obtain ⟨sc, c₁, hopen, h⟩ := ends_bind.1 h
    obtain ⟨hopened, hsc⟩ := declares_openScope hsofar.stage rfl rfl houter hopen
    obtain ⟨_, c₂, hscope, h⟩ := ends_bind.1 h
    have hset := declares_modifyFunction hopened.stage
      (by intro f; exact ⟨rfl, rfl, rfl, rfl⟩) hscope
    have hsofar := hsofar.trans (hopened.trans hset)
    have hin : c₂.scopes.Inside fn sc := hset.inside (.function hsc rfl rfl)
    extract_lets body at h
    have hbody : ∀ {d}, Prepares e fn g b d → d.scopes.Inside fn sc → Ends (body ()) d u b' →
        Prepares e fn g b b' ∧ ∀ c ∈ g.body.items, Done e fn c b' := by
      intro d hd hin h
      dsimp only [body] at h
      obtain ⟨hmore, hdone⟩ := declares_functionBody he hg hnode hd.stage hin h
      exact ⟨hd.trans hmore, hdone⟩
    have hfa : f.frame.isArrow = g.frame.isArrow := congrArg Function.isArrow hframe
    split at h
    . next harrow =>
      obtain ⟨this, d₁, hthis, h⟩ := ends_bind.1 h
      obtain ⟨hd₁, hthis⟩ := declares_synthetic he hsofar.stage hthis
      obtain ⟨target, d₂, htarget, h⟩ := ends_bind.1 h
      obtain ⟨hd₂, htarget⟩ := declares_synthetic he hd₁.stage htarget
      obtain ⟨value, d₃, hvalue, h⟩ := ends_bind.1 h
      obtain ⟨hd₃, hvalue⟩ := declares_synthetic he hd₂.stage hvalue
      obtain ⟨_, d₄, hwords, h⟩ := ends_bind.1 h
      have hmade := hd₁.trans (hd₂.trans hd₃)
      have hsofar := hsofar.trans hmade
      have hsize' : fn < d₃.functions.size := by
        have := congrArg Array.size hsofar.functions
        rw [Array.size_map, Array.size_map] at this
        omega
      obtain ⟨hprepared, hscopes⟩ := @prepares_setWords e fn b d₄ g d₃ this target value _ hsofar
        hsize' hblank (hd₃.decls _ _ (hd₂.decls _ _ hthis)) (hd₃.decls _ _ htarget) hvalue hwords
      have hin : d₄.scopes.Inside fn sc := hscopes ▸ hmade.inside hin
      split at h
      . obtain ⟨arguments, d₅, harguments, h⟩ := ends_bind.1 h
        obtain ⟨hd₅, harguments⟩ := declares_synthetic he hprepared.stage harguments
        obtain ⟨_, d₆, hset, h⟩ := ends_bind.1 h
        have hd₆ := declares_modifyFunction hd₅.stage (by intro f; exact ⟨rfl, rfl, rfl, rfl⟩) hset
        have hmore := hd₅.trans hd₆
        obtain ⟨_, d₇, hname, h⟩ := ends_bind.1 h
        have hd₇ := declares_declareName hd₆.stage (scopeIn_of_inside (hmore.inside hin))
          (hd₆.decls _ _ harguments) hname
        exact hbody (hprepared.trans (hmore.trans hd₇)) ((hmore.trans hd₇).inside hin) h
      . exact hbody hprepared hin h
    . next harrow =>
      have harrow : f.isArrow = true := by simpa using harrow
      exact hbody (hsofar.prepares (hfa.symm.trans harrow)) hin h
  have hchecked : Ends (checked ()) b u b' →
      Prepares e fn g b b' ∧ ∀ c ∈ g.body.items, Done e fn c b' := by
    intro h
    dsimp -zeta only [checked] at h
    split at h
    . exact hmain outer b (.refl hstage) houter h
    . next id hid =>
      obtain ⟨self, c, hopen, h⟩ := ends_bind.1 h
      obtain ⟨hopened, hself⟩ := declares_openScope hstage rfl rfl houter hopen
      obtain ⟨_, c₁, hdecl, h⟩ := ends_bind.1 h
      have hin : e.InTree fn id.id := by
        refine (hheld id (Node.holds_of_part? (r := .name) ?_)).self.1
        rw [← hnode]
        exact hid
      obtain ⟨hadded, hdeclIn⟩ := declares_addDecl he hopened.stage (.inl hin) rfl rfl
        ⟨_, hself, rfl⟩ hdecl
      obtain ⟨_, c₂, hbind, h⟩ := ends_bind.1 h
      obtain ⟨hbound, -⟩ := declares_bindTo he hadded.stage (.inl hin) hdeclIn hbind
      obtain ⟨_, c₃, hset, h⟩ := ends_bind.1 h
      have hnoted := declares_modifyFunction hbound.stage
        (by intro f; exact ⟨rfl, rfl, rfl, rfl⟩) hset
      have hmore := hadded.trans (hbound.trans hnoted)
      refine hmain (some self) c₃ (hopened.trans hmore) ?_ h
      rintro _ ⟨⟩
      obtain ⟨t, ht, howner, -⟩ := hmore.scopes _ _ hself
      exact ⟨t, ht, .inl howner⟩
  split at h
  . split at h
    . split at h
      . exact absurd h not_ends_throw_bind
      . exact hchecked h
    . exact hchecked h
  . exact hchecked h

end Resolve
end ScriptC
