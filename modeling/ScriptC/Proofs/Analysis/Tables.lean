import Mathlib
import ScriptC.Proofs.Analysis.Enriched
import ScriptC.Proofs.Analysis.Sites
import ScriptC.Proofs.Bindings.Resolved

/-!
The cache slots of a whole script. What an access reads depends on the names of its links and on
what they start from alone; a variable counts the assignments to it that are met before.
-/

namespace ScriptC

open Pass

namespace Analyze.Cache

variable {b b' : Bindings} {fn : Nat} {generation : Nat → Nat} {n : Node} {x : Access}

def routeStep (route : Node → Option (Node × List String)) (n : Node) :
    Option (Node × List String) :=
  match n.label with
  | .member .. => do
    let name ← n.memberName?
    let r ← (n.part? .object).bind route
    return (r.1, r.2 ++ [name])
  | _ => some (n, [])

def route? (n : Node) : Option (Node × List String) := Node.fix routeStep (fun _ => none) n

def origin? (b : Bindings) (generation : Nat → Nat) (n : Node) : Option Origin :=
  match n.label with
  | .identifier _ =>
    match b.use? n with
    | some (.direct d) => some (.binding (b.decl d).name d (generation d))
    | _ => none
  | .this => some (.this ((b.resolved? n).elim 0 generation))
  | .literal (.string value) _ => some (.text value)
  | .call _ | .new => some (.result n.id)
  | _ => none

theorem unroll_accessStep (depth : Nat) (n : Node) :
    Node.unroll (accessStep b generation) (fun _ => none) depth n =
      (Node.unroll routeStep (fun _ => none) depth n).bind fun r =>
        (origin? b generation r.1).map (⟨·, r.2⟩) := by
  induction depth generalizing n with
  | zero => rfl
  | succ depth ih =>
    rcases n with ⟨id, span, label, parts⟩
    simp only [Node.unroll, accessStep, routeStep]
    cases label with
    | identifier name =>
      simp only [Node.label, Option.bind_some, origin?]
      rcases b.use? _ with _ | (d | d | _) <;> rfl
    | literal value raw => cases value <;> rfl
    | member computed optional =>
      simp only [Node.label]
      generalize Node.mk id span (.member computed optional) parts = n
      cases n.memberName? with
      | none => rfl
      | some name =>
        cases n.part? .object with
        | none => rfl
        | some o =>
          simp only [Option.bind_eq_bind, Option.bind_some, ih o]
          cases Node.unroll routeStep (fun _ => none) depth o with
          | none => rfl
          | some r =>
            simp only [Option.bind_some, Option.pure_def]
            cases origin? b generation r.1 <;> rfl
    | _ => rfl

theorem access?_eq : access? b generation n =
    (route? n).bind fun r => (origin? b generation r.1).map (⟨·, r.2⟩) :=
  unroll_accessStep n.height n

theorem unroll_withStep {depth depth' : Nat} {r : Node × List String}
    (hroute : Node.unroll routeStep (fun _ => none) depth' n = some r)
    (horigin : (origin? b generation r.1).isSome) :
    Node.unroll (withStep b) (fun _ => false) depth n = false := by
  induction depth generalizing n depth' r with
  | zero => rfl
  | succ depth ih =>
    cases depth' with
    | zero => cases hroute
    | succ depth' =>
      rcases n with ⟨id, span, label, parts⟩
      simp only [Node.unroll, withStep]
      simp only [Node.unroll, routeStep] at hroute
      cases label with
      | identifier name =>
        cases hroute
        simp only [origin?, Node.label] at horigin ⊢
        split at horigin
        . next h => rw [h]
        . cases horigin
      | member computed optional =>
        simp only [Node.label, Option.bind_eq_bind, Option.bind_eq_some_iff, Option.pure_def,
          Option.some.injEq] at hroute
        obtain ⟨name, -, r', ⟨o, ho, hroute⟩, rfl⟩ := hroute
        simp only [Node.label, ho, Option.any_some]
        exact ih hroute horigin
      | _ => rfl

theorem reads?_eq (hkind : n.kind = .member) : reads? b generation n =
    (route? n).bind fun r => (origin? b generation r.1).map (⟨·, r.2⟩) := by
  rw [← access?_eq]
  unfold reads?
  dsimp only
  split
  . next haffected =>
    symm
    rw [access?_eq, Option.bind_eq_none_iff]
    intro r hroute
    rw [Option.map_eq_none_iff, ← Option.not_isSome_iff_eq_none]
    intro horigin
    rcases n with ⟨id, span, label, parts⟩
    cases label with
    | member computed optional =>
      simp only [route?, Node.fix, Node.height, Node.unroll, routeStep, Node.label,
        Option.bind_eq_bind, Option.bind_eq_some_iff, Option.pure_def, Option.some.injEq] at hroute
      obtain ⟨name, -, r', ⟨o, ho, hroute⟩, rfl⟩ := hroute
      rw [ho, Option.getD_some, Bool.or_eq_true, beq_iff_eq] at haffected
      rcases haffected with hsuper | hwith
      . rcases o with ⟨id', span', label', parts'⟩
        cases label' with
        | super =>
          cases hdepth : Node.heightParts parts with
          | zero =>
            rw [hdepth] at hroute
            cases hroute
          | succ depth =>
            rw [hdepth] at hroute
            cases hroute
            cases horigin
        | _ => cases hsuper
      . rw [isWithAffected, Node.fix, unroll_withStep hroute horigin] at hwith
        cases hwith
    | _ => cases hkind
  . rfl

theorem foldl_key (base : String) (path : List String) :
    path.foldl (fun base name => base ++ "." ++ name) base =
      base ++ path.foldl (fun base name => base ++ "." ++ name) "" := by
  induction path generalizing base with
  | nil => simp
  | cons name rest ih =>
    rw [List.foldl_cons, ih, List.foldl_cons, ih ("" ++ "." ++ name)]
    simp only [String.append_assoc, String.empty_append]

theorem key_eq_iff {name : String} {d i j : Nat} {path : List String} :
    Access.key ⟨.binding name d i, path⟩ = Access.key ⟨.binding name d j, path⟩ ↔ i = j := by
  constructor
  . intro h
    unfold Access.key at h
    dsimp only at h
    rw [foldl_key, foldl_key (Origin.key (.binding name d j))] at h
    have hkey := (String.append_left_inj _).1 h
    simp only [Origin.key, String.append_right_inj] at hkey
    exact Nat.repr_inj.1 hkey
  . rintro rfl
    rfl

def after (b : Bindings) (generation : Nat → Nat) (es : List Event) : Nat → Nat :=
  bump generation (es.flatMap (·.changed b))

theorem bump_bump (ds ds' : List Nat) :
    bump (bump generation ds) ds' = bump generation (ds ++ ds') := by
  funext d
  simp only [bump, List.count_append, Nat.add_assoc]

theorem accesses_append (es es' : List Event) : accesses b generation (es ++ es') =
    accesses b generation es ++ accesses b (after b generation es) es' := by
  induction es generalizing generation with
  | nil => rfl
  | cons e rest ih =>
    cases e with
    | store target =>
      rw [after, List.flatMap_cons, ← bump_bump]
      exact ih
    | setThis d =>
      rw [after, List.flatMap_cons, ← bump_bump]
      exact ih
    | access n =>
      rw [List.cons_append, accesses, ih, accesses]
      split <;> rfl

theorem accesses_map_eq {es : List Event} (h : ∀ m ∈ Event.accessed es, m.kind = .member) :
    (accesses b generation es).map (·.1) = (Event.accessed es).filter fun m =>
      (reads? b (fun _ => 0) m).isSome := by
  induction es generalizing generation with
  | nil => rfl
  | cons e rest ih =>
    cases e with
    | store target => exact ih h
    | setThis d => exact ih h
    | access n =>
      have hkind : n.kind = .member := h n List.mem_cons_self
      have hrest := fun {g} => @ih g fun m hm => h m (List.mem_cons_of_mem _ hm)
      have hsome : (reads? b (fun _ => 0) n).isSome = (reads? b generation n).isSome := by
        rw [reads?_eq hkind, reads?_eq hkind]
        cases route? n with
        | none => rfl
        | some r =>
          simp only [Option.bind_some, Option.isSome_map, origin?]
          split <;> try rfl
          split <;> rfl
      have haccessed : Event.accessed (.access n :: rest) = n :: Event.accessed rest := rfl
      rw [haccessed, List.filter_cons, hsome, accesses]
      cases reads? b generation n with
      | none => exact hrest
      | some x => exact congrArg (n :: ·) hrest

theorem ofFunction_eq (h : b.Enriches b') (hnode : (b'.function fn).node = (b.function fn).node) :
    Event.ofFunction b' fn (b'.function fn) = Event.ofFunction b fn (b.function fn) := by
  have hthis : (b'.function (b'.thisOwner fn)).this = (b.function (b.thisOwner fn)).this := by
    rw [h.thisOwner_eq]
    exact congrArg (·.this) (h.given_eq (i := b.thisOwner fn))
  have hstep : Event.ofStep b' fn = Event.ofStep b fn := by
    funext visit m mode
    simp only [Event.ofStep, Event.ofValueStep, hthis]
  unfold Event.ofFunction Event.ofNode Function.params Function.body
  rw [hstep, hnode]

theorem accessesOf_eq (h : b.Enriches b') (hnode : (b'.function fn).node = (b.function fn).node) :
    accessesOf b' fn = accessesOf b fn := by
  have hresolved : b'.resolved? = b.resolved? := funext h.resolved?_eq
  have huse : b'.use? = b.use? := by
    funext m
    rw [Bindings.use?, h.uses, Bindings.use?]
  have hwith : b'.isInWith = b.isInWith := by
    funext m
    rw [Bindings.isInWith, h.scopeOf, h.scopes, Bindings.isInWith]
  have hname : ∀ d, (b'.decl d).name = (b.decl d).name :=
    fun d => congrArg (·.name) (h.settled_eq (d := d))
  have haccess : accessStep b' = accessStep b := by
    funext generation access m
    simp only [accessStep, huse, h.resolved?_eq, hname]
  have haffected : withStep b' = withStep b := by
    funext affected m
    simp only [withStep, huse, hwith]
  have hreads : reads? b' = reads? b := by
    funext generation m
    unfold reads? access? isWithAffected
    rw [haccess, haffected]
  have hevents : ∀ generation es, accesses b' generation es = accesses b generation es := by
    intro generation es
    induction es generalizing generation with
    | nil => rfl
    | cons e rest ih => cases e <;> simp only [accesses, Event.changed, hresolved, hreads, ih]
  rw [accessesOf, hevents, ofFunction_eq h hnode, accessesOf]

def isSite (n : Node) : Bool := ((n.part? .object).getD default).kind != .super

structure Counts (nodes : List Node) (s s' : CacheState) : Prop where
  members : s'.stats.memberSites = s.stats.memberSites + nodes.countP isSite
  sorts : s'.stats.memberSites + (s.stats.cacheableSites + s.stats.uncacheableSites +
      s.stats.withSites) = s.stats.memberSites + (s'.stats.cacheableSites +
      s'.stats.uncacheableSites + s'.stats.withSites)
  slots : s'.stats.cacheSlots + s.keys.length = s.stats.cacheSlots + s'.keys.length

theorem counts_slotOf {key : String} {s s' : CacheState} {slot : Nat}
    (h : Ends (slotOf n key) s slot s') : Counts [] s s' := by
  unfold slotOf at h
  rw [ends_get_bind] at h
  split at h
  . obtain ⟨-, rfl⟩ := ends_pure.1 h
    exact ⟨rfl, rfl, rfl⟩
  . dsimp only at h
    split at h
    . exact absurd h not_ends_throw_bind
    . rw [ends_set_bind] at h
      obtain ⟨-, rfl⟩ := ends_pure.1 h
      refine ⟨rfl, rfl, ?_⟩
      dsimp only
      rw [List.length_append, List.length_singleton]
      omega

theorem counts_memberAccess {s s' : CacheState} (h : Ends (memberAccess n) s () s') :
    Counts [n] s s' := by
  unfold memberAccess at h
  dsimp only at h
  split at h
  . next hsuper =>
    obtain ⟨-, rfl⟩ := ends_pure.1 h
    refine ⟨?_, rfl, rfl⟩
    rw [List.countP_singleton, isSite, bne, hsuper]
    rfl
  . next hsuper =>
    have hsite : [n].countP isSite = 1 := by
      rw [List.countP_singleton, isSite, bne, if_pos (by rw [Bool.eq_false_iff.2 hsuper]; rfl)]
    rw [ends_get_bind, ends_modify_bind] at h
    split at h
    . rw [ends_modify.1 h]
      refine ⟨by rw [hsite], ?_, rfl⟩
      dsimp only
      omega
    . split at h
      . rw [ends_modify.1 h]
        refine ⟨by rw [hsite], ?_, rfl⟩
        dsimp only
        omega
      . rw [ends_modify_bind] at h
        obtain ⟨slot, t, hslot, h⟩ := ends_bind.1 h
        obtain ⟨hmembers, hsorts, hslots⟩ := counts_slotOf hslot
        rw [ends_modify.1 h]
        rw [List.countP_nil] at hmembers
        refine ⟨by rw [hsite]; exact hmembers, ?_, hslots⟩
        dsimp only at hsorts ⊢
        omega

theorem Counts.append {nodes nodes' : List Node} {s t s' : CacheState} (h : Counts nodes s t)
    (h' : Counts nodes' t s') : Counts (nodes ++ nodes') s s' where
  members := by rw [h'.members, h.members, List.countP_append, Nat.add_assoc]
  sorts := by have := h.sorts; have := h'.sorts; omega
  slots := by have := h.slots; have := h'.slots; omega

theorem Advances.counts {ds : List Nat} {s s' : CacheState} (h : Advances ds s s') :
    Counts [] s s' := by
  refine ⟨?_, ?_, ?_⟩ <;> simp only [h.stats, h.keys, List.countP_nil, Nat.add_zero]

theorem counts_performAll {es : List Event} {s s' : CacheState}
    (h : Ends (Event.performAll es) s () s') : Counts (Event.accessed es) s s' := by
  induction es generalizing s with
  | nil =>
    obtain ⟨-, rfl⟩ := ends_pure.1 h
    exact ⟨rfl, rfl, rfl⟩
  | cons e rest ih =>
    obtain ⟨_, t, he, hrest⟩ := ends_bind.1 h
    cases e with
    | store target => exact (advances_store he).counts.append (ih hrest)
    | setThis d => exact (advances_advance he).counts.append (ih hrest)
    | access n => exact (counts_memberAccess he).append (ih hrest)

end Analyze.Cache

theorem Node.map_id_of_becomes {nodes nodes' : List Node}
    (h : List.Forall₂ Node.Becomes nodes nodes') : nodes'.map (·.id) = nodes.map (·.id) := by
  induction h with
  | nil => rfl
  | cons hbecomes _ ih =>
    rw [List.map_cons, List.map_cons, ih]
    exact congrArg (· :: _) (hbecomes.elim Node.id_of_shape fun h => h.2.2)

structure Bindings.Apart (b : Bindings) : Prop where
  once : ∀ i x, Part.times x (b.function i).node.parts ≤ 1
  inTree : ∀ i x, 0 < Part.times x (b.function i).node.parts → 0 < x ∧ x < b.counters.node
  unique : ∀ i j x, 0 < Part.times x (b.function i).node.parts →
    0 < Part.times x (b.function j).node.parts → i = j

theorem Bindings.apart_of {e : Extraction} {b : Bindings} (he : e.IsSplit)
    (h : Bindings.of e = .ok b) : b.Apart := by
  have hsettled := settled_of he h
  have hsize : b.functions.size = e.functions.size := by
    simpa using congrArg Array.size hsettled.linked.functions
  have htimes : ∀ i x, Part.times x (b.function i).node.parts = 0 ∨ ∃ g, e.functions[i]? = some g ∧
      Part.times x (b.function i).node.parts = Part.times x g.innerParts := by
    intro i x
    cases hg : e.functions[i]? with
    | none =>
      left
      have hnone : b.functions[i]? = none := by
        rw [Array.getElem?_eq_none_iff] at hg ⊢
        omega
      rw [function, Array.getD_eq_getD_getElem?, hnone]
      rfl
    | some g =>
      refine .inr ⟨g, rfl, ?_⟩
      have htree := hsettled.tree i g (Array.getElem?_eq_some_iff.1 hg).1 hg
      rw [Part.times, Node.map_id_of_becomes htree, Part.times]
  have hin : ∀ i x, 0 < Part.times x (b.function i).node.parts → e.InTree i x := by
    intro i x hpos
    rcases htimes i x with hzero | ⟨g, hg, heq⟩
    . omega
    . rw [heq] at hpos
      obtain ⟨m, hm, rfl⟩ := List.mem_map.1 (List.count_pos_iff.1 hpos)
      exact Resolve.inTree_of_mem he hg hm
  constructor
  case once =>
    intro i x
    rcases htimes i x with hzero | ⟨g, hg, heq⟩
    . omega
    . rw [heq]
      exact Resolve.times_innerParts_le he hg x
  case inTree =>
    intro i x hpos
    exact ⟨he.pos_of_inTree (hin i x hpos),
      Nat.lt_of_lt_of_le (he.lt_of_inTree (hin i x hpos)) hsettled.linked.counters⟩
  case unique => exact fun i j x hi hj => he.eq_of_inTree (hin i x hi) (hin j x hj)

namespace Analyze

open Cache Event

variable {b : Bindings} {i k : Nat} {a t t' : Analysis}

theorem inTree_of_mem_accessed {m : Node} (hm : m ∈ accessed (ofFunction b i (b.function i))) :
    0 < Part.times m.id (b.function i).node.parts :=
  Nat.lt_of_lt_of_le (List.count_pos_iff.2 (List.mem_map_of_mem hm)) (times_ofFunction_le _)

theorem kind_of_mem_accessed {m : Node} (hm : m ∈ accessed (ofFunction b i (b.function i))) :
    m.kind = .member :=
  (accessed_ofFunction_subset hm).2

theorem mem_accessed_of_mem_accessesOf {p : Node × Access} (hp : p ∈ accessesOf b i) :
    p.1 ∈ accessed (ofFunction b i (b.function i)) := by
  have hmem := List.mem_map_of_mem (f := (·.1)) hp
  rw [accessesOf, accesses_map_eq fun m => kind_of_mem_accessed] at hmem
  exact (List.mem_filter.1 hmem).1

theorem nodup_accessesOf (hb : b.Apart) : ((accessesOf b i).map (·.1.id)).Nodup := by
  have hmap : (accessesOf b i).map (·.1.id) = ((accessesOf b i).map (·.1)).map (·.id) := by
    rw [List.map_map]
    rfl
  rw [hmap, accessesOf, accesses_map_eq fun m => kind_of_mem_accessed]
  refine List.Nodup.sublist (List.filter_sublist.map _) (List.nodup_iff_count_le_one.2 fun x => ?_)
  exact Nat.le_trans (times_ofFunction_le _) (hb.once i x)

structure SameTables (fn : Nat) (a a' : Analysis) : Prop where
  slots : a'.slots = a.slots
  stats : a'.stats.ofAccesses = a.stats.ofAccesses
  keys : ∀ i, (a'.bindings.function i).cacheKeys = (a.bindings.function i).cacheKeys
  nodes : ∀ i, i ≠ fn → (a'.bindings.function i).node = (a.bindings.function i).node

theorem isSteady_sameTables {fn : Nat} : IsSteady (SameTables fn) where
  refl _ := ⟨rfl, rfl, fun _ => rfl, fun _ _ => rfl⟩
  trans h h' := ⟨h'.slots.trans h.slots, h'.stats.trans h.stats,
    fun i => (h'.keys i).trans (h.keys i), fun i hi => (h'.nodes i hi).trans (h.nodes i hi)⟩

theorem sameTables_modify {fn : Nat} {change : Function → Function}
    (h : ∀ f, (change f).cacheKeys = f.cacheKeys) : SameTables fn a { a with
      bindings := { a.bindings with functions := a.bindings.functions.modify fn change } } := by
  refine ⟨rfl, rfl, fun i => ?_, fun i hi => ?_⟩
  . rcases Bindings.function_modify_cases a.bindings fn i change with heq | ⟨-, heq⟩
    . rw [heq]
    . rw [heq, h]
  . rcases Bindings.function_modify_cases a.bindings fn i change with heq | ⟨rfl, -⟩
    . rw [heq]
    . contradiction

theorem permitsShapes_sameTables (fn : Nat) : PermitsShapes fn (SameTables fn) where
  toIsSteady := isSteady_sameTables
  stats _ _ h := ⟨rfl, h, fun _ => rfl, fun _ _ => rfl⟩
  string _ _ _ := ⟨rfl, rfl, fun _ => rfl, fun _ _ => rfl⟩
  bigint _ _ := ⟨rfl, rfl, fun _ => rfl, fun _ _ => rfl⟩
  shapes _ _ := ⟨rfl, rfl, fun _ => rfl, fun _ _ => rfl⟩
  shape _ _ := ⟨rfl, rfl, fun _ => rfl, fun _ _ => rfl⟩
  numbers _ := ⟨rfl, rfl, fun _ => rfl, fun _ _ => rfl⟩
  volatile _ _ := ⟨rfl, rfl, fun _ => rfl, fun _ _ => rfl⟩
  record _ _ h := sameTables_modify fun f => (h f).2.2

theorem keeps_globalizeNames_sameTables (fn : Nat) : Keeps (SameTables fn) (globalizeNames fn) := by
  have hR : IsSteady (SameTables fn) := isSteady_sameTables
  have hglobalize := Keeps.replacePartsM hR (permitsShapes_sameTables fn).globalize
  exact .bind hR ((permitsShapes_sameTables fn).function fn) fun f => .bind hR (hglobalize _)
    fun params => .bind hR (hglobalize _) fun body => .modify fun a =>
      sameTables_modify fun _ => rfl

structure Staged (b : Bindings) (k : Nat) (a : Analysis) : Prop where
  enriches : b.Enriches a.bindings
  later : ∀ i, k ≤ i → (a.bindings.function i).node = (b.function i).node
  tables : ∀ i < k, Tables b i a.slots (a.bindings.function i).cacheKeys
  only : ∀ x slot, a.slots.get? x = some slot → ∃ i < k, x ∈ (accessesOf b i).map (·.1.id)
  members : a.stats.memberSites =
    ((List.range k).map fun i => (accessed (ofFunction b i (b.function i))).countP isSite).sum
  sorts : a.stats.memberSites =
    a.stats.cacheableSites + a.stats.uncacheableSites + a.stats.withSites
  total : a.stats.cacheSlots =
    ((List.range k).map fun i => (a.bindings.function i).cacheKeys.length).sum

theorem Staged.sameTables (h : Staged b k t) (henriches : t.Enriches t') (hsame : SameTables i t t')
    (hi : i < k) : Staged b k t' := by
  obtain ⟨hmembers, hcacheable, huncacheable, hwith, hslots, -⟩ : _ = _ ∧ _ = _ ∧ _ = _ ∧ _ = _ ∧
      _ = _ ∧ _ := by
    simpa only [Stats.ofAccesses, List.cons.injEq] using hsame.stats
  constructor
  case enriches => exact h.enriches.trans henriches
  case later => exact fun j hj => (hsame.nodes j (by omega)).trans (h.later j hj)
  case tables =>
    intro j hj
    rw [hsame.slots, hsame.keys]
    exact h.tables j hj
  case only =>
    rw [hsame.slots]
    exact h.only
  case members => exact hmembers.trans h.members
  case sorts => rw [hmembers, hcacheable, huncacheable, hwith, h.sorts]
  case total =>
    rw [hslots, h.total]
    simp only [hsame.keys]

theorem staged_assignSlots (hb : b.Apart) (hk : k < b.functions.size) (ha : Staged b k a)
    (h : Ends (assignSlots k) a () t) : Staged b (k + 1) t := by
  have hsize : k < a.bindings.functions.size := by
    rw [ha.enriches.size_eq]
    exact hk
  have hnode := ha.later k (Nat.le_refl _)
  have haccesses := accessesOf_eq ha.enriches hnode
  have henriches := ha.enriches.trans ((permitsSlots_enriches k).assignSlots _ _ _ h)
  obtain ⟨s, hrun, ht⟩ := ends_assignSlots h
  obtain ⟨htables, hothers⟩ := tables_of_all hrun (haccesses ▸ nodup_accessesOf hb)
  rw [haccesses] at hothers
  rw [Ends, comesTo_all (a.bindings.function k) _ rfl rfl, bind_pure_unit] at hrun
  obtain ⟨hmembers, hsorts, htotal⟩ := counts_performAll hrun
  rw [ofFunction_eq ha.enriches hnode] at hmembers
  have hslots : t.slots = s.slots := by rw [ht]
  have hstats : t.stats = s.stats := by rw [ht]
  have hfunction : ∀ j, t.bindings.function j =
      if k = j then { a.bindings.function j with cacheKeys := s.keys }
      else a.bindings.function j := by
    rw [ht]
    exact fun j => Bindings.function_modify hsize
  have hkeys : ∀ j < k, (t.bindings.function j).cacheKeys = (a.bindings.function j).cacheKeys := by
    intro j hj
    rw [hfunction, if_neg (by omega)]
  have hlast : (t.bindings.function k).cacheKeys = s.keys := by rw [hfunction, if_pos rfl]
  clear ht
  constructor
  case enriches => exact henriches
  case later =>
    intro j hj
    rw [hfunction, if_neg (by omega)]
    exact ha.later j (by omega)
  case tables =>
    intro j hj
    rcases Nat.lt_succ_iff_lt_or_eq.1 hj with hlt | rfl
    . obtain ⟨hnodup, hused, hfound⟩ := ha.tables j hlt
      rw [hkeys j hlt, hslots]
      refine ⟨hnodup, hused, fun p hp => ?_⟩
      rw [hothers]
      . exact hfound p hp
      . intro hp'
        obtain ⟨q, hq, heq⟩ := List.mem_map.1 hp'
        have hleft := inTree_of_mem_accessed (mem_accessed_of_mem_accessesOf hp)
        have hright := inTree_of_mem_accessed (mem_accessed_of_mem_accessesOf hq)
        have := hb.unique j k _ hleft (heq ▸ hright)
        omega
    . rw [hlast, hslots]
      exact ⟨htables.nodup, haccesses ▸ htables.used, haccesses ▸ htables.slots⟩
  case only =>
    intro x slot hx
    by_cases hmem : x ∈ (accessesOf b k).map (·.1.id)
    . exact ⟨k, Nat.lt_succ_self k, hmem⟩
    . rw [hslots, hothers x hmem] at hx
      obtain ⟨j, hj, hmem⟩ := ha.only x slot hx
      exact ⟨j, by omega, hmem⟩
  case members =>
    rw [hstats, hmembers, ha.members, List.range_succ, List.map_append, List.sum_append]
    simp
  case sorts =>
    have := ha.sorts
    rw [hstats]
    dsimp only at hsorts
    omega
  case total =>
    have hsum : ((List.range k).map fun i => (t.bindings.function i).cacheKeys.length) =
        (List.range k).map fun i => (a.bindings.function i).cacheKeys.length :=
      List.map_congr_left fun i hi => by rw [hkeys i (List.mem_range.1 hi)]
    have hbefore := ha.total
    rw [hstats, List.range_succ, List.map_append, List.sum_append, hsum, ← hbefore,
      List.map_singleton,
      List.sum_singleton, hlast]
    simpa using htotal

theorem staged_functions (hb : b.Apart) {n : Nat} (hk : k + n = b.functions.size)
    (ha : Staged b k a) {u : Unit} (h : Ends (functions (List.range' k n)) a u t) :
    Staged b b.functions.size t := by
  induction n generalizing k a with
  | zero =>
    obtain ⟨-, rfl⟩ := ends_pure.1 h
    rwa [← hk]
  | succ n ih =>
    rw [List.range'_succ] at h
    obtain ⟨s, s', hslots, ⟨henriches, hsame⟩, hrest⟩ :=
      ((permitsSlots_enriches k).toPermitsShapes.and (permitsShapes_sameTables k)).ends_functions
        (fun _ _ _ h => ⟨keeps_globalizeNames k _ _ _ h, keeps_globalizeNames_sameTables k _ _ _ h⟩)
          h
    have hstep := staged_assignSlots hb (by omega) ha hslots
    exact ih (by omega) (hstep.sameTables henriches hsame (Nat.lt_succ_self k)) hrest

end Analyze

theorem Analysis.staged_of {b : Bindings} {a : Analysis} (hb : b.Apart)
    (h : Analysis.of b = .ok a) :
    Analyze.Staged b b.functions.size a := by
  have hrun := ends_of_run h
  rw [List.range_eq_range'] at hrun
  refine Analyze.staged_functions hb (Nat.zero_add _) ?_ hrun
  constructor
  case enriches => exact .refl b
  case later => exact fun _ _ => rfl
  case tables => exact fun i hi => absurd hi (Nat.not_lt_zero i)
  case only =>
    intro x slot hx
    simp at hx
  all_goals rfl

def Analyzed (tree : Node) (counters : Counters) (b : Bindings) (a : Analysis) : Prop :=
  ∃ e, Extraction.of tree counters = .ok e ∧ Bindings.of e = .ok b ∧ Analysis.of b = .ok a

theorem Analyzed.staged {tree : Node} {counters : Counters} {b : Bindings} {a : Analysis}
    (hscript : tree.IsScript counters.node) (h : Analyzed tree counters b a) :
    b.Apart ∧ Analyze.Staged b b.functions.size a := by
  obtain ⟨e, he, hb, ha⟩ := h
  have hapart := Bindings.apart_of (Extraction.isSplit_of hscript he) hb
  exact ⟨hapart, Analysis.staged_of hapart ha⟩

namespace Analyze

open Cache Event

variable {b : Bindings} {a : Analysis} {i d : Nat} {n m : Node} {path : List String}
  {before between rest : List Event}

def LeadsFrom (b : Bindings) (d : Nat) (path : List String) (n : Node) : Prop :=
  ∃ start, route? n = some (start, path) ∧ start.kind = .identifier ∧
    b.use? start = some (.direct d)

theorem leadsFrom_iff : LeadsFrom b d path n ↔ ((route? n).any fun r =>
    r.1.kind == .identifier && b.use? r.1 == some (.direct d) && r.2 == path) = true := by
  simp only [LeadsFrom, Option.any_eq_true, Bool.and_eq_true, beq_iff_eq]
  constructor
  . rintro ⟨start, hroute, hkind, huse⟩
    exact ⟨_, hroute, ⟨hkind, huse⟩, rfl⟩
  . rintro ⟨⟨start, _⟩, hroute, ⟨hkind, huse⟩, rfl⟩
    exact ⟨start, hroute, hkind, huse⟩

instance : Decidable (LeadsFrom b d path n) := decidable_of_iff _ leadsFrom_iff.symm

theorem reads?_of_leadsFrom (h : LeadsFrom b d path n) (hkind : n.kind = .member)
    (generation : Nat → Nat) : reads? b generation n =
      some ⟨.binding (b.decl d).name d (generation d), path⟩ := by
  obtain ⟨⟨id, span, label, parts⟩, hroute, hstart, huse⟩ := h
  rw [reads?_eq hkind, hroute, Option.bind_some]
  cases label with
  | identifier name => simp [origin?, Node.label, huse]
  | _ => cases hstart

theorem mem_accesses_of_leadsFrom (h : LeadsFrom b d path n) (hkind : n.kind = .member)
    (generation : Nat → Nat) (before rest : List Event) :
    (n, ⟨.binding (b.decl d).name d (after b generation before d), path⟩) ∈
      accesses b generation (before ++ .access n :: rest) := by
  rw [accesses_append, accesses, reads?_of_leadsFrom h hkind]
  exact List.mem_append_right _ List.mem_cons_self

theorem mem_assigned_iff {t x : Node} : x ∈ assigned t ↔ t.Assigns x := by
  rcases t with ⟨id, span, label, parts⟩
  cases label with
  | variableDeclaration binds =>
    simp only [assigned, Node.label, List.mem_flatMap]
    constructor
    . rintro ⟨declarator, hd, hx⟩
      cases hp : declarator.part? .name with
      | none =>
        rw [hp] at hx
        cases hx
      | some p =>
        rw [hp] at hx
        exact .declaration rfl hd hp (Node.mem_bound_iff.1 hx)
    . rintro (hx | ⟨-, hd, hp, hx⟩)
      . exact absurd (Node.mem_bound_iff.2 hx) List.not_mem_nil
      . exact ⟨_, hd, by rw [hp]; exact Node.mem_bound_iff.2 hx⟩
  | _ =>
    refine Node.mem_bound_iff.trans ⟨.pattern, ?_⟩
    rintro (hx | ⟨hkind, -⟩)
    . exact hx
    . cases hkind

/-- The events that give a declaration a new value. -/
def Cache.Event.Assigns (b : Bindings) (d : Nat) : Event → Prop
  | .store target => ∃ x, target.Assigns x ∧ b.resolved? x = some d
  | .setThis d' => d' = d
  | .access _ => False

theorem mem_changed_iff {e : Event} : d ∈ e.changed b ↔ e.Assigns b d := by
  cases e with
  | store target => simp only [changed, Event.Assigns, List.mem_filterMap, mem_assigned_iff]
  | setThis d' => simp [changed, Event.Assigns, eq_comm]
  | access n => simp [changed, Event.Assigns]

theorem slots_follow_assignments {tree : Node} {counters : Counters}
    (hscript : tree.IsScript counters.node) (hanalyzed : Analyzed tree counters b a)
    (hevents : ofFunction b i (b.function i) =
      before ++ .access n :: (between ++ .access m :: rest))
    (hn : LeadsFrom b d path n) (hm : LeadsFrom b d path m) :
    ∃ slot slot', a.slots.get? n.id = some slot ∧ a.slots.get? m.id = some slot' ∧
      (slot = slot' ↔ ¬∃ e ∈ between, e.Assigns b d) := by
  obtain ⟨-, hstaged⟩ := hanalyzed.staged hscript
  have hkind : ∀ c, .access c ∈ ofFunction b i (b.function i) → c.kind = .member :=
    fun c hc => kind_of_mem_accessed (List.mem_filterMap.2 ⟨_, hc, rfl⟩)
  rw [hevents] at hkind
  have hnkind := hkind n (by simp)
  have hmkind := hkind m (by simp)
  have hi : i < b.functions.size := by
    refine Nat.lt_of_not_le fun hle => ?_
    have hdefault : b.function i = default := by
      rw [Bindings.function, Array.getD_eq_getD_getElem?, Array.getElem?_eq_none hle]
      rfl
    rw [hdefault] at hevents
    have hnil : ofFunction b i default = [] := rfl
    rw [hnil] at hevents
    exact absurd hevents.symm (by simp)
  have hfirst := mem_accesses_of_leadsFrom hn hnkind (fun _ => 0) before
    (between ++ .access m :: rest)
  have hsecond := mem_accesses_of_leadsFrom hm hmkind (fun _ => 0)
    (before ++ .access n :: between) rest
  rw [← hevents] at hfirst
  rw [List.append_assoc, List.cons_append, ← hevents] at hsecond
  have htables := hstaged.tables i hi
  obtain ⟨slot, hslot, -⟩ := htables.slots _ hfirst
  obtain ⟨slot', hslot', -⟩ := htables.slots _ hsecond
  have hshare := htables.slot_eq_iff hfirst hsecond
  rw [hslot, hslot', key_eq_iff, Option.some.injEq] at hshare
  refine ⟨slot, slot', hslot, hslot', hshare.trans ?_⟩
  have hcount : after b (fun _ => 0) (before ++ .access n :: between) d =
      after b (fun _ => 0) before d + (between.flatMap (·.changed b)).count d := by
    simp only [after, bump, List.flatMap_append, List.flatMap_cons, Event.changed, List.nil_append,
      List.count_append, Nat.add_assoc]
  rw [hcount, eq_comm, Nat.add_eq_left, List.count_eq_zero, List.mem_flatMap]
  simp only [mem_changed_iff]

/-- The script `var a; a.b; for (var a of "") a.b;`. -/
def reassignedScript : Node :=
  let statement (id : Nat) (n : Node) : Node := .mk id default .expressionStatement
    [.node .expression n]
  let declaration (id : Nat) : Node := .mk id default (.variableDeclaration .var)
    [.node .item (.mk (id + 1) default .declarator [.node .name (accessVariable (id + 2))])]
  .mk 0 default .program
    [.node .item (declaration 1), .node .item (statement 4 (accessMember 5 (accessVariable 7) "b")),
      .node .item (.mk 8 default .forOfStatement [.node .left (declaration 9),
        .node .right (.mk 12 default (.literal (.string "") "") []),
        .node .body (statement 13 (accessMember 14 (accessVariable 16) "b"))])]

theorem eq_ok_of_toOption {ε α : Type} {x : Except ε α} {y : α} (h : x.toOption = some y) :
    x = .ok y := by
  cases x <;> cases h
  rfl

def reassigned? : List Event → Option (Node × Node × Node)
  | [.access n, .store t, .access m] => some (n, t, m)
  | _ => none

theorem eq_of_reassigned? {es : List Event} {t : Node} (h : reassigned? es = some (n, t, m)) :
    es = [.access n, .store t, .access m] := by
  unfold reassigned? at h
  split at h
  . cases h
    rfl
  . cases h

theorem slots_follow_assignments_reassigned :
    ∃ b a n t m, reassignedScript.IsScript 17 ∧ Analyzed reassignedScript ⟨17, 0⟩ b a ∧
      ofFunction b 0 (b.function 0) = [] ++ .access n :: ([.store t] ++ .access m :: []) ∧
      LeadsFrom b 3 ["b"] n ∧ LeadsFrom b 3 ["b"] m ∧ t.kind = .variableDeclaration ∧
      ∃ slot slot', a.slots.get? n.id = some slot ∧ a.slots.get? m.id = some slot' ∧
        (slot = slot' ↔ ¬∃ e ∈ [Event.store t], e.Assigns b 3) := by
  have hscript : reassignedScript.IsScript 17 := by decide +kernel
  have hok : ((Extraction.of reassignedScript ⟨17, 0⟩).toOption.bind fun e =>
      (Bindings.of e).toOption.bind fun b => (Analysis.of b).toOption.bind fun _ =>
        (reassigned? (ofFunction b 0 (b.function 0))).map fun r =>
          decide (LeadsFrom b 3 ["b"] r.1 ∧ LeadsFrom b 3 ["b"] r.2.2 ∧
            r.2.1.kind = .variableDeclaration)) = some true := by
    cbv
  simp only [Option.bind_eq_some_iff, Option.map_eq_some_iff, decide_eq_true_eq] at hok
  obtain ⟨e, he, b, hb, a, ha, ⟨n, t, m⟩, hr, hn, hm, hkind⟩ := hok
  have hanalyzed : Analyzed reassignedScript ⟨17, 0⟩ b a :=
    ⟨e, eq_ok_of_toOption he, eq_ok_of_toOption hb, eq_ok_of_toOption ha⟩
  have hevents : ofFunction b 0 (b.function 0) = [] ++ .access n ::
    ([.store t] ++ .access m :: []) :=
    eq_of_reassigned? hr
  exact ⟨b, a, n, t, m, hscript, hanalyzed, hevents, hn, hm, hkind,
    slots_follow_assignments hscript hanalyzed hevents hn hm⟩

end Analyze
end ScriptC
