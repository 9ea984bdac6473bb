import ScriptC.Proofs.Analysis.Tables
import ScriptC.Proofs.Flow.Closures

/-!
The cache slots of a script and the code that uses them. Every member access is counted once, those
whose key is known have a slot, and the code of a function stays within the slots that it is made
with.
-/

namespace ScriptC

inductive Node.StartsFrom : Node → Node → Prop where
  | self {n : Node} (h : n.kind ≠ .member) : n.StartsFrom n
  | link {n o m : Node} (h : n.kind = .member) (ho : n.part? .object = some o)
    (hm : o.StartsFrom m) :
    n.StartsFrom m

namespace Analyze.Cache

variable {b : Bindings} {generation : Nat → Nat} {n m : Node}

theorem unroll_routeStep_eq {depth : Nat} {r : Node × List String} (h : n.StartsFrom m)
    (hroute : Node.unroll routeStep (fun _ => none) depth n = some r) : r.1 = m := by
  induction h generalizing depth r with
  | @self n hkind =>
    cases depth with
    | zero => cases hroute
    | succ depth =>
      rcases n with ⟨id, span, label, parts⟩
      cases label with
      | member computed optional => exact absurd rfl hkind
      | _ =>
        cases hroute
        rfl
  | @link n o m hkind ho _ ih =>
    cases depth with
    | zero => cases hroute
    | succ depth =>
      rcases n with ⟨id, span, label, parts⟩
      cases label with
      | member computed optional =>
        simp only [Node.unroll, routeStep, Node.label, ho, Option.bind_eq_bind, Option.bind_some,
          Option.bind_eq_some_iff, Option.pure_def, Option.some.injEq] at hroute
        obtain ⟨name, -, r', hroute, rfl⟩ := hroute
        exact ih (r := r') hroute
      | _ => cases hkind

theorem access?_eq_none_of_startsFrom (h : n.StartsFrom m) (hkind : m.kind = .identifier)
    (huse : ∀ d, b.use? m ≠ some (.direct d)) : access? b generation n = none := by
  rw [access?_eq, Option.bind_eq_none_iff]
  intro r hroute
  rw [unroll_routeStep_eq h hroute, Option.map_eq_none_iff]
  rcases m with ⟨id, span, label, parts⟩
  cases label with
  | identifier name => simp only [origin?, Node.label]
  | _ => cases hkind

theorem access?_eq_none_of_memberName? (hkind : n.kind = .member) (h : n.memberName? = none) :
    access? b generation n = none := by
  rcases n with ⟨id, span, label, parts⟩
  cases label with
  | member computed optional =>
    unfold access? Node.fix
    simp only [Node.height, Node.unroll, accessStep, Node.label, h]
    rfl
  | _ => cases hkind

theorem isSome_access? (generation' : Nat → Nat) :
    (access? b generation n).isSome = (access? b generation' n).isSome := by
  rw [access?_eq, access?_eq]
  cases route? n with
  | none => rfl
  | some r =>
    simp only [Option.bind_some, Option.isSome_map, origin?]
    split <;> try rfl
    split <;> rfl

end Analyze.Cache

namespace Analyze

open Cache Event

variable {b : Bindings} {a : Analysis} {i : Nat} {n : Node}

theorem mem_accessesOf_iff (hi : (b.function i).IsRegular) (hn : n ∈ (b.function i).ownNodes)
    (hkind : n.kind = .member) :
    n ∈ (accessesOf b i).map (·.1) ↔ (access? b (fun _ => 0) n).isSome = true := by
  rw [accessesOf, accesses_map_eq fun m => kind_of_mem_accessed, List.mem_filter,
    and_iff_right (mem_accessed_ofFunction hi hn hkind), reads?_eq hkind, access?_eq]

theorem Staged.slot_isSome_iff (hb : b.Apart) (h : Staged b b.functions.size a)
    (hi : i < b.functions.size) (hregular : (b.function i).IsRegular)
    (hn : n ∈ (b.function i).ownNodes) (hkind : n.kind = .member) :
    (a.slots.get? n.id).isSome = true ↔ (access? b (fun _ => 0) n).isSome = true := by
  have hself : n ∈ accessed (ofFunction b i (b.function i)) := mem_accessed_ofFunction
    hregular hn hkind
  rw [← mem_accessesOf_iff hregular hn hkind]
  constructor
  . intro hslot
    obtain ⟨slot, hslot⟩ := Option.isSome_iff_exists.1 hslot
    obtain ⟨j, -, hmem⟩ := h.only n.id slot hslot
    obtain ⟨p, hp, hid⟩ := List.mem_map.1 hmem
    have haccessed := mem_accessed_of_mem_accessesOf hp
    have hp' := inTree_of_mem_accessed haccessed
    rw [hid] at hp'
    obtain rfl := hb.unique j i _ hp' (inTree_of_mem_accessed hself)
    -- Numbers tell the accesses of a function apart.
    have hnodup : ((accessed (ofFunction b j (b.function j))).map (·.id)).Nodup :=
      List.nodup_iff_count_le_one.2 fun x => Nat.le_trans (times_ofFunction_le _) (hb.once j x)
    rw [← List.inj_on_of_nodup_map hnodup haccessed hself hid]
    exact List.mem_map_of_mem hp
  . intro hmem
    obtain ⟨p, hp, rfl⟩ := List.mem_map.1 hmem
    obtain ⟨slot, hslot, -⟩ := (h.tables i hi).slots p hp
    rw [hslot]
    rfl

theorem Staged.exists_site (h : Staged b b.functions.size a) (hi : i < b.functions.size) {k : Nat}
    (hk : k < (a.bindings.function i).cacheKeys.length) :
    ∃ n ∈ (b.function i).ownNodes, n.kind = .member ∧ a.slots.get? n.id = some k := by
  have htables := h.tables i hi
  obtain ⟨p, hp, hkey⟩ := htables.used _ (List.getElem_mem hk)
  obtain ⟨slot, hslot, hfound⟩ := htables.slots p hp
  obtain ⟨hn, hkind⟩ := accessed_ofFunction_subset (mem_accessed_of_mem_accessesOf hp)
  refine ⟨p.1, hn, hkind, ?_⟩
  rw [hkey, ← List.getElem?_eq_getElem hk] at hfound
  have hlt := (List.getElem?_eq_some_iff.1 (hfound.trans (List.getElem?_eq_getElem hk))).1
  rw [hslot, (List.getElem?_inj hlt htables.nodup).1 hfound]

theorem countP_accessed (hb : b.Apart) (hregular : (b.function i).IsRegular) :
    (accessed (ofFunction b i (b.function i))).countP isSite =
      (b.function i).ownNodes.countP fun n => n.kind == .member && isSite n := by
  have hzero : Part.times 0 (b.function i).node.parts = 0 :=
    Nat.eq_zero_of_not_pos fun h => Nat.lt_irrefl 0 (hb.inTree i 0 h).1
  rw [(perm_accessed_ofFunction hregular (hb.once i) hzero).countP_eq, List.countP_filter]
  refine List.countP_congr fun n _ => ?_
  rw [Bool.and_comm]

end Analyze

namespace Lower

open Analyze Cache

variable {tree : Node} {counters : Counters} {e : Extraction} {b : Bindings} {plan : Plan}

theorem caches_of_staged (hb : b.Apart) (h : Analyze.Staged b b.functions.size plan.analysis) :
    Caches plan fun fn k => k < (plan.analysis.bindings.function fn).cacheKeys.length := by
  have hin : ∀ x slot, plan.analysis.slots.get? x = some slot → ∃ i < b.functions.size,
      0 < Part.times x (b.function i).node.parts ∧
        slot < (plan.analysis.bindings.function i).cacheKeys.length := by
    intro x slot hslot
    obtain ⟨i, hi, hmem⟩ := h.only x slot hslot
    obtain ⟨p, hp, rfl⟩ := List.mem_map.1 hmem
    obtain ⟨slot', hslot', hkey⟩ := (h.tables i hi).slots p hp
    rw [hslot] at hslot'
    cases hslot'
    exact ⟨i, hi, inTree_of_mem_accessed (mem_accessed_of_mem_accessesOf hp),
      (List.getElem?_eq_some_iff.1 hkey).1⟩
  constructor
  case zero =>
    intro fn slot hslot
    obtain ⟨i, -, hpos, -⟩ := hin 0 slot hslot
    exact absurd (hb.inTree i 0 hpos).1 (Nat.lt_irrefl 0)
  case node =>
    intro fn m hm slot hslot
    obtain ⟨i, -, hpos, hlt⟩ := hin m.id slot hslot
    have hid : ∀ m₁ ∈ Part.nodes (b.function fn).node.parts, m.id = m₁.id → i = fn := by
      intro m₁ hm₁ hid
      exact hb.unique i fn _ hpos (hid ▸ Part.times_pos_of_mem hm₁)
    rcases h.enriches.trees fn m hm with ⟨m₁, hm₁, hshape⟩ | ⟨-, hlow | ⟨m₁, hm₁, hid'⟩⟩
    . exact hid m₁ hm₁ (Node.id_of_shape hshape) ▸ hlt
    . have := (hb.inTree i _ hpos).2
      omega
    . exact hid m₁ hm₁ hid' ▸ hlt

/-- The arguments of a call that makes a function: the code and the number of its cache slots. -/
def GivesCount (b : Bindings) (args : List C.Expr) : Prop :=
  ∃ child < b.functions.size, args[1]? = some (.var (b.function child).cname) ∧
    args[5]? = some (.nat (b.function child).cacheKeys.length)

theorem HandsOn.givesCount {b : Bindings} {names : CNames} {fn : Nat} {args : List C.Expr}
    (h : HandsOn b names fn args) : GivesCount b args := by
  obtain ⟨child, name, cells, ⟨l, hl, -⟩, rfl, -⟩ := h
  have hlt := (Array.getElem?_eq_some_iff.1 hl).1
  rw [Bindings.lineage, Array.size_map] at hlt
  exact ⟨child, hlt, rfl, rfl⟩

/-- Code that uses the slots of its function only, and makes functions with as many as they have. -/
structure StaysInside (b : Bindings) (fn : Nat) (st : C.Stmt) : Prop where
  exprs : ∀ x ∈ st.exprs, x.Every {
    allows f args := f = Engine.newFunction → GivesCount b args
    reads := C.Uses (· < (b.function fn).cacheKeys.length)
    stores := C.Uses (· < (b.function fn).cacheKeys.length)
    guards _ := False }
  lines : ∀ text ∈ st.texts, C.Uses (· < (b.function fn).cacheKeys.length) text

/--
The cache slots of a script. The keys of a function are numbered without gaps, accesses are counted
once, and code uses the slots that its function is made with.
-/
structure SlotsConsistent (b : Bindings) (plan : Plan) (code : String) : Prop where
  keys : ∀ i < b.functions.size, (plan.analysis.bindings.function i).cacheKeys.Nodup ∧
    ∀ k < (plan.analysis.bindings.function i).cacheKeys.length,
      ∃ n ∈ (b.function i).ownNodes, n.kind = .member ∧ plan.analysis.slots.get? n.id = some k
  places : ∀ i < b.functions.size, ∀ p ∈ accessesOf b i, ∃ slot,
    plan.analysis.slots.get? p.1.id = some slot ∧
      (plan.analysis.bindings.function i).cacheKeys[slot]? = some p.2.key
  known : ∀ i < b.functions.size, ∀ n ∈ (b.function i).ownNodes, n.kind = .member →
    ∀ s : CacheState, s.bindings = b →
      (plan.analysis.slots.get? n.id).isSome = (key? s n).isSome
  unknown : ∀ i < b.functions.size, ∀ n ∈ (b.function i).ownNodes, n.kind = .member →
    (n.memberName? = none ∨ ∃ m, n.StartsFrom m ∧ m.kind = .identifier ∧
      ∀ d, b.use? m ≠ some (.direct d)) → plan.analysis.slots.get? n.id = none
  members : plan.analysis.stats.memberSites = ((List.range b.functions.size).map fun i =>
    (b.function i).ownNodes.countP fun n => n.kind == .member && isSite n).sum
  sorts : plan.analysis.stats.memberSites = plan.analysis.stats.cacheableSites +
    plan.analysis.stats.uncacheableSites + plan.analysis.stats.withSites
  total : plan.analysis.stats.cacheSlots = ((List.range b.functions.size).map fun i =>
    (plan.analysis.bindings.function i).cacheKeys.length).sum
  code : ∃ blocks v program w, FileRun plan code blocks v program w ∧
    Makes (plan.analysis.bindings.function 0) [] program ∧
    List.Forall₂ (StaysInside plan.analysis.bindings) (List.range b.functions.size) blocks

/-- The script `this.b; c.d;`. -/
def accessScript : Node :=
  let statement (id : Nat) (n : Node) : Part :=
    .node .item (.mk id default .expressionStatement [.node .expression n])
  .mk 0 default .program [statement 1 (accessMember 2 (.mk 4 default .this []) "b"),
    statement 5 (accessMember 6 (.mk 8 default (.identifier "c") []) "d")]

end Lower
end ScriptC
