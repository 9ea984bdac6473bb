import ScriptC.Analysis.Run
import ScriptC.Proofs.Pass
import ScriptC.Proofs.Table

/-!
What the analyses change. A relation between analyses that permits the few kinds of changes holds
over each of the passes.
-/

namespace ScriptC

open Pass

def Function.given (f : Function) : Function :=
  { f with
    node := default, cacheKeys := [], newShape := none, hasTry := false, length := 0
    stackDepth := 0
    injectYield := false, notConstructor := false, coroutineKind := 0 }

def Stats.ofAccesses (s : Stats) : List Nat :=
  [s.memberSites, s.cacheableSites, s.uncacheableSites, s.withSites, s.cacheSlots]

namespace Analyze

theorem ends_function_bind {fn : Nat} {β : Type} {g : Function → Analyze β} {a a' : Analysis}
    {x : β} : Ends (function fn >>= g) a x a' ↔ Ends (g (a.bindings.function fn)) a x a' := .rfl

theorem ends_assignSlots {fn : Nat} {a a' : Analysis} (h : Ends (assignSlots fn) a () a') :
    ∃ s, Ends (Cache.all (a.bindings.function fn))
        { bindings := a.bindings, fn, slots := a.slots, stats := a.stats } () s ∧
      a' = { a with
        slots := s.slots, stats := s.stats
        bindings := { a.bindings with
          functions := a.bindings.functions.modify fn fun f =>
            { f with cacheKeys := s.keys } } } := by
  unfold assignSlots at h
  rw [ends_get_bind] at h
  obtain ⟨⟨⟨⟩, s⟩, t, hr, hrest⟩ := ends_bind.1 h
  obtain ⟨hr, ht⟩ := ends_lift.1 hr
  rw [ht, ends_modify_bind] at hrest
  exact ⟨s, hr, ends_modify.1 hrest⟩

structure Permits (fn : Nat) (R : Analysis → Analysis → Prop) : Prop extends IsSteady R where
  stats : ∀ a stats, stats.ofAccesses = a.stats.ofAccesses → R a { a with stats }
  string : ∀ a value isKey, R a { a with literals := (a.literals.string value isKey).2 }
  bigint : ∀ a digits, R a { a with literals := (a.literals.bigint digits).2 }
  numbers : ∀ a, R a { a with
    bindings := { a.bindings with
      counters := { a.bindings.counters with node := a.bindings.counters.node + 2 } } }
  volatile : ∀ a d, R a { a with
    bindings := { a.bindings with
      decls := a.bindings.decls.modify d fun d => { d with isVolatile := true } } }
  record : ∀ a change, (∀ f : Function, (change f).node = f.node ∧ (change f).given = f.given ∧
      (change f).cacheKeys = f.cacheKeys) →
    R a { a with
      bindings := { a.bindings with functions := a.bindings.functions.modify fn change } }

namespace Permits

variable {fn : Nat} {R : Analysis → Analysis → Prop} (h : Permits fn R)

include h

theorem modifyStats {change : Stats → Stats}
    (hchange : ∀ s, (change s).ofAccesses = s.ofAccesses) : Keeps R (modifyStats change) :=
  .modify fun a => h.stats a _ (hchange a.stats)

theorem keepsString (value : String) (isKey : Bool) : Keeps R (Analyze.string value isKey) := by
  apply Keeps.get_bind
  intro a name a' hrun
  cases hrun
  exact h.string a value isKey

theorem keepsBigint (digits : String) : Keeps R (Analyze.bigint digits) := by
  apply Keeps.get_bind
  intro a name a' hrun
  cases hrun
  exact h.bigint a digits

theorem function (j : Nat) : Keeps R (Analyze.function j) :=
  .bind h.toIsSteady (.get h.toIsSteady) fun _ => .pure h.toIsSteady _

theorem modifyFunction {change : Function → Function}
    (hchange : ∀ f, (change f).node = f.node ∧ (change f).given = f.given ∧
      (change f).cacheKeys = f.cacheKeys) :
    Keeps R (modifyFunction fn change) :=
  .modify fun a => h.record a change hchange

theorem collectAt (place : Option Place) (n : Node) : Keeps R (collectAt place n) := by
  have hR := h.toIsSteady
  have hadd : ∀ isKey value, Keeps R (do let _ ← Analyze.string value isKey : Analyze Unit) :=
    fun isKey value => .bind hR (h.keepsString value isKey) fun _ => .pure hR _
  unfold Analyze.collectAt
  dsimp only
  split
  . exact hadd _ _
  . exact .bind hR (h.keepsBigint _) fun _ => .pure hR _
  . exact .bind hR (.lift hR _) fun _ => .bind hR (hadd _ _) fun _ => hadd _ _
  . exact .forM_option hR fun _ _ => hadd _ _
  . apply Keeps.bind hR (.get hR)
    intro a
    split
    . exact hadd _ _
    . exact hadd _ _
    . exact .pure hR _
  . apply Keeps.bind hR
    . apply Keeps.forIn hR
      intro x _ r
      split
      . exact .bind hR (hadd _ _) fun _ => .pure hR _
      . exact .pure hR _
    . intro _
      split
      . apply Keeps.bind hR
        . exact .forIn hR fun _ _ _ => .bind hR (hadd _ _) fun _ => .pure hR _
        . exact fun _ => .pure hR _
      . exact .pure hR _
  . exact hadd _ _
  . exact .pure hR _

theorem collectStrings (j : Nat) : Keeps R (collectStrings j) := by
  have hR := h.toIsSteady
  refine .bind hR (h.function j) fun f => .bind hR (h.keepsString _ _) fun _ => .bind hR ?_ fun _ =>
    .modify fun a => h.stats a _ rfl
  exact .forIn hR fun x _ _ => .bind hR (h.collectAt x.1 x.2) fun _ => .pure hR _

theorem globalMember (n : Node) : Keeps R (globalMember n) := by
  have hR := h.toIsSteady
  apply Keeps.get_bind
  intro a m a' hrun
  rw [ends_modify_bind] at hrun
  obtain ⟨_, t, hstring, hrun⟩ := ends_bind.1 hrun
  obtain ⟨-, rfl⟩ := ends_pure.1 hrun
  exact hR.trans (h.numbers a) (h.keepsString _ _ _ _ _ hstring)

theorem globalize (n : Node) : Keeps R (globalize n) := by
  have hR := h.toIsSteady
  refine .bind hR (.get hR) fun a => .ite (fun _ => ?_) fun _ => .pure hR _
  exact .bind hR (h.modifyStats fun _ => rfl) fun _ => .ite (fun _ => .pure hR _) fun _ =>
    .map (h.globalMember n)

theorem markVolatile (d : Nat) : Keeps R (markVolatile d) := by
  have hR := h.toIsSteady
  refine .bind hR (.get hR) fun a => .ite (fun _ => .pure hR _) fun _ => ?_
  exact .bind hR (.modify fun a => h.volatile a d) fun _ => h.modifyStats fun _ => rfl

theorem markAround (block : Node) : Keeps R (markAround fn block) := by
  have hR := h.toIsSteady
  refine .bind hR (h.function fn) fun f => .bind hR (.get hR) fun a =>
    .ite (fun _ => .pure hR _) fun _ => .bind hR (.forIn hR ?_) fun _ => .pure hR _
  rintro ⟨place, n⟩ _ r
  dsimp only
  split
  . split
    . split
      . exact .bind hR (h.markVolatile _) fun _ => .pure hR _
      . exact .pure hR _
    . exact .pure hR _
  . exact .pure hR _

theorem findVolatiles : Keeps R (findVolatiles fn) := by
  have hR := h.toIsSteady
  refine .bind hR (h.function fn) fun f => .ite (fun _ => .pure hR _) fun _ =>
    .bind hR (h.modifyFunction ?_) fun _ => .bind hR (.forIn hR ?_) fun _ => .pure hR _
  . exact fun f => ⟨rfl, rfl, rfl⟩
  . intro t _ r
    exact .bind hR (.forM_option hR fun _ _ => h.markAround _) fun _ => .pure hR _

theorem measureCalls : Keeps R (measureCalls fn) :=
  h.modifyFunction fun _ => ⟨rfl, rfl, rfl⟩

theorem markCoroutine : Keeps R (markCoroutine fn) := by
  refine h.modifyFunction fun f => ?_
  dsimp only
  split <;> exact ⟨rfl, rfl, rfl⟩

end Permits

structure PermitsShapes (fn : Nat) (R : Analysis → Analysis → Prop) : Prop
    extends Permits fn R where
  shapes : ∀ a shapes, R a { a with shapes }
  shape : ∀ a props, R a { a with literals := (a.literals.shape props).2 }

namespace PermitsShapes

variable {fn : Nat} {R : Analysis → Analysis → Prop}

theorem keepsShape (h : PermitsShapes fn R) (props : List String) :
    Keeps R (Analyze.shape props) := by
  apply Keeps.get_bind
  intro a s a' hrun
  cases hrun
  exact h.shape a props

theorem literalShape (h : PermitsShapes fn R) (n : Node) : Keeps R (literalShape n) := by
  have hR := h.toIsSteady
  refine .ite (fun _ => .pure hR _) fun _ => ?_
  split
  . exact .pure hR _
  . exact .bind hR (h.keepsShape _) fun s => .bind hR (.modify fun a => h.shapes a _) fun _ =>
      .pure hR _

theorem findShapes (h : PermitsShapes fn R) : Keeps R (findShapes fn) := by
  have hR := h.toIsSteady
  have hcount : Keeps R (modify fun a =>
      { a with stats := { a.stats with shapes := a.literals.shapeCount } } : Analyze PUnit) :=
    .modify fun a => h.stats a _ rfl
  refine .bind hR (h.function fn) fun f => .bind hR (.forIn hR ?_) fun _ =>
    .bind hR (.forIn hR ?_) fun _ => ?_
  . intro x _ r
    refine .bind hR (h.literalShape x.2) fun _ => .ite (fun _ => ?_) fun _ => .pure hR _
    exact .bind hR (h.modifyStats fun _ => rfl) fun _ => .pure hR _
  . exact fun x _ r => .bind hR (h.literalShape x.2) fun _ => .pure hR _
  . dsimp only
    split
    . split
      . exact hcount
      . refine .bind hR (h.keepsShape _) fun s => .bind hR (h.modifyFunction ?_) fun _ =>
          .bind hR (h.modifyStats fun _ => rfl) fun _ => hcount
        exact fun f => ⟨rfl, rfl, rfl⟩
    . exact hcount

theorem and {R' : Analysis → Analysis → Prop} (h : PermitsShapes fn R) (h' : PermitsShapes fn R') :
    PermitsShapes fn fun a a' => R a a' ∧ R' a a' where
  refl a := ⟨h.refl a, h'.refl a⟩
  trans hst htu := ⟨h.trans hst.1 htu.1, h'.trans hst.2 htu.2⟩
  stats a s hs := ⟨h.stats a s hs, h'.stats a s hs⟩
  string a value isKey := ⟨h.string a value isKey, h'.string a value isKey⟩
  bigint a digits := ⟨h.bigint a digits, h'.bigint a digits⟩
  numbers a := ⟨h.numbers a, h'.numbers a⟩
  volatile a d := ⟨h.volatile a d, h'.volatile a d⟩
  record a change hc := ⟨h.record a change hc, h'.record a change hc⟩
  shapes a s := ⟨h.shapes a s, h'.shapes a s⟩
  shape a props := ⟨h.shape a props, h'.shape a props⟩

theorem ends_functions (h : PermitsShapes fn R) (hglobal : Keeps R (globalizeNames fn))
    {list : List Nat} {u : Unit} {a a' : Analysis} (hrun : Ends (functions (fn :: list)) a u a') :
    ∃ t t', Ends (assignSlots fn) a () t ∧ R t t' ∧ Ends (functions list) t' u a' := by
  have hR := h.toIsSteady
  rw [Analyze.functions] at hrun
  obtain ⟨_, t, hslots, hrun⟩ := ends_bind.1 hrun
  obtain ⟨_, t₁, h₁, hrun⟩ := ends_bind.1 hrun
  obtain ⟨_, t₂, h₂, hrun⟩ := ends_bind.1 hrun
  obtain ⟨_, t₃, h₃, hrun⟩ := ends_bind.1 hrun
  obtain ⟨_, t₄, h₄, hrun⟩ := ends_bind.1 hrun
  obtain ⟨_, t₅, h₅, hrun⟩ := ends_bind.1 hrun
  obtain ⟨_, t₆, h₆, hrun⟩ := ends_bind.1 hrun
  obtain ⟨_, t₇, h₇, hrun⟩ := ends_bind.1 hrun
  refine ⟨t, t₇, hslots, ?_, hrun⟩
  have hsecond := hR.trans (h.collectStrings fn _ _ _ h₁) (h.findShapes _ _ _ h₂)
  have hfourth := hR.trans (hR.trans hsecond (hglobal _ _ _ h₃)) (h.findVolatiles _ _ _ h₄)
  have hsixth := hR.trans (hR.trans hfourth (h.measureCalls _ _ _ h₅)) (h.markCoroutine _ _ _ h₆)
  obtain rfl := ends_modify.1 h₇
  exact hR.trans hsixth (h.stats _ _ rfl)

end PermitsShapes

structure PermitsSlots (fn : Nat) (R : Analysis → Analysis → Prop) : Prop
    extends PermitsShapes fn R where
  slots : ∀ a slots stats keys, R a { a with
    slots, stats
    bindings := { a.bindings with
      functions := a.bindings.functions.modify fn fun f => { f with cacheKeys := keys } } }

namespace PermitsSlots

variable {fn : Nat} {R : Analysis → Analysis → Prop}

theorem assignSlots (h : PermitsSlots fn R) : Keeps R (assignSlots fn) := by
  intro a _ a' hrun
  obtain ⟨s, -, rfl⟩ := ends_assignSlots hrun
  exact h.slots a _ _ _

theorem functions {list : List Nat} (hR : IsSteady R) (h : ∀ fn ∈ list, PermitsSlots fn R)
    (hglobal : ∀ fn ∈ list, Keeps R (globalizeNames fn)) : Keeps R (functions list) := by
  induction list with
  | nil => exact .pure hR _
  | cons fn rest ih =>
    rw [List.forall_mem_cons] at h hglobal
    intro a u a' hrun
    obtain ⟨t, t', hslots, hpasses, hrest⟩ := h.1.ends_functions hglobal.1 hrun
    exact hR.trans (hR.trans (h.1.assignSlots _ _ _ hslots) hpasses)
      (ih h.2 hglobal.2 _ _ _ hrest)

end PermitsSlots
end Analyze
end ScriptC
