import Mathlib.Data.List.Forall2
import ScriptC.Proofs.Pass
import ScriptC.Function.Extract

/-!
The records of the functions that a script is taken apart into. The number in the C name of each is
larger than those of the functions before it.
-/

namespace ScriptC

open Pass

namespace Extract

structure IsRecord (u : Nat) (f : Function) : Prop where
  cname : f.cname = s!"func_{C.identText f.name}_{u}"
  notArrow : f.isConstructor = true → f.isArrow = false

structure Recorded (seed : Nat) (s : Extraction) : Prop where
  le : seed ≤ s.counters.name
  numbers : ∃ us : List Nat, us.Pairwise (· < ·) ∧ (∀ u ∈ us, seed < u ∧ u ≤ s.counters.name) ∧
    List.Forall₂ IsRecord us s.functions.toList

def Records (seed : Nat) (s s' : Extraction) : Prop := Recorded seed s → Recorded seed s'

variable {seed : Nat} {s s' : Extraction} {visit : Visit}

theorem isSteady_records (seed : Nat) : IsSteady (Records seed) :=
  ⟨fun _ => id, fun h h' hs => h' (h hs)⟩

theorem forall₂_modify {us : List Nat} {fs : List Function} {i : Nat} {change : Function → Function}
    (h : List.Forall₂ IsRecord us fs) (hchange : ∀ u f, IsRecord u f → IsRecord u (change f)) :
    List.Forall₂ IsRecord us (fs.modify i change) := by
  induction h generalizing i with
  | nil => simp
  | cons hf hrest ih =>
    cases i with
    | zero => exact .cons (hchange _ _ hf) hrest
    | succ i => exact .cons hf ih

theorem Recorded.modify (h : Recorded seed s) {i : Nat} {change : Function → Function}
    {finished : List Nat} (hchange : ∀ u f, IsRecord u f → IsRecord u (change f)) :
    Recorded seed { s with functions := s.functions.modify i change, finished } := by
  obtain ⟨us, hsorted, hbound, hall⟩ := h.numbers
  refine ⟨h.le, us, hsorted, hbound, ?_⟩
  rw [Array.toList_modify]
  exact forall₂_modify hall hchange

theorem records_modifyRecord {i : Nat} {change : Function → Function}
    (hchange : ∀ u f, IsRecord u f → IsRecord u (change f)) :
    Keeps (Records seed) (modify fun s => { s with functions := s.functions.modify i change } :
      Extract PUnit) :=
  .modify fun _ hs => hs.modify hchange

theorem records_freshNode : Keeps (Records seed) freshNode := by
  intro s id s' h hs
  unfold freshNode at h
  rw [ends_get_bind, ends_set_bind] at h
  obtain ⟨-, rfl⟩ := ends_pure.1 h
  exact ⟨hs.le, hs.numbers⟩

theorem records_setSite {id : Nat} :
    Keeps (Records seed)
      (modify fun s => { s with sites := s.sites.insert id s.functions.size } : Extract PUnit) :=
  .modify fun _ hs => ⟨hs.le, hs.numbers⟩

theorem records_visitParts (hvisit : ∀ fn place n, Keeps (Records seed) (visit fn place n))
    (fn : Nat)
    (place : Option Place) (parent : Node) (parts : List Part) :
    Keeps (Records seed) (visitParts visit fn place parent parts) := by
  have hR := isSteady_records seed
  induction parts with
  | nil => exact .pure hR _
  | cons p rest ih =>
    cases p with
    | node role c =>
      exact .bind hR (hvisit _ _ _) fun _ => .bind hR ih fun _ => .pure hR _
    | hole role => exact .bind hR ih fun _ => .pure hR _

theorem records_visitOption (hvisit : ∀ fn place n, Keeps (Records seed) (visit fn place n))
    (fn : Nat)
    (place : Option Place) (n : Option Node) :
    Keeps (Records seed) (visitOption visit fn place n) := by
  cases n with
  | none => exact .pure (isSteady_records seed) _
  | some n => exact .map (hvisit _ _ _)

theorem records_visitFunction (hvisit : ∀ fn place n, Keeps (Records seed) (visit fn place n))
    (index : Nat) (node : Node) : Keeps (Records seed) (visitFunction visit index node) := by
  have hR := isSteady_records seed
  have hcheck : ∀ {c : Prop} [Decidable c] {f : Fault},
      Keeps (Records seed) (if c then throw f else pure () : Extract Unit) :=
    fun {_ _ _} => .ite (fun _ => .throw _) fun _ => .pure hR _
  unfold visitFunction
  split
  . next body hbody =>
    refine .ite (fun _ => ?_) fun _ => .ite (fun _ => ?_) fun _ => ?_
    . refine .bind hR records_freshNode fun _ => .bind hR records_freshNode fun _ =>
        .bind hR hcheck fun _ => .bind hR (records_visitParts hvisit _ _ _ _) fun _ =>
        .bind hR ?_ fun _ => .pure hR _
      exact .bind hR (hvisit _ _ _) fun _ => .pure hR _
    . refine .bind hR (records_modifyRecord ?_) fun _ => .bind hR hcheck fun _ =>
        .bind hR (records_visitParts hvisit _ _ _ _) fun _ => .bind hR (hvisit _ _ _) fun _ =>
        .pure hR _
      exact fun u f hf => ⟨hf.cname, hf.notArrow⟩
    . exact .throw _
  . exact .throw _

theorem records_enter (hvisit : ∀ fn place n, Keeps (Records seed) (visit fn place n))
    {parent : Option Nat} {site : Option Node} {isProgram : Bool} {node : Node} {c : Circumstances}
    (hc : c.isConstructor = true → node.kind ≠ .arrowFunction) :
    Keeps (Records seed) (enter visit parent site isProgram node c) := by
  intro s u s' h hs
  unfold enter at h
  obtain ⟨unique, t, hunique, h⟩ := ends_bind.1 h
  unfold freshName at hunique
  rw [ends_get_bind, ends_set_bind] at hunique
  obtain ⟨rfl, rfl⟩ := ends_pure.1 hunique
  rw [ends_get_bind] at h
  dsimp only at h
  rw [ends_modify_bind] at h
  obtain ⟨us, hsorted, hbound, hall⟩ := hs.numbers
  obtain ⟨node', t, hnode, h⟩ := ends_bind.1 h
  cases ends_modify.1 h
  refine Recorded.modify (records_visitFunction hvisit _ _ _ _ _ hnode ?_) ?_
  rotate_left
  . exact fun u f hf => ⟨hf.cname, hf.notArrow⟩
  -- The new record comes last, under the number that was drawn for it.
  have hpush : ∀ record : Function, IsRecord (s.counters.name + 1) record → Recorded seed { s with
      counters := { s.counters with name := s.counters.name + 1 }
      functions := s.functions.push record } := by
    intro record hrecord
    refine ⟨Nat.le_succ_of_le hs.le, us ++ [s.counters.name + 1], ?_, ?_, ?_⟩
    . rw [List.pairwise_append]
      refine ⟨hsorted, List.pairwise_singleton _ _, ?_⟩
      intro a ha b hb
      rw [List.mem_singleton.1 hb]
      exact Nat.lt_succ_of_le (hbound a ha).2
    . intro u hu
      have := hs.le
      rcases List.mem_append.1 hu with hu | hu
      . exact ⟨(hbound u hu).1, Nat.le_succ_of_le (hbound u hu).2⟩
      . rw [List.mem_singleton.1 hu]
        exact ⟨by omega, Nat.le_refl _⟩
    . rw [Array.toList_push]
      exact List.rel_append hall (.cons hrecord .nil)
  cases parent with
  | none => exact hpush _ ⟨rfl, fun h => by simpa using hc h⟩
  | some p =>
    refine (hpush _ ⟨rfl, fun h => by simpa using hc h⟩).modify ?_
    exact fun u f hf => ⟨hf.cname, hf.notArrow⟩

theorem records_extract (hvisit : ∀ fn place n, Keeps (Records seed) (visit fn place n)) (fn : Nat)
    (n : Node) {c : Circumstances} (hc : c.isConstructor = false) :
    Keeps (Records seed) (extract visit fn n c) := by
  have hR := isSteady_records seed
  refine .bind hR records_freshNode fun _ => .bind hR records_setSite fun _ =>
    .bind hR (records_enter hvisit ?_) fun _ => .pure hR _
  rw [hc]
  simp

theorem records_defaultConstructor (cls : Node) : Keeps (Records seed)
    (defaultConstructor cls) := by
  have hR := isSteady_records seed
  refine .bind hR records_freshNode fun _ => .bind hR records_freshNode fun _ =>
    .ite (fun _ => .pure hR _) fun _ => ?_
  refine .bind hR records_freshNode fun _ => .bind hR records_freshNode fun _ =>
    .bind hR records_freshNode fun _ => .bind hR records_freshNode fun _ =>
    .bind hR records_freshNode fun _ => .bind hR records_freshNode fun _ =>
    .bind hR records_freshNode fun _ => .pure hR _

theorem records_splitMembers (items : List Node) (ctor : Option Node) (members : List Node) :
    Keeps (Records seed) (splitMembers items ctor members) := by
  have hR := isSteady_records seed
  induction items generalizing ctor members with
  | nil => exact .pure hR _
  | cons m rest ih =>
    exact .ite (fun _ => .throw _) fun _ => .ite
      (fun _ => .ite (fun _ => .throw _) fun _ => ih _ _) fun _ => ih _ _

theorem records_extractMembers (hvisit : ∀ fn place n, Keeps (Records seed) (visit fn place n))
    (fn : Nat) (place : Option Place) (body : Node) (items : List Node) :
    Keeps (Records seed) (extractMembers visit fn place body items) := by
  have hR := isSteady_records seed
  induction items with
  | nil => exact .pure hR _
  | cons m rest ih =>
    unfold extractMembers
    refine .bind hR (records_visitOption hvisit _ _ _) fun _ => ?_
    split
    . exact .bind hR (records_extract hvisit _ _ rfl) fun _ => .bind hR ih fun _ => .pure hR _
    . exact .throw _

theorem records_extractClass (hvisit : ∀ fn place n, Keeps (Records seed) (visit fn place n))
    (fn : Nat) (place : Option Place) (cls : Node) :
    Keeps (Records seed) (extractClass visit fn place cls) := by
  have hR := isSteady_records seed
  have htake : ∀ site ctor c, Keeps (Records seed) (takeConstructor visit fn site ctor c) := by
    intro site ctor c
    refine .bind hR records_freshNode fun _ => .bind hR records_setSite fun _ =>
      records_enter hvisit ?_
    intro _ h
    cases h
  refine .bind hR (records_visitOption hvisit _ _ _) fun _ =>
    .bind hR (records_splitMembers _ _ _) fun r => ?_
  rcases r with ⟨members, ctor⟩
  cases ctor with
  | some m =>
    exact .bind hR (.pure hR _) fun _ => .bind hR (htake _ _ _) fun _ =>
      .bind hR (records_extractMembers hvisit _ _ _ _) fun _ => .pure hR _
  | none =>
    exact .bind hR (records_defaultConstructor _) fun _ => .bind hR (htake _ _ _) fun _ =>
      .bind hR (records_extractMembers hvisit _ _ _ _) fun _ => .pure hR _

theorem records_step {visit : Node → Nat → Option Place → Extract Node}
    (hvisit : ∀ n fn place, Keeps (Records seed) (visit n fn place)) (n : Node) (fn : Nat)
    (place : Option Place) : Keeps (Records seed) (step visit n fn place) := by
  have hR := isSteady_records seed
  have hvisit' : ∀ fn place n, Keeps (Records seed)
    ((fun fn place n => visit n fn place : Visit) fn place n) :=
    fun fn place n => hvisit n fn place
  have hparts : ∀ parts, Keeps (Records seed) (do
      return n.withParts (← visitParts (fun fn place n => visit n fn place) fn place n parts)) :=
    fun parts => .bind hR (records_visitParts hvisit' _ _ _ _) fun _ => .pure hR _
  unfold step
  refine .ite (fun _ => records_extract hvisit' _ _ rfl) fun _ =>
    .ite (fun _ => records_extractClass hvisit' _ _ _) fun _ => ?_
  split
  . exact hparts _
  . exact hparts _
  . split
    . refine .ite (fun _ => ?_) fun _ => hparts _
      exact .bind hR (records_visitOption hvisit' _ _ _) fun _ =>
        .bind hR (records_extract hvisit' _ _ rfl) fun _ => .pure hR _
    . exact hparts _
  . exact hparts _

theorem records_visit (n : Node) (fn : Nat) (place : Option Place) :
    Keeps (Records seed) (Extract.visit n fn place) := by
  have hunroll : ∀ depth n fn place, Keeps (Records seed)
      (Node.unroll step (fun n _ _ => pure n) depth n fn place) := by
    intro depth
    induction depth with
    | zero => exact fun n _ _ => .pure (isSteady_records seed) n
    | succ depth ih => exact fun n fn place => records_step ih n fn place
  exact hunroll _ n fn place

end Extract

theorem Extraction.recorded_of {tree : Node} {counters : Counters} {e : Extraction}
    (h : Extraction.of tree counters = .ok e) : Extract.Recorded counters.name e := by
  have hR := Extract.isSteady_records counters.name
  refine Keeps.bind hR Extract.records_freshNode (fun _ => Keeps.bind hR Extract.records_freshNode
    fun _ => Extract.records_enter (fun fn place n => Extract.records_visit n fn place) ?_) _ _ _
    (ends_of_run h) ?_
  . simp
  . exact ⟨Nat.le_refl _, [], .nil, by simp, by simp⟩

end ScriptC
