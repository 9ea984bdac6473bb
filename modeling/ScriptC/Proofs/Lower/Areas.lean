import ScriptC.Proofs.Lower.Run
import ScriptC.Proofs.Lower.Traces
import ScriptC.Proofs.Node

/-!
Areas for calls on the value stack. A call fills the slots of its area one after the other, and what
runs in between stays above the slots that are filled already. No slot lies beyond the reach that
the tree tells.
-/

namespace ScriptC

namespace Event

def From (low : Nat) : Event → Prop
  | .done _ => True
  | .store slot => low ≤ slot
  | .pass base _ => low ≤ base

def reach : Event → Nat
  | .done _ => 0
  | .store slot => slot + 1
  | .pass base count => base + 1 + count

theorem From.mono {low low' : Nat} {e : Event} (h : e.From low) (hle : low' ≤ low) :
    e.From low' := by
  cases e with
  | done => trivial
  | store => exact Nat.le_trans hle h
  | pass => exact Nat.le_trans hle h

end Event

/--
Slots that are filled one after the other. Whatever happens before a slot is filled leaves the slots
below it alone.
-/
inductive Fills : Nat → Nat → List Event → Prop where
  | nil {slot : Nat} : Fills slot 0 []
  | cons {slot count : Nat} {row rest : List Event} (hrow : ∀ e ∈ row, e.From slot)
    (hrest : Fills (slot + 1) count rest) : Fills slot (count + 1) (row ++ .store slot :: rest)

structure KeepsAreas (low high : Nat) (row : List Event) : Prop where
  low : ∀ e ∈ row, e.From low
  high : ∀ e ∈ row, e.reach ≤ high
  filled : ∀ {before after base count}, row = before ++ .pass base count :: after →
    ∃ lead fill, before = lead ++ fill ∧ Fills (base + 1) count fill

def areas (low high : Nat) : Language Event := { row | KeepsAreas low high row }

def filling (high slot count : Nat) : Language Event :=
  { row | Fills slot count row ∧ KeepsAreas slot high row }

section Areas

variable {low high slot base count : Nat} {x y : Language Event} {l l' : List Event}

theorem KeepsAreas.nil : KeepsAreas low high [] where
  low := by simp
  high := by simp
  filled h := by simp at h

theorem KeepsAreas.append (h : KeepsAreas low high l) (h' : KeepsAreas low high l') :
    KeepsAreas low high (l ++ l') where
  low e he := (List.mem_append.1 he).elim (h.low e) (h'.low e)
  high e he := (List.mem_append.1 he).elim (h.high e) (h'.high e)
  filled := by
    intro before after base count heq
    rcases List.append_eq_append_iff.1 heq with ⟨more, rfl, hl'⟩ | ⟨more, hl, hpass⟩
    . obtain ⟨lead, fill, rfl, hfill⟩ := h'.filled hl'
      exact ⟨l ++ lead, fill, by simp, hfill⟩
    . cases more with
      | nil =>
        obtain ⟨lead, fill, hnil, hfill⟩ := @KeepsAreas.filled _ _ _ h' [] _ _ _ hpass.symm
        obtain ⟨rfl, rfl⟩ := List.append_eq_nil_iff.1 hnil.symm
        exact ⟨l, [], by simpa using hl.symm, hfill⟩
      | cons e more =>
        obtain ⟨rfl, rfl⟩ := List.cons.inj hpass
        exact h.filled hl

theorem KeepsAreas.store (hlow : low ≤ slot) (hhigh : slot < high) :
    KeepsAreas low high [.store slot] where
  low := List.forall_mem_singleton.2 hlow
  high := List.forall_mem_singleton.2 hhigh
  filled := by
    intro before after base count h
    have hmem : Event.pass base count ∈ [Event.store slot] := by
      rw [h]
      simp
    simp at hmem

theorem KeepsAreas.mono {low' high' : Nat} (h : KeepsAreas low high l) (hlow : low' ≤ low)
    (hhigh : high ≤ high') : KeepsAreas low' high' l where
  low e he := (h.low e he).mono hlow
  high e he := Nat.le_trans (h.high e he) hhigh
  filled := h.filled

theorem KeepsAreas.pass (h : KeepsAreas low high l) (hfill : Fills (base + 1) count l)
    (hlow : low ≤ base) (hhigh : base + 1 + count ≤ high) :
    KeepsAreas low high (l ++ [.pass base count]) where
  low := by
    intro e he
    rcases List.mem_append.1 he with he | he
    . exact h.low e he
    . rw [List.mem_singleton.1 he]
      exact hlow
  high := by
    intro e he
    rcases List.mem_append.1 he with he | he
    . exact h.high e he
    . rw [List.mem_singleton.1 he]
      exact hhigh
  filled := by
    intro before after base' count' heq
    rcases List.append_eq_append_iff.1 heq with ⟨more, rfl, hpass⟩ | ⟨more, hl, hpass⟩
    . cases more with
      | nil =>
        cases hpass
        exact ⟨[], l, by simp, hfill⟩
      | cons e more => simp at hpass
    . cases more with
      | nil =>
        cases hpass
        exact ⟨[], l, by simpa using hl.symm, hfill⟩
      | cons e more =>
        obtain ⟨rfl, hnil⟩ := List.cons.inj hpass
        exact h.filled hl

theorem one_le_areas : 1 ≤ areas low high := by
  rintro l rfl
  exact .nil

theorem mul_le_areas (hx : x ≤ areas low high) (hy : y ≤ areas low high) :
    x * y ≤ areas low high := by
  rintro _ ⟨l, hl, l', hl', rfl⟩
  exact KeepsAreas.append (hx hl) (hy hl')

theorem prod_le_areas {list : List (Language Event)} (h : ∀ x ∈ list, x ≤ areas low high) :
    list.prod ≤ areas low high := by
  induction list with
  | nil => exact one_le_areas
  | cons x list ih =>
    rw [List.forall_mem_cons] at h
    exact mul_le_areas h.1 (ih h.2)

theorem anyOrder_le_areas {list : List (Language Event)} (h : ∀ x ∈ list, x ≤ areas low high) :
    anyOrder list ≤ areas low high := by
  intro l hl
  obtain ⟨m, hm, hl⟩ := mem_anyOrder.1 hl
  exact prod_le_areas (fun x hx => h x (hm.subset hx)) hl

theorem one_le_filling : 1 ≤ filling high slot 0 := by
  rintro l rfl
  exact ⟨.nil, .nil⟩

theorem mul_le_filling (hx : x ≤ areas slot high) (hslot : slot < high)
    (hy : y ≤ filling high (slot + 1) count) :
    x * ({[.store slot]} * y) ≤ filling high slot (count + 1) := by
  rintro _ ⟨l, hl, _, ⟨_, rfl, l', hl', rfl⟩, rfl⟩
  have hx : KeepsAreas slot high l := hx hl
  obtain ⟨hfills, hkeeps⟩ := hy hl'
  refine ⟨.cons hx.low hfills, hx.append ?_⟩
  exact (KeepsAreas.store (Nat.le_refl _) hslot).append
    (hkeeps.mono (Nat.le_succ _) (Nat.le_refl _))

theorem filling_pass (hlow : low ≤ base) (hhigh : base + 1 + count ≤ high)
    (hx : x ≤ filling high (base + 1) count) : x * {[.pass base count]} ≤ areas low high := by
  rintro _ ⟨l, hl, _, rfl, rfl⟩
  obtain ⟨hfills, hkeeps⟩ := hx hl
  exact (hkeeps.mono (by omega) (Nat.le_refl _)).pass hfills hlow hhigh

end Areas

namespace C.Expr

variable {R : Rules} {s high : Nat}

theorem Obeys.traces_le
    (hcalls : ∀ fn args, R.allows fn args → isQuiet fn ∨ (call fn args).traces .path ≤ areas s high)
    (happlies : ∀ fn args, R.applies fn args → (callPtr fn args).traces .path ≤ areas s high)
    (htargets : ∀ e v, R.targets e v → e.slot? = none)
    (hrows : ∀ list, R.rows list → (list.map (traces .path)).prod ≤ areas s high) {e : Expr} :
    e.Obeys R → e.traces .path ≤ areas s high := by
  have hpair : ∀ {x y : Language Event}, x ≤ areas s high → y ≤ areas s high →
      anyOrder [x, y] ≤ areas s high := fun hx hy => anyOrder_le_areas (by simp [hx, hy])
  induction e using Expr.rec (motive_2 := fun l => AllObey R l →
    ∀ y ∈ l.map (traces .path), y ≤ areas s high) with
  | missing | raw => exact fun _ => one_le_areas
  | call fn args ih =>
    intro h
    rcases hcalls fn args h.1 with hfn | hle
    . rw [traces_call_of_isQuiet hfn]
      exact anyOrder_le_areas (ih h.2)
    . exact hle
  | callPtr fn args => exact fun h => happlies fn args h.1
  | seq list ih =>
    intro h
    rw [traces_seq]
    exact h.2.elim (hrows list) fun h => prod_le_areas (ih h)
  | cond test x y iht ihx ihy =>
    exact fun h => mul_le_areas (iht h.1) (add_le (ihx h.2.1) (ihy h.2.2))
  | assign target op value iht ihv =>
    intro h
    rw [traces_assign, storeEvents, htargets target value h.1]
    exact mul_le_areas (hpair (iht h.2.1) (ihv h.2.2)) (singleton_seen_nil.trans_le one_le_areas)
  | binary op x y ihx ihy =>
    intro h
    cases hop : isLazy op with
    | true =>
      rw [traces_lazy hop]
      exact mul_le_areas (ihx h.1) (add_le one_le_areas (ihy h.2))
    | false =>
      rw [traces_binary hop]
      exact hpair (ihx h.1) (ihy h.2)
  | index x y ihx ihy => exact fun h => hpair (ihx h.1) (ihy h.2)
  | unary op x ih | field x name arrow ih | likely x unlikely ih | cast type x ih | bits test x ih
  | pointer type x ih => exact ih
  | nil =>
    rename_i hy
    cases hy
  | cons e rest ih ihrest =>
    rename_i h y hy
    rcases List.mem_cons.1 hy with rfl | hy
    . exact ih h.1
    . exact ihrest h.2 y hy

end C.Expr

namespace Analyze

variable {reach reach' : Node → Nat → Nat} {base slot : Nat} {n c : Node}

theorem le_deepestAt {list : List Node} (h : c ∈ list) :
    reach c base ≤ deepestAt reach base list := by
  induction list with
  | nil => cases h
  | cons n rest ih =>
    rw [deepestAt]
    rcases List.mem_cons.1 h with rfl | h
    . exact Nat.le_max_left _ _
    . exact Nat.le_trans (ih h) (Nat.le_max_right _ _)

theorem le_deepestFrom {list : List (Option Node)} {i : Nat} (h : list[i]? = some (some c)) :
    reach c (base + i) ≤ deepestFrom reach base list := by
  induction list generalizing base i with
  | nil => simp at h
  | cons o rest ih =>
    cases i with
    | zero =>
      obtain rfl : o = some c := by simpa using h
      exact Nat.le_max_left _ _
    | succ i =>
      have hrest : reach c (base + 1 + i) ≤ deepestFrom reach (base + 1) rest :=
        ih (by simpa using h)
      rw [show base + (i + 1) = base + 1 + i by omega]
      cases o with
      | none => exact hrest
      | some m => exact Nat.le_trans hrest (Nat.le_max_right _ _)

theorem deepestAt_mono {base' : Nat} {list : List Node}
    (h : ∀ c ∈ list, reach c base ≤ reach' c base') :
    deepestAt reach base list ≤ deepestAt reach' base' list := by
  induction list with
  | nil => exact Nat.le_refl _
  | cons n rest ih =>
    rw [List.forall_mem_cons] at h
    have := ih h.2
    rw [deepestAt, deepestAt]
    omega

theorem deepestFrom_mono {base' : Nat} {list : List (Option Node)}
    (h : ∀ c i, some c ∈ list → reach c (base + i) ≤ reach' c (base' + i)) :
    deepestFrom reach base list ≤ deepestFrom reach' base' list := by
  induction list generalizing base base' with
  | nil => exact Nat.le_refl _
  | cons o rest ih =>
    have hrest : deepestFrom reach (base + 1) rest ≤ deepestFrom reach' (base' + 1) rest := by
      refine ih fun c i hc => ?_
      rw [Nat.add_assoc, Nat.add_assoc]
      exact h c (1 + i) (List.mem_cons_of_mem _ hc)
    cases o with
    | none => exact hrest
    | some m =>
      have := h m 0 List.mem_cons_self
      simp only [deepestFrom, Nat.add_zero] at *
      omega

theorem mem_children (h : Part.Holds n.parts c) : c ∈ n.children.map (·.2) := by
  obtain ⟨r, h⟩ := h
  exact List.mem_map.2 ⟨(r, c), List.mem_filterMap.2 ⟨_, h, rfl⟩, rfl⟩

theorem reachStep_mono {base' : Nat} (hbase : base ≤ base') (h : ∀ m : Node, m.height < n.height →
      ∀ i, reach m (base + i) ≤ reach' m (base' + i)) :
    reachStep reach n base ≤ reachStep reach' n base' := by
  have hheld : ∀ c, Part.Holds n.parts c → reach c base ≤ reach' c base' :=
    fun c hc => h c (Node.height_lt hc) 0
  have hcallee : deepestAt reach base (n.part? .callee).toList ≤
      deepestAt reach' base' (n.part? .callee).toList := by
    refine deepestAt_mono fun c hc => hheld c (Node.holds_of_part? (r := .callee) ?_)
    simpa using hc
  have hargs : ∀ (list : List (Option Node)) {k : Nat},
      (∀ c, some c ∈ list → c.height < n.height) →
      deepestFrom reach (base + k) list ≤ deepestFrom reach' (base' + k) list := by
    intro list k hlist
    refine deepestFrom_mono fun c i hc => ?_
    rw [Nat.add_assoc, Nat.add_assoc]
    exact h c (hlist c hc) (k + i)
  have hslots : ∀ c, some c ∈ n.slots .item → c.height < n.height :=
    fun c hc => Node.height_lt (Node.holds_of_mem_slots hc)
  unfold reachStep
  split
  case h_1 | h_2 =>
    dsimp only
    split
    . have := deepestAt_mono fun c hc => hheld c (Node.holds_of_mem_items hc)
      omega
    . have := hargs _ (k := 1) hslots
      omega
  case h_3 =>
    dsimp only
    have := hargs (((n.part? .argument).map (·.slots .item)).getD []) (k := 2) ?_
    . omega
    . intro c hc
      cases ht : n.part? .argument with
      | none =>
        rw [ht] at hc
        cases hc
      | some t =>
        rw [ht] at hc
        exact Nat.lt_trans (Node.height_lt (Node.holds_of_mem_slots hc))
          (Node.height_lt (Node.holds_of_part? ht))
  case h_4 => exact deepestAt_mono fun c hc => hheld c (Node.holds_of_mem_children hc)

theorem unroll_reachStep {d d' : Nat} (hd : n.height ≤ d) (hd' : n.height ≤ d') {base' : Nat}
    (hbase : base ≤ base') :
    Node.unroll reachStep (fun _ _ => 0) d n base ≤ Node.unroll reachStep (fun _ _ => 0)
      d' n base' := by
  induction d generalizing d' n base base' with
  | zero =>
    cases n
    simp [Node.height] at hd
  | succ d ih =>
    cases d' with
    | zero =>
      cases n
      simp [Node.height] at hd'
    | succ d' =>
      refine reachStep_mono hbase fun m hm i => ih (by omega) (by omega) (by omega)

theorem callReach_eq (n : Node) (base : Nat) : callReach n base = reachStep callReach n base := by
  have hstep : ∀ d, n.height = d + 1 → callReach n base =
      reachStep (Node.unroll reachStep (fun _ _ => 0) d) n base := by
    intro d hd
    rw [callReach, Node.fix, hd]
    rfl
  obtain ⟨d, hd⟩ : ∃ d, n.height = d + 1 := by
    cases n
    exact ⟨_, rfl⟩
  rw [hstep d hd]
  apply Nat.le_antisymm
  . exact reachStep_mono (Nat.le_refl _) fun m hm i =>
      unroll_reachStep (by omega) (Nat.le_refl _) (Nat.le_refl _)
  . exact reachStep_mono (Nat.le_refl _) fun m hm i =>
      unroll_reachStep (Nat.le_refl _) (by omega) (Nat.le_refl _)

theorem callReach_mono {base' : Nat} (h : base ≤ base') : callReach n base ≤ callReach n base' :=
  unroll_reachStep (Nat.le_refl _) (Nat.le_refl _) h

end Analyze

open Analyze (callReach reachStep deepestAt deepestFrom callReach_eq callReach_mono le_deepestAt
  le_deepestFrom)

def Node.isInvocation (n : Node) : Bool :=
  n.kind == .call || n.kind == .new || n.kind == .taggedTemplate

def Node.IsArranged (n : Node) : Prop :=
  n.isInvocation = true → ∀ p ∈ n.parts, p.role ∈ n.kind.roles

structure Node.FitsIn (slot high : Nat) (n : Node) : Prop where
  reach : callReach n slot ≤ high
  arranged : ∀ m ∈ n.preorder, m.IsArranged

namespace Node

variable {slot high : Nat} {n c : Node} {r : Role}

theorem reachStep_of_not_isInvocation {reach : Node → Nat → Nat} (hn : n.isInvocation = false) :
    reachStep reach n slot = Analyze.deepestAt reach slot (n.children.map (·.2)) := by
  unfold reachStep
  unfold isInvocation kind at hn
  split
  case h_1 hlabel | h_2 hlabel | h_3 hlabel =>
    rw [hlabel] at hn
    cases hn
  case h_4 => rfl

theorem callReach_callee_le (hc : n.part? .callee = some c) :
    callReach c slot ≤ callReach n slot := by
  have hcallee : callReach c slot ≤ Analyze.deepestAt callReach slot (n.part? .callee).toList :=
    le_deepestAt (by simp [hc])
  rw [callReach_eq n]
  unfold reachStep
  split
  case h_1 | h_2 =>
    dsimp only
    split <;> omega
  case h_3 =>
    dsimp only
    omega
  case h_4 => exact le_deepestAt (Analyze.mem_children (holds_of_part? hc))

theorem callReach_of_call (slot : Nat) (hn : n.kind = .call ∨ n.kind = .new) :
    if n.containsSpread then ∀ c ∈ n.items, callReach c slot ≤ callReach n slot
    else slot + 1 + (n.slots .item).length ≤ callReach n slot ∧
      ∀ i c, (n.slots .item)[i]? = some (some c) →
        callReach c (slot + 1 + i) ≤ callReach n slot := by
  rw [callReach_eq n]
  have hstep : reachStep callReach n slot =
      if n.containsSpread then max (Analyze.deepestAt callReach slot (n.part? .callee).toList)
        (Analyze.deepestAt callReach slot n.items)
      else max (max (Analyze.deepestAt callReach slot (n.part? .callee).toList)
        (slot + 1 + (n.slots .item).length))
        (Analyze.deepestFrom callReach (slot + 1) (n.slots .item)) := by
    unfold kind at hn
    unfold reachStep
    split
    case h_1 | h_2 => rfl
    case h_3 hlabel => simp [hlabel, Label.kind] at hn
    case h_4 hcall hnew _ =>
      exfalso
      cases hlabel : n.label <;> simp_all [Label.kind]
  rw [hstep]
  split
  . intro c hc
    have : callReach c slot ≤ deepestAt callReach slot n.items := le_deepestAt hc
    omega
  . refine ⟨by omega, fun i c hc => ?_⟩
    have : callReach c (slot + 1 + i) ≤ deepestFrom callReach (slot + 1) (n.slots .item) :=
      le_deepestFrom hc
    omega

theorem callReach_of_taggedTemplate (slot : Nat) (hn : n.label = .taggedTemplate) :
    let list := ((n.part? .argument).getD default).slots .item
    slot + 2 + list.length ≤ callReach n slot ∧
      ∀ i c, list[i]? = some (some c) → callReach c (slot + 2 + i) ≤ callReach n slot := by
  have hlist : ((n.part? .argument).map (·.slots .item)).getD [] =
      ((n.part? .argument).getD default).slots .item := by
    cases n.part? .argument <;> rfl
  rw [callReach_eq n]
  simp only [reachStep, hn, hlist]
  refine ⟨by omega, fun i c hc => ?_⟩
  have : callReach c (slot + 2 + i) ≤ deepestFrom callReach (slot + 2)
      (((n.part? .argument).getD default).slots .item) := le_deepestFrom hc
  omega

theorem mem_items_of_mem_slots (hc : some c ∈ n.slots .item) : c ∈ n.items := by
  obtain ⟨p, hp, heq⟩ := List.mem_filterMap.1 hc
  refine List.mem_filterMap.2 ⟨p, hp, ?_⟩
  split at heq
  . next hrole => rw [if_pos hrole, Option.some.inj heq]
  . cases heq

theorem exists_slot_of_mem_items (hc : c ∈ n.items) : ∃ i : Nat, (n.slots .item)[i]? =
    some (some c) := by
  have hmem : some c ∈ n.slots .item := by
    obtain ⟨p, hp, heq⟩ := List.mem_filterMap.1 hc
    refine List.mem_filterMap.2 ⟨p, hp, ?_⟩
    split at heq
    . next hrole => rw [if_pos hrole, heq]
    . cases heq
  exact List.mem_iff_getElem?.1 hmem

theorem exists_role_of_part? (hc : n.part? r = some c) : ∃ p ∈ n.parts, p.role = r := by
  obtain ⟨p, hp, heq⟩ := List.exists_of_findSome?_eq_some hc
  refine ⟨p, hp, ?_⟩
  split at heq
  . next hrole => simpa using hrole
  . cases heq

theorem mem_items_of_part? (hc : n.part? .item = some c) : c ∈ n.items := by
  obtain ⟨p, hp, heq⟩ := List.exists_of_findSome?_eq_some hc
  exact List.mem_filterMap.2 ⟨p, hp, heq⟩

namespace FitsIn

theorem held (hn : n.FitsIn slot high) (hc : Part.Holds n.parts c) {slot' : Nat}
    (hreach : callReach c slot' ≤ callReach n slot) : c.FitsIn slot' high where
  reach := Nat.le_trans hreach hn.reach
  arranged m hm := hn.arranged m (Node.preorder_subset hc hm)

theorem absent : (default : Node).FitsIn slot high where
  reach := Nat.zero_le _
  arranged := by
    intro m hm hkind
    rw [Node.preorder] at hm
    cases List.mem_singleton.1 hm
    cases hkind

theorem below (hn : n.FitsIn slot high) (hkind : n.isInvocation = false)
    (hc : Part.Holds n.parts c) : c.FitsIn slot high := by
  refine hn.held hc ?_
  rw [callReach_eq n, reachStep_of_not_isInvocation hkind]
  exact le_deepestAt (Analyze.mem_children hc)

theorem item (hn : n.FitsIn slot high) (hc : c ∈ n.items) : c.FitsIn slot high := by
  cases hkind : n.isInvocation with
  | false => exact hn.below hkind (holds_of_mem_items hc)
  | true =>
    refine hn.held (holds_of_mem_items hc) ?_
    by_cases hcall : n.kind = .call ∨ n.kind = .new
    . have hargs := callReach_of_call slot hcall
      split at hargs
      . exact hargs c hc
      . obtain ⟨i, hi⟩ := exists_slot_of_mem_items hc
        exact Nat.le_trans (callReach_mono (by omega)) (hargs.2 i c hi)
    . obtain ⟨p, hp, heq⟩ := List.mem_filterMap.1 hc
      have hrole : p.role = .item := by
        split at heq
        . next hrole => simpa using hrole
        . cases heq
      have htagged : n.kind = .taggedTemplate := by
        simp only [isInvocation, Bool.or_eq_true, beq_iff_eq] at hkind
        exact hkind.resolve_left hcall
      have hroles := hn.arranged n mem_preorder_self hkind p hp
      rw [hrole, htagged] at hroles
      simp [Kind.roles] at hroles

-- The texts of a tagged template are an argument too, and what is put between them is stored.
theorem part? (hn : n.FitsIn slot high) (hr : r = .argument → n.kind ≠ .taggedTemplate)
    (hc : n.part? r = some c) : c.FitsIn slot high := by
  cases hkind : n.isInvocation with
  | false => exact hn.below hkind (holds_of_part? hc)
  | true =>
    obtain ⟨p, hp, hrole⟩ := exists_role_of_part? hc
    have hroles := hn.arranged n mem_preorder_self hkind p hp
    rw [hrole] at hroles
    obtain rfl | rfl : r = .callee ∨ r = .item := by
      simp only [isInvocation, Bool.or_eq_true, beq_iff_eq] at hkind
      rcases hkind with (hkind | hkind) | hkind
      . simpa [hkind, Kind.roles] using hroles
      . simpa [hkind, Kind.roles] using hroles
      . simp only [hkind, Kind.roles, List.mem_cons, List.not_mem_nil, or_false] at hroles
        exact .inl (hroles.resolve_right fun h => hr h hkind)
    . exact hn.held (holds_of_part? hc) (callReach_callee_le hc)
    . exact hn.item (mem_items_of_part? hc)

theorem argument (hn : n.FitsIn slot high) (hkind : n.kind = .call ∨ n.kind = .new)
    (hspread : n.containsSpread = false) : slot + 1 + (n.slots .item).length ≤ high ∧
      ∀ i (c : Node), (n.slots .item)[i]? = some (some c) → c.FitsIn (slot + 1 + i) high := by
  have hargs := callReach_of_call slot hkind
  rw [hspread] at hargs
  refine ⟨hargs.1.trans hn.reach, fun i c hc => ?_⟩
  exact hn.held (holds_of_mem_slots (List.mem_of_getElem? hc)) (hargs.2 i c hc)

theorem substitution (hn : n.FitsIn slot high) (hlabel : n.label = .taggedTemplate) :
    let list := ((n.part? .argument).getD default).slots .item
    slot + 2 + list.length ≤ high ∧
      ∀ i (c : Node), list[i]? = some (some c) → c.FitsIn (slot + 2 + i) high := by
  obtain ⟨hroom, hargs⟩ := callReach_of_taggedTemplate slot hlabel
  refine ⟨hroom.trans hn.reach, fun i c hc => ?_⟩
  cases hquasi : n.part? .argument with
  | none => simp [hquasi, show (default : Node).slots .item = [] from rfl] at hc
  | some quasi =>
    rw [hquasi] at hc hargs
    have hheld := holds_of_part? hquasi
    have hheld' := holds_of_mem_slots (List.mem_of_getElem? hc)
    refine ⟨Nat.le_trans (hargs i c hc) hn.reach, fun m hm => ?_⟩
    exact hn.arranged m (preorder_subset hheld (preorder_subset hheld' hm))

end FitsIn
end Node

end ScriptC
