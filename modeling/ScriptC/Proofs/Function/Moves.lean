import ScriptC.Proofs.Function.Tally

/-!
Taking a function out moves its nodes. What is left at its place is a site with nothing of the
function in it, and all else is found in the function that was added.
-/

namespace ScriptC

open Pass

namespace Extract

variable {bound : Nat} {lost lost' members members' : Nat → Nat}
  {given left given' left' : List Part} {s t s' : Extraction}

def Fit (parts : List Part) : Prop := ∀ m ∈ Part.nodes parts, m.IsFormed ∧ m.IsTidy

theorem Fit.formed (h : Fit given) : Formed given := fun m hm => (h m hm).1

theorem Fit.subset (h : Fit given) (hsub : Part.nodes left ⊆ Part.nodes given) : Fit left :=
  fun m hm => h m (hsub hm)

theorem fit_append {l k : List Part} : Fit (l ++ k) ↔ Fit l ∧ Fit k := by
  unfold Fit
  rw [Part.nodes_append, List.forall_mem_append]

theorem fit_node {r : Role} {n : Node} :
    Fit [.node r n] ↔ (n.IsFormed ∧ n.IsTidy) ∧ Fit n.parts := by
  unfold Fit
  rw [Part.nodes_node, Part.nodes_nil, List.append_nil, Node.preorder_eq, List.forall_mem_cons]

def Mover (bound : Nat) (visit : Visit) (A : Node → Prop) : Prop :=
  ∀ {fn place n s n' s'} (r : Role), Fit [.node r n] → fn < s.functions.size →
    bound ≤ s.counters.node → A n → Ends (visit fn place n) s n' s' →
    Shifts bound [.node r n] [.node r n'] s s'

variable {visit : Visit} {A : Node → Prop} {fn : Nat} {place : Option Place} {parent : Node}

theorem Mover.visitParts (hmove : Mover bound visit A) {parts left : List Part} (hfit : Fit parts)
    (hfn : fn < s.functions.size) (hbound : bound ≤ s.counters.node)
    (hA : ∀ c, Part.Holds parts c → A c)
    (h : Ends (visitParts visit fn place parent parts) s left s') :
    Shifts bound parts left s s' := by
  induction parts generalizing s left with
  | nil =>
    obtain ⟨rfl, rfl⟩ := ends_pure.1 h
    exact shifts_nil
  | cons p rest ih =>
    have hrestA : ∀ c, Part.Holds rest c → A c := by
      rintro c ⟨r', hc⟩
      exact hA c ⟨r', List.mem_cons_of_mem _ hc⟩
    cases p with
    | hole r =>
      obtain ⟨rest', t, hrest, h⟩ := ends_bind.1 h
      obtain ⟨rfl, rfl⟩ := ends_pure.1 h
      exact (ih hfit hfn hbound hrestA hrest).balance
        (fun x _ => by rw [Part.times_hole, Part.times_hole, Part.tally_hole]; omega) (fun _ => rfl)
        (fun _ => Nat.le_refl _) (covers_of_subset bound (List.Subset.refl _)) fun _ => .inl
    | node r c =>
      obtain ⟨c', t, hc, h⟩ := ends_bind.1 h
      obtain ⟨rest', u, hrest, h⟩ := ends_bind.1 h
      obtain ⟨rfl, rfl⟩ := ends_pure.1 h
      obtain ⟨hhere, hthere⟩ := fit_append (l := [.node r c]).1 hfit
      have hhead := hmove r hhere hfn hbound (hA c ⟨r, List.mem_cons_self⟩) hc
      exact hhead.trans (ih hthere (Nat.lt_of_lt_of_le hfn hhead.size)
        (Nat.le_trans hbound hhead.node) hrestA hrest)

theorem Mover.visitOption (hmove : Mover bound visit A) (r : Role) {n n' : Option Node}
    (hfit : Fit (n.map (Part.node r)).toList) (hfn : fn < s.functions.size)
    (hbound : bound ≤ s.counters.node) (hA : ∀ c, n = some c → A c)
    (h : Ends (visitOption visit fn place n) s n' s') :
    Shifts bound (n.map (Part.node r)).toList (n'.map (Part.node r)).toList s s' := by
  cases n with
  | none =>
    obtain ⟨rfl, rfl⟩ := ends_pure.1 h
    exact shifts_nil
  | some c =>
    obtain ⟨c', hc, rfl⟩ := ends_map.1 h
    exact hmove r hfit hfn hbound (hA c rfl) hc

theorem dropped_of_not_site {n : Node} (h : n.kind.isSite = false) :
    n.dropped = [] ∧ n.memberValues = [] := by
  unfold Kind.isSite at h
  rw [Bool.or_eq_false_iff] at h
  simp [Node.dropped, Node.memberValues, h.1, h.2]

theorem standing_of_not_site {n : Node} (h : n.kind.isSite = false) : n.standing = [] := by
  simp [Node.standing, h]

theorem fair_of_not_site {m : Node} (h : m.kind.isSite = false)
    (horigin : bound ≤ m.id ∨ ∃ n ∈ Part.nodes given, Same n m)
    (hcomplete : (∀ n ∈ Part.nodes given, n.IsComplete) → m.IsComplete) : Fair bound given s m :=
  ⟨horigin, fun hm => (by rw [h] at hm; cases hm), hcomplete⟩

theorem fair_of_mem {m : Node} (h : m.kind.isSite = false) (hm : m ∈ Part.nodes given) :
    Fair bound given s m :=
  fair_of_not_site h (.inr ⟨m, hm, .refl m⟩) fun hgiven => hgiven m hm

theorem isComplete_withParts {n : Node} {parts left : List Part} (hperm : parts.Perm n.parts)
    (h : Ends (Extract.visitParts visit fn place parent parts) s left s') (hn : n.IsComplete) :
    (n.withParts left).IsComplete := by
  have hleft : left.map (fun p => (p.role, p.node?.isSome)) =
      parts.map fun p => (p.role, p.node?.isSome) := by
    clear hperm
    induction parts generalizing s left s' with
    | nil =>
      obtain ⟨rfl, -⟩ := ends_pure.1 h
      rfl
    | cons p rest ih =>
      cases p with
      | hole r =>
        obtain ⟨rest', t, hrest, h⟩ := ends_bind.1 h
        obtain ⟨rfl, -⟩ := ends_pure.1 h
        rw [List.map_cons, List.map_cons, ih hrest]
      | node r c =>
        obtain ⟨c', t, -, h⟩ := ends_bind.1 h
        obtain ⟨rest', u, hrest, h⟩ := ends_bind.1 h
        obtain ⟨rfl, -⟩ := ends_pure.1 h
        rw [List.map_cons, List.map_cons, ih hrest]
        rfl
  refine hn.congr (Node.kind_withParts ..) fun r => ?_
  rw [Node.isSome_part?, Node.isSome_part?, Node.parts_withParts, hleft]
  exact (hperm.map _).contains_eq

theorem Shifts.withParts {r : Role} {n : Node} {parts left : List Part} (hperm : parts.Perm n.parts)
    (hsite : n.kind.isSite = false) (hcomplete : n.IsComplete → (n.withParts left).IsComplete)
    (h : Shifts bound parts left s s') :
    Shifts bound [.node r n] [.node r (n.withParts left)] s s' := by
  obtain ⟨hdropped, hvalues⟩ := dropped_of_not_site hsite
  have hnodes := Part.perm_nodes hperm
  have hmem : Part.nodes parts ⊆ Part.nodes [.node r n] := by
    intro m hm
    rw [Part.nodes_node, Node.preorder_eq]
    exact List.mem_append_left _ (List.mem_cons_of_mem _ (hnodes.subset hm))
  refine Moves.balance h ?_ ?_ ?_ (covers_of_subset bound hmem) ?_
  . intro x _
    rw [Part.tally_node, hdropped, ← Part.tally_of_perm hnodes, Node.times_eq, Node.times_eq,
      ← Part.times_of_perm hnodes]
    simp only [Node.id_withParts, Node.parts_withParts, Part.times_nil, Part.tally_nil,
      List.map_nil, List.count_nil]
    omega
  . intro x
    rw [Part.tally_node, hvalues, ← Part.tally_of_perm hnodes]
    simp
  . intro x
    rw [Part.tally_node, ← Part.tally_of_perm hnodes]
    omega
  . intro m hm
    rw [Part.nodes_node, Part.nodes_nil, List.append_nil, Node.preorder_eq, List.mem_cons] at hm
    rcases hm with rfl | hm
    . have hn : n ∈ Part.nodes [.node r n] := by simp [Node.mem_preorder_self]
      exact .inr (fair_of_not_site hsite (.inr ⟨n, hn, ⟨rfl, rfl, rfl⟩⟩)
        fun h => hcomplete (h n hn))
    . exact .inl hm

theorem shifts_freshNode {id : Nat} (hbound : bound ≤ s.counters.node)
    (h : Ends freshNode s id s') :
    Shifts bound [] [] s s' ∧ bound ≤ id := by
  obtain ⟨rfl, rfl⟩ := ends_freshNode h
  have hnone : Shifts bound [] [] s s := shifts_nil
  exact ⟨{ hnone with
    node := Nat.le_succ _
    fair := fun _ hm => (by cases hm)
    inner := fun c f hc hf m hm => (hnone.inner c f hc hf m hm).mono fun _ => id }, hbound⟩

theorem count_of_lt {x id : Nat} (hid : bound ≤ id) (hx : x < bound) : [id].count x = 0 := by
  rw [List.count_singleton, if_neg]
  rw [beq_iff_eq]
  omega

theorem Mover.visitValueBody (hmove : Mover bound visit A) {body body' : Node} {ret block : Nat}
    (hret : bound ≤ ret) (hblock : bound ≤ block) (hfit : Fit [.node .body body])
    (hfn : fn < s.functions.size) (hbound : bound ≤ s.counters.node) (hA : A body)
    (h : Ends (visitValueBody visit fn body ret block) s body' s') :
    Shifts bound [.node .body body] [.node .body body'] s s' := by
  obtain ⟨value, t, hvalue, h⟩ := ends_bind.1 h
  obtain ⟨rfl, rfl⟩ := ends_pure.1 h
  refine Moves.balance (hmove .body hfit hfn hbound hA hvalue) ?_ (fun _ => rfl)
    (fun _ => Nat.le_refl _) (covers_of_subset bound (List.Subset.refl _)) ?_
  . intro x hx
    simp only [Node.times_eq, Part.times_nil, Node.id_withParts, Node.parts_withParts, Node.id_mk,
      Node.parts_mk, count_of_lt hret hx, count_of_lt hblock hx]
    omega
  . intro m hm
    simp only [Part.nodes_node, Part.nodes_nil, List.append_nil, Node.preorder_eq, Node.parts_mk,
      Node.parts_withParts, List.mem_cons] at hm
    rcases hm with rfl | rfl | hm
    . exact .inr (fair_of_not_site rfl (.inl hblock) fun _ => Node.isComplete_of_isBare rfl)
    . exact .inr (fair_of_not_site rfl (.inl hret) fun _ => Node.isComplete_of_isBare rfl)
    . left
      simpa [Node.preorder_eq] using hm

theorem quiet_of_directive {r : Role} {d : Node} (h : isDirective d = true)
    (hfit : Fit [.node r d]) :
    ∀ m ∈ d.preorder, m.kind.isSite = false := by
  obtain ⟨⟨hformed, htidy⟩, hparts⟩ := fit_node.1 hfit
  simp only [isDirective, Bool.and_eq_true, beq_iff_eq, Option.isSome_iff_exists,
    Option.bind_eq_some_iff] at h
  obtain ⟨hkind, text, e, he, htext⟩ := h
  have hekind : e.kind = .literal := by
    unfold Node.string? at htext
    split at htext
    . next hlabel => rw [Node.kind, hlabel]; rfl
    . cases htext
  have hroles : ∀ p ∈ d.parts, p.role ∈ [Role.expression] := by
    intro p hp
    have := hformed.roles p hp
    rwa [hkind] at this
  have hnodes : (Part.nodes d.parts).Perm e.preorder := by
    refine (Part.perm_nodes (Node.perm_partsAt [.expression] (by simp) hroles)).trans ?_
    rw [List.flatMap_singleton, Node.nodes_partsAt_single (htidy.single _ (by simp) (by simp)), he]
    simp
  have heformed : e.IsFormed :=
    (hparts e (hnodes.symm.subset Node.mem_preorder_self)).1
  intro m hm
  rw [Node.preorder_eq, List.mem_cons] at hm
  rcases hm with rfl | hm
  . rw [hkind]
    rfl
  . have hm := hnodes.subset hm
    rw [Node.preorder_eq, heformed.parts_eq_nil (by rw [hekind]; rfl), Part.nodes_nil,
      List.mem_singleton] at hm
    rw [hm, hekind]
    rfl

theorem isDirective_of_mem_prologue {parts : List Part} {d : Node} (h : d ∈ prologue parts) :
    isDirective d = true ∧ Part.Holds parts d := by
  induction parts with
  | nil => cases h
  | cons p rest ih =>
    cases p with
    | hole r => cases h
    | node r n =>
      rw [prologue] at h
      split at h
      . next hn =>
        rcases List.mem_cons.1 h with rfl | h
        . exact ⟨hn, r, List.mem_cons_self⟩
        . obtain ⟨hd, r', hr'⟩ := ih h
          exact ⟨hd, r', List.mem_cons_of_mem _ hr'⟩
      . cases h

theorem perm_function {n : Node} (hformed : n.IsFormed) (hkind : n.kind.isFunction = true) :
    (Part.nodes n.parts).Perm (Part.nodes (partsAt n .name) ++ Part.nodes (partsAt n .param) ++
      Part.nodes (partsAt n .body)) := by
  have hroles : n.kind.roles = [.name, .param, .body] := by
    cases hk : n.kind <;> rw [hk] at hkind <;> first | rfl | cases hkind
  have := Part.perm_nodes (Node.perm_partsAt (n := n) [.name, .param, .body] (by decide)
    fun p hp => hroles ▸ hformed.roles p hp)
  simpa using this

theorem quiet_names {n : Node} (h : n.IsFormed) (hparts : Formed n.parts)
    (hkind : n.kind.isSite = true) : ∀ m ∈ Part.nodes (partsAt n .name), m.kind.isSite = false := by
  intro m hm
  obtain ⟨c, ⟨r, hc⟩, hmc⟩ := Part.exists_holds_of_mem_nodes hm
  obtain rfl : r = .name := role_of_mem_partsAt hc
  have hmem := partsAt_subset n .name hc
  have hid := h.name (by simpa [Kind.isSite] using hkind) c hmem
  have hformed := hparts c (Part.mem_nodes_of_holds ⟨_, hmem⟩ Node.mem_preorder_self)
  rw [Node.preorder_eq, hformed.parts_eq_nil (by rw [hid]; rfl), Part.nodes_nil,
    List.mem_singleton] at hmc
  rw [hmc, hid]
  rfl

theorem tally_quiet {parts : List Part} (h : ∀ m ∈ Part.nodes parts, m.kind.isSite = false)
    (x : Nat) : Part.tally Node.dropped x parts = 0 ∧ Part.tally Node.memberValues x parts = 0 :=
  ⟨Part.tally_eq_zero fun m hm => (dropped_of_not_site (h m hm)).1,
    Part.tally_eq_zero fun m hm => (dropped_of_not_site (h m hm)).2⟩

theorem mem_nodes_partsAt {n : Node} {r : Role} : Part.nodes (partsAt n r) ⊆ Part.nodes n.parts :=
  Part.nodes_subset (partsAt_subset n r)

theorem tally_function (h : Node → List Node) (x : Nat) {n : Node} (hformed : n.IsFormed)
    (hkind : n.kind.isFunction = true) : Part.tally h x n.parts =
      Part.tally h x (partsAt n .name) + Part.tally h x (partsAt n .param) +
        Part.tally h x (partsAt n .body) := by
  rw [← Part.tally_append, ← Part.tally_append]
  apply Part.tally_of_perm
  rw [Part.nodes_append, Part.nodes_append]
  exact perm_function hformed hkind

theorem times_function (x : Nat) {n : Node} (hformed : n.IsFormed)
    (hkind : n.kind.isFunction = true) : Part.times x n.parts =
      Part.times x (partsAt n .name) + Part.times x (partsAt n .param) +
        Part.times x (partsAt n .body) := by
  rw [← Part.times_append, ← Part.times_append]
  apply Part.times_of_perm
  rw [Part.nodes_append, Part.nodes_append]
  exact perm_function hformed hkind

theorem Fit.statements {r : Role} {body : Node} {statements : List Part}
    (h : Fit [.node r body]) (hkind : body.kind = .block) (hsub : statements.Sublist body.parts) :
    Fit [.node r (body.withParts statements)] := by
  obtain ⟨⟨-, htidy⟩, hparts⟩ := fit_node.1 h
  have hformed := (formed_node.1 (formed_statements h.formed hkind hsub.subset)).1
  refine fit_node.2 ⟨⟨hformed, ?_, ?_, ?_⟩, hparts.subset (Part.nodes_subset hsub.subset)⟩
  . intro r hitem hparam
    exact Nat.le_trans (hsub.filter _).length_le (htidy.single r hitem hparam)
  . intro hconstructor
    cases body with
    | mk id span label parts =>
      cases label <;> cases hkind
      cases hconstructor
  . intro hmethod
    rw [Node.kind_withParts, hkind] at hmethod
    cases hmethod

theorem tally_stripped {h : Node → List Node} (hnone : ∀ m : Node, m.kind.isSite = false → h m = [])
    (x : Nat) {r : Role} {body : Node} (hkind : body.kind = .block) (hfit : Fit [.node r body]) :
    Part.tally h x [.node r body] =
      Part.tally h x [.node r (body.withParts (stripDirective body.parts).1)] := by
  have hperm := perm_stripDirective body.parts
  have hquiet : ∀ m ∈ ((prologue body.parts).find? isUseStrict).elim []
    Node.preorder, h m = [] := by
    intro m hm
    cases hd : (prologue body.parts).find? isUseStrict with
    | none =>
      rw [hd] at hm
      cases hm
    | some d =>
      rw [hd] at hm
      obtain ⟨his, r, hr⟩ := isDirective_of_mem_prologue (List.mem_of_find?_eq_some hd)
      refine hnone m (quiet_of_directive (r := r) his ((fit_node.1 hfit).2.subset ?_) m hm)
      exact Part.nodes_subset (by simpa using hr)
  have hparts : Part.tally h x body.parts = Part.tally h x (stripDirective body.parts).1 := by
    rw [Part.tally, ((hperm.flatMap_right h).map _).count_eq, List.flatMap_append,
      List.flatMap_eq_nil_iff.2 hquiet]
    rfl
  rw [Part.tally_node, Part.tally_node, hnone body (by rw [hkind]; rfl),
    hnone _ (by rw [Node.kind_withParts, hkind]; rfl), hparts]
  rfl

theorem times_stripped (x : Nat) (r : Role) (body : Node) :
    Part.times x [.node r body] =
      ((((prologue body.parts).find? isUseStrict).elim [] Node.preorder).map (·.id)).count x +
        Part.times x [.node r (body.withParts (stripDirective body.parts).1)] := by
  have hparts : Part.times x body.parts =
      ((((prologue body.parts).find? isUseStrict).elim [] Node.preorder).map (·.id)).count x +
        Part.times x (stripDirective body.parts).1 := by
    rw [Part.times, ((perm_stripDirective body.parts).map _).count_eq, List.map_append,
      List.count_append]
    rfl
  rw [Node.times_eq, Node.times_eq, hparts, Node.id_withParts, Node.parts_withParts]
  omega

theorem dropped_function (x : Nat) {n : Node} (hformed : n.IsFormed)
    (hkind : n.kind.isFunction = true)
    (hnames : ∀ m ∈ Part.nodes (partsAt n .name), m.kind.isSite = false) :
    Part.tally Node.dropped x [.node .body n] =
      ((n.directive?.elim [] Node.preorder).map (·.id)).count x +
        Part.tally Node.dropped x (partsAt n .param) +
        Part.tally Node.dropped x (partsAt n .body) := by
  rw [Part.tally_node, tally_function _ _ hformed hkind, (tally_quiet hnames x).1, Node.dropped,
    if_pos hkind, Part.tally_nil]
  omega

theorem memberValues_function (x : Nat) {n : Node} (hformed : n.IsFormed)
    (hkind : n.kind.isFunction = true)
    (hnames : ∀ m ∈ Part.nodes (partsAt n .name), m.kind.isSite = false) :
    Part.tally Node.memberValues x n.parts =
      Part.tally Node.memberValues x (partsAt n .param) +
        Part.tally Node.memberValues x (partsAt n .body) := by
  rw [tally_function _ _ hformed hkind, (tally_quiet hnames x).2]
  omega

theorem covers_stripped {n body : Node} (hbodyKind : body.kind = .block)
    (hbody : Part.nodes [.node .body body] ⊆ Part.nodes n.parts) :
    Covers bound (partsAt n .param ++
      [.node .body (body.withParts (stripDirective body.parts).1)]) n.parts := by
  intro m hm
  simp only [Part.nodes_append, List.mem_append, Part.nodes_node, Part.nodes_nil,
    List.append_nil, Node.preorder_eq, Node.parts_withParts, List.mem_cons] at hm
  rcases hm with hm | rfl | hm
  . exact .inl (mem_nodes_partsAt hm)
  . have hkind : (body.withParts (stripDirective body.parts).1).kind = .block := by
      rw [Node.kind_withParts, hbodyKind]
    refine .inr ⟨⟨by rw [hkind]; rfl, Node.isComplete_of_isBare (by rw [hkind]; rfl)⟩,
      .inr ⟨body, ?_, rfl, rfl, rfl⟩⟩
    exact hbody (by simpa using Node.mem_preorder_self)
  . have hsub := stripDirective_sublist body.parts
    exact .inl (hbody (Node.nodes_parts_subset (Part.nodes_subset hsub.subset hm)))

theorem Mover.visitFunction (hmove : Mover bound visit A)
    (hclosed : IsInherited A) {node node' : Node}
    (hformed : node.IsFormed) (htidy : node.IsTidy) (hkind : node.kind.isFunction = true)
    (hfit : Fit node.parts) (hA : ∀ c, Part.Holds node.parts c → A c)
    (hfn : fn < s.functions.size) (hbound : bound ≤ s.counters.node)
    (h : Ends (visitFunction visit fn node) s node' s') :
    ∃ t, t.functions.size = s.functions.size ∧ t.counters = s.counters ∧ t.sites = s.sites ∧
      node'.id = node.id ∧
      Moves bound (fun x => Part.tally Node.dropped x [.node .body node])
        (fun x => Part.tally Node.memberValues x node.parts) node.parts node'.parts t s' := by
  have hsite : node.kind.isSite = true := by simp [Kind.isSite, hkind]
  have hnames := quiet_names hformed hfit.formed hsite
  have hfairNames : ∀ m ∈ Part.nodes (partsAt node .name), Fair bound node.parts s' m :=
    fun m hm => fair_of_mem (hnames m hm) (mem_nodes_partsAt hm)
  obtain ⟨body, params, body', hbody, rfl, hcases⟩ := ends_visitFunction h
  have hat := Node.exists_of_part? hbody
  have hheld : Part.Holds node.parts body := holds_partsAt ⟨_, hat⟩
  have hsingle : Part.nodes (partsAt node .body) = body.preorder := by
    rw [Node.nodes_partsAt_single (htidy.single _ (by simp) (by simp)), hbody]
    simp
  have hbodyTally : ∀ h x, Part.tally h x (partsAt node .body) =
      Part.tally h x [.node .body body] := by
    intro h x
    rw [Part.tally, hsingle, Part.tally, Part.nodes_node, Part.nodes_nil, List.append_nil]
  have hbodyTimes : ∀ x, Part.times x (partsAt node .body) = Part.times x [.node .body body] := by
    intro x
    rw [Part.times, hsingle, Part.times, Part.nodes_node, Part.nodes_nil, List.append_nil]
  have hbodySub : Part.nodes [.node .body body] ⊆ Part.nodes node.parts := by
    rw [Part.nodes_node, Part.nodes_nil, List.append_nil, ← hsingle]
    exact mem_nodes_partsAt
  have hparamsA : ∀ c, Part.Holds (partsAt node .param) c → A c := fun c hc =>
    hA c (holds_partsAt hc)
  have hparamsFit : Fit (partsAt node .param) := hfit.subset mem_nodes_partsAt
  have hbodyFit : Fit [.node .body body] := hfit.subset hbodySub
  obtain ⟨hexpr, ret, block, t₁, t₂, t₃, hret, hblock, hparams, hbody'⟩ |
    ⟨hexpr, hbodyKind, t, hparams, hbody'⟩ := hcases
  . obtain ⟨hmret, hretBound⟩ := shifts_freshNode hbound hret
    have hbound₁ := Nat.le_trans hbound hmret.node
    obtain ⟨hmblock, hblockBound⟩ := shifts_freshNode hbound₁ hblock
    have hbound₂ := Nat.le_trans hbound₁ hmblock.node
    have hfn₂ : fn < t₂.functions.size :=
      Nat.lt_of_lt_of_le hfn (Nat.le_trans hmret.size hmblock.size)
    have hmparams := hmove.visitParts hparamsFit hfn₂ hbound₂ hparamsA hparams
    have hmbody := hmove.visitValueBody hretBound hblockBound hbodyFit
      (Nat.lt_of_lt_of_le hfn₂ hmparams.size) (Nat.le_trans hbound₂ hmparams.node) (hA _ hheld)
      hbody'
    have hall : Shifts bound (partsAt node .param ++ [.node .body body])
      (params ++ [.node .body body']) s s' := hmret.trans (hmblock.trans (hmparams.trans hmbody))
    refine ⟨s, rfl, rfl, rfl, rfl, hall.balance ?_ ?_ ?_ (covers_of_subset bound ?_) ?_⟩
    . intro x _
      have hnone : node.directive? = none := by simp [Node.directive?, hexpr]
      rw [dropped_function x hformed hkind hnames, hnone, times_function x hformed hkind,
        hbodyTally, hbodyTimes]
      simp only [Part.times_append, Part.tally_append, Node.parts_mk, Option.elim_none,
        List.map_nil, List.count_nil]
      omega
    . intro x
      rw [memberValues_function x hformed hkind hnames, hbodyTally, Part.tally_append]
    . intro x
      rw [tally_function _ x hformed hkind, hbodyTally, Part.tally_append]
      omega
    . rw [Part.nodes_append]
      exact List.append_subset.2 ⟨mem_nodes_partsAt, hbodySub⟩
    . intro m hm
      simp only [Node.parts_mk, Part.nodes_append, List.mem_append] at hm ⊢
      rcases hm with (hm | hm) | hm
      . exact .inr (hfairNames m hm)
      . exact .inl (.inl hm)
      . exact .inl (.inr hm)
  . have hsub := stripDirective_sublist body.parts
    have hmparams := hmove.visitParts hparamsFit (by simpa using hfn) (by exact hbound) hparamsA
      hparams
    have hmbody := hmove .body (hbodyFit.statements hbodyKind hsub)
      (Nat.lt_of_lt_of_le (by simpa using hfn) hmparams.size)
      (Nat.le_trans (by exact hbound) hmparams.node)
      (hclosed _ _ (hA _ hheld) hsub.subset) hbody'
    have hdirective : node.directive? = (prologue body.parts).find? isUseStrict := by
      simp [Node.directive?, hexpr, hbody]
    refine ⟨_, ?_, ?_, ?_, rfl, (hmparams.trans hmbody).balance ?_ ?_ ?_ ?_ ?_⟩
    . exact Array.size_modify
    . rfl
    . rfl
    . intro x _
      have htimes := times_stripped x .body body
      rw [← hdirective] at htimes
      rw [dropped_function x hformed hkind hnames, times_function x hformed hkind, hbodyTally,
        hbodyTimes, Part.tally_append,
        tally_stripped (fun _ h => (dropped_of_not_site h).1) x hbodyKind hbodyFit]
      simp only [Part.times_append, Node.parts_mk]
      omega
    . intro x
      rw [memberValues_function x hformed hkind hnames, hbodyTally, Part.tally_append,
        tally_stripped (fun _ h => (dropped_of_not_site h).2) x hbodyKind hbodyFit]
    . intro x
      rw [tally_function _ x hformed hkind, hbodyTally, Part.tally_append,
        tally_stripped (h := Node.standing) (fun _ h => standing_of_not_site h) x hbodyKind
          hbodyFit]
      omega
    . exact covers_stripped hbodyKind hbodySub
    . intro m hm
      simp only [Node.parts_mk, Part.nodes_append, List.mem_append] at hm ⊢
      rcases hm with (hm | hm) | hm
      . exact .inr (hfairNames m hm)
      . exact .inl (.inl hm)
      . exact .inl (.inr hm)

structure Origin (given : List Part) (site node : Node) (c : Circumstances) (isMember : Bool) :
    Prop where
  origin : ∃ n ∈ Part.nodes given, n.kind.isSite = true ∧ Same n site ∧
    c.isConstructor = n.kind.isClass ∧ (n.kind.isFunction = true → node.isStrictBody =
      n.isStrictBody)
  strict : c.isStrict = (c.isConstructor || isMember)

theorem stems_entered {site node : Node} {c : Circumstances} {given : List Part}
    {isMember : Bool} {f : Function} {ms : List Nat}
    (hentered : Entered (some fn) (some site) false node c s s' f)
    (horigin : Origin given site node c isMember) (hfn : fn < s.functions.size)
    (hms : s.functions.size ∉ ms) :
    Stems given ((if isMember then [s.functions.size] else []) ++ ms) s' s.functions.size f := by
  obtain ⟨n, hn, hsite, hsame, hconstructor, hbody⟩ := horigin.origin
  obtain ⟨o, ho⟩ : ∃ o, s.functions[fn]? = some o := ⟨_, Array.getElem?_eq_getElem hfn⟩
  refine ⟨site, fn, _, n, hentered.place, hentered.outer, hentered.change fn o ho, hn, hsite,
    hsame, hentered.constructor.trans hconstructor, ?_⟩
  have hmember : decide (s.functions.size ∈
      (if isMember = true then [s.functions.size] else []) ++ ms) = isMember := by
    cases isMember <;> simp [hms]
  rw [if_pos rfl, hmember, hentered.strict, horigin.strict, hentered.constructor]
  cases hfunction : n.kind.isFunction with
  | true =>
    rw [hbody hfunction]
    simp [ho, Bool.or_assoc, Bool.or_comm, Bool.or_left_comm]
  | false =>
    have hclass : c.isConstructor = true := by
      rw [hconstructor]
      simpa [Kind.isSite, hfunction] using hsite
    simp [hclass]

theorem Mover.enter (hmove : Mover bound visit A) (hgrow : Grower visit)
    (hclosed : IsInherited A) {site node : Node}
    {c : Circumstances} {given : List Part} {isMember : Bool} {lost : Nat → Nat}
    (hformed : node.IsFormed) (htidy : node.IsTidy) (hkind : node.kind.isFunction = true)
    (hfit : Fit node.parts) (hA : ∀ c, Part.Holds node.parts c → A c)
    (hid : bound ≤ node.id) (hcovers : Covers bound node.parts given)
    (hgiven : ∀ x, [site.id].count x + Part.tally Node.standing x node.parts ≤
      Part.tally Node.standing x given)
    (hlost : ∀ x, x < bound → lost x + Part.times x node.parts =
      Part.times x given + Part.tally Node.dropped x [.node .body node])
    (horigin : Origin given site node c isMember)
    (hfn : fn < s.functions.size) (hbound : bound ≤ s.counters.node)
    (h : Ends (Extract.enter visit (some fn) (some site) false node c)
      { s with sites := s.sites.insert site.id s.functions.size } () s') :
    Moves bound lost (fun x => Part.tally Node.memberValues x node.parts +
        if isMember then [site.id].count x else 0) given [] s s' ∧
      (s'.sites.get? site.id).isSome = true := by
  obtain ⟨f, hentered⟩ := hgrow.entered (by rintro p ⟨⟩; exact hfn) h
  obtain ⟨record, t, u, node', henters, hvisit, hend⟩ := ends_enter (by rintro p ⟨⟩; exact hfn) h
  have hsize : t.functions.size = s.functions.size + 1 := henters.size
  have hnumbers : t.counters.node = s.counters.node := henters.numbers
  have hget : s'.functions[s.functions.size]? = some f := hentered.get
  have hchange : ∀ (i : Nat) (g : Function), s.functions[i]? = some g →
      s'.functions[i]? = some (if some fn = some i then
        { g with children := g.children ++ [s.functions.size] } else g) := hentered.change
  dsimp only at hvisit hend
  obtain ⟨t₁, hsize₁, hcounters₁, hsites₁, hid', hmoves⟩ := hmove.visitFunction
    hclosed hformed htidy
    hkind hfit hA (by omega) (by omega) hvisit
  have hgrown := hmoves.size
  have hcounters : s'.counters = u.counters := by rw [hend]
  have hsites : s'.sites = u.sites := by rw [hend]
  have hsizes : s'.functions.size = u.functions.size := by rw [hend]; exact Array.size_modify
  have hmodify : ∀ i, s'.functions[i]? = if s.functions.size = i then
      u.functions[i]?.map fun f => { f with node := node' } else u.functions[i]? := by
    intro i
    rw [hend]
    exact Array.getElem?_modify
  have hrest : ∀ i, s.functions.size < i → s'.functions[i]? = u.functions[i]? := by
    intro i hi
    rw [hmodify, if_neg (by omega)]
  have hnode : f.node = node' := by
    rw [hmodify, if_pos rfl] at hget
    obtain ⟨g, -, rfl⟩ := Option.map_eq_some_iff.1 hget
    rfl
  have hadded : ∀ {α : Type} (get : Function → α), added get s s' = get f :: added get t₁ u :=
    fun get => added_cons get (by omega) hget hrest
  have hentry : ∀ id, id = site.id ∨ (s.sites.get? id).isSome = true →
      (s'.sites.get? id).isSome = true := by
    intro id hid
    rw [hsites]
    apply hmoves.sites
    rw [hsites₁, henters.sites, Table.get?_insert]
    split
    . rfl
    . next hne => exact hid.resolve_left fun heq => hne heq.symm
  have hfair : ∀ m, Fair bound node.parts u m → Fair bound given s' m := fun m hm =>
    (hm.mono fun id hid => by rw [hsites]; exact hid).of_covers hcovers
  refine ⟨⟨?_, ?_, ?_, fun id hid => hentry id (.inr hid), ?_, ?_, fun m hm =>
    (by cases hm), ?_, ?_,
    ?_⟩, hentry _ (.inl rfl)⟩
  . have := hmoves.node
    rw [hcounters₁, hnumbers] at this
    rw [hcounters]
    exact this
  . omega
  . intro i g hg
    rw [hchange i g hg]
    split
    . exact ⟨_, rfl⟩
    . exact ⟨_, rfl⟩
  . intro x hlt
    have hx := hmoves.exact x hlt
    have hl := hlost x hlt
    have hmade : made s s' = .node .body node' :: made t₁ u := by
      rw [made_eq_added, made_eq_added, hadded, hnode, List.map_cons]
    have hroot : [node.id].count x = 0 := by
      rw [List.count_singleton, if_neg (by simp; omega)]
    rw [hmade, Part.times_nil, Node.times_eq, hid']
    omega
  . intro x
    have hx := hmoves.births x
    have hg := hgiven x
    have hhere : siteId f = some site.id := by rw [siteId, hentered.place]; rfl
    rw [hadded, hhere, List.count_cons]
    rw [List.count_singleton] at hg
    have heq : (if (some site.id == some x) = true then 1 else 0) =
        if (site.id == x) = true then 1 else 0 := by simp
    omega
  . intro c' g hc hg
    by_cases hc' : c' = s.functions.size
    . subst hc'
      rw [hget] at hg
      cases hg
      rw [hnode, hid']
      exact hid
    . rw [hrest c' (by omega)] at hg
      exact hmoves.root c' g (by omega) hg
  . intro c' g hc hg m hm
    by_cases hc' : c' = s.functions.size
    . subst hc'
      rw [hget] at hg
      cases hg
      rw [hnode] at hm
      exact hfair m (hmoves.fair m hm)
    . rw [hrest c' (by omega)] at hg
      exact hfair m (hmoves.inner c' g (by omega) hg m hm)
  . obtain ⟨ms, hms, hcount, hstems⟩ := hmoves.stems
    refine ⟨(if isMember then [s.functions.size] else []) ++ ms, ?_, ?_, ?_⟩
    . intro c' hc
      rcases List.mem_append.1 hc with hc | hc
      . split at hc
        . rw [List.mem_singleton.1 hc]
          omega
        . cases hc
      . have := hms c' hc
        omega
    . intro x
      have hold : (ms.map fun c => s'.functions[c]?.bind siteId) =
          ms.map fun c => u.functions[c]?.bind siteId := by
        refine List.map_congr_left fun c' hc => ?_
        have := hms c' hc
        rw [hrest c' (by omega)]
      have hhere : s'.functions[s.functions.size]?.bind siteId = some site.id := by
        rw [hget, Option.bind_some, siteId, hentered.place]
        rfl
      rw [List.map_append, List.count_append, hold, hcount]
      cases isMember with
      | false => simp
      | true =>
        simp only [if_true, List.map_cons, List.map_nil, hhere, List.count_singleton]
        rw [Nat.add_comm]
        simp
    . intro c' g hc hg
      by_cases hc' : c' = s.functions.size
      . subst hc'
        rw [hget] at hg
        cases hg
        have hnew : s.functions.size ∉ ms := fun hm => by
          have := hms _ hm
          omega
        have hown := stems_entered hentered horigin hfn hnew
        exact hown
      . rw [hrest c' (by omega)] at hg
        refine (hstems c' g (by omega) hg).mono (fun i o ho => ?_) hcovers ?_ (.refl g)
        . rw [hmodify]
          split
          . exact ⟨{ o with node := node' }, by rw [ho]; rfl, rfl⟩
          . exact ⟨o, ho, rfl⟩
        . have hno : c' ∉ (if isMember then [s.functions.size] else []) := by
            split
            . simpa using hc'
            . simp
          simp [hno]

structure Clones (n node : Node) : Prop where
  kind : node.kind = .functionExpression ∨ node.kind = .arrowFunction
  marks : node.functionMarks = n.functionMarks
  parts : ∃ names, (names = [] ∨ names = partsAt n .name) ∧
    node.parts = names ++ (partsAt n .param ++ partsAt n .body)

namespace Clones

variable {n node : Node} {r : Role}

theorem isFunction (h : Clones n node) : node.kind.isFunction = true := by
  rcases h.kind with h | h <;> rw [h] <;> rfl

theorem subset (h : Clones n node) : node.parts ⊆ n.parts := by
  obtain ⟨names, hnames, hparts⟩ := h.parts
  rw [hparts]
  refine List.append_subset.2 ⟨?_, List.append_subset.2 ⟨partsAt_subset _ _, partsAt_subset _ _⟩⟩
  rcases hnames with rfl | rfl
  . exact List.nil_subset _
  . exact partsAt_subset _ _

theorem filter_partsAt (n : Node) (r t : Role) :
    ((partsAt n t).filter fun p => p.role == r) = if t = r then partsAt n r else [] := by
  unfold partsAt
  rw [List.filter_filter]
  split
  . next h => simp [h]
  . next h =>
    apply List.filter_eq_nil_iff.2
    intro p _ hp
    simp only [Bool.and_eq_true, beq_iff_eq] at hp
    exact h (hp.2.symm.trans hp.1)

theorem partsAt_body (h : Clones n node) : partsAt node .body = partsAt n .body := by
  obtain ⟨names, hnames, hparts⟩ := h.parts
  have hfront : (names.filter fun p => p.role == .body) = [] := by
    rcases hnames with rfl | rfl
    . rfl
    . rw [filter_partsAt, if_neg (by simp)]
  rw [partsAt, hparts, List.filter_append, List.filter_append, hfront, filter_partsAt,
    filter_partsAt, if_neg (by simp), if_pos rfl]
  rfl

theorem body (h : Clones n node) : node.part? .body = n.part? .body := by
  rw [← part?_partsAt node, ← part?_partsAt n, h.partsAt_body]
  rfl

theorem isStrictBody (h : Clones n node) : node.isStrictBody = n.isStrictBody := by
  rw [Node.isStrictBody, Node.isStrictBody, h.marks, h.body]

theorem isTidy (h : Clones n node) (hn : n.IsTidy) : node.IsTidy := by
  obtain ⟨names, hnames, hparts⟩ := h.parts
  refine ⟨?_, ?_, ?_⟩
  . intro r hitem hparam
    have hsingle := hn.single r hitem hparam
    unfold Node.IsSingle at hsingle ⊢
    have hnames : (names.filter fun p => p.role == r).length ≤
        if Role.name = r then (partsAt n r).length else 0 := by
      rcases hnames with rfl | rfl
      . exact Nat.zero_le _
      . rw [filter_partsAt]
        split <;> simp
    rw [hparts, List.filter_append, List.filter_append, filter_partsAt, filter_partsAt,
      if_neg (Ne.symm hparam), List.nil_append, List.length_append]
    change (partsAt n r).length ≤ 1 at hsingle
    split
    . next hr =>
      rw [if_neg (by rw [← hr]; simp)] at hnames
      omega
    . split at hnames <;> simp <;> omega
  . intro hconstructor
    cases node with
    | mk id span label parts =>
      rcases h.kind with hk | hk <;> cases label <;> cases hk <;> cases hconstructor
  . intro hmethod
    rcases h.kind with hk | hk <;> rw [hk] at hmethod <;> cases hmethod

variable (hfit : Fit [.node r n]) (hkind : n.kind.isFunction = true)

include hfit hkind

theorem isFormed (h : Clones n node) : node.IsFormed :=
  isFormed_function (fit_node.1 hfit).1.1 hkind h.kind h.marks h.subset

theorem tally_parts (h : Clones n node) {k : Node → List Node}
    (hnone : ∀ m : Node, m.kind.isSite = false → k m = []) (x : Nat) :
    Part.tally k x node.parts = Part.tally k x n.parts := by
  obtain ⟨⟨hformed, -⟩, hparts⟩ := fit_node.1 hfit
  have hquiet : Part.tally k x (partsAt n .name) = 0 :=
    Part.tally_eq_zero fun m hm =>
      hnone m (quiet_names hformed hparts.formed (by simp [Kind.isSite, hkind]) m hm)
  obtain ⟨names, hnames, heq⟩ := h.parts
  have hzero : Part.tally k x names = 0 := by
    rcases hnames with rfl | rfl
    . rfl
    . exact hquiet
  rw [heq, Part.tally_append, Part.tally_append, tally_function _ _ hformed hkind, hquiet, hzero]
  omega

theorem dropped (h : Clones n node) (x : Nat) :
    Part.tally Node.dropped x [.node .body node] = Part.tally Node.dropped x [.node r n] := by
  have hdirective : node.directive? = n.directive? := by
    rw [Node.directive?, Node.directive?, h.marks, h.body]
  rw [Part.tally_node, Part.tally_node, tally_parts hfit hkind h
    (fun _ hm => (dropped_of_not_site hm).1), Node.dropped, Node.dropped, if_pos hkind,
    if_pos h.isFunction, hdirective]

theorem memberValues (h : Clones n node) (x : Nat) :
    Part.tally Node.memberValues x node.parts = Part.tally Node.memberValues x [.node r n] := by
  rw [Part.tally_node, tally_parts hfit hkind h (fun _ hm => (dropped_of_not_site hm).2),
    Node.memberValues, if_neg (by rw [Kind.isClass_of_isFunction hkind]; simp)]
  simp

end Clones

theorem Mover.extract (hmove : Mover bound visit A) (hgrow : Grower visit)
    (hclosed : IsInherited A) {n site : Node}
    {c : Circumstances} (r : Role) (hfit : Fit [.node r n]) (hkind : n.kind.isFunction = true)
    (hA : ∀ c, Part.Holds n.parts c → A c) (hc : c.isConstructor = false)
    (hfn : fn < s.functions.size) (hbound : bound ≤ s.counters.node)
    (h : Ends (extract visit fn n c) s site s') :
    Moves bound (fun x => Part.tally Node.dropped x [.node r n])
      (fun x => Part.tally Node.memberValues x [.node r n] +
        if c.isStrict then [n.id].count x else 0) [.node r n] [.node r site] s s' := by
  obtain ⟨⟨hformed, htidy⟩, hparts⟩ := fit_node.1 hfit
  have hisSite : n.kind.isSite = true := by simp [Kind.isSite, hkind]
  unfold Extract.extract at h
  obtain ⟨number, t, hnumber, h⟩ := ends_bind.1 h
  dsimp only at h
  rw [ends_modify_bind] at h
  obtain ⟨_, u, henter, h⟩ := ends_bind.1 h
  obtain ⟨hsite, rfl⟩ := ends_pure.1 h
  rw [← hsite] at henter
  obtain ⟨hfresh, hid⟩ := shifts_freshNode hbound hnumber
  generalize hnode : Node.mk number n.span _ _ = node at henter
  have hclones : Clones n node := by
    rw [← hnode]
    refine ⟨kind_takenLabel hkind, ?_, ?_⟩
    . cases n with
      | mk id span label parts => cases label <;> rfl
    . rw [Node.parts_mk]
      split
      . exact ⟨[], .inl rfl, rfl⟩
      . exact ⟨_, .inr rfl, rfl⟩
  have hmem : n ∈ Part.nodes [.node r n] := by simp [Node.mem_preorder_self]
  have hsub : Part.nodes n.parts ⊆ Part.nodes [.node r n] := Node.nodes_parts_subset
  have hsame : Same n site := by
    rw [hsite]
    exact ⟨rfl, rfl, rfl⟩
  have hsplit : ∀ x, Part.times x n.parts = Part.times x site.parts + Part.times x node.parts := by
    intro x
    rw [times_function x hformed hkind, hsite, ← hnode, Node.parts_mk, Node.parts_withParts]
    split <;> simp only [Part.times_append, Part.times_nil] <;> omega
  have henter : Ends (Extract.enter visit (some fn) (some site) false node c)
      { t with sites := t.sites.insert site.id t.functions.size } () s' := by
    rw [← hsame.id]
    exact henter
  have hlost : ∀ x, x < bound → Part.times x [.node r site] +
      Part.tally Node.dropped x [.node r n] + Part.times x node.parts =
        Part.times x [.node r n] + Part.tally Node.dropped x [.node .body node] := by
    intro x _
    rw [hclones.dropped hfit hkind, Node.times_eq, Node.times_eq, hsplit, hsame.id]
    omega
  have hgiven : ∀ x, [site.id].count x + Part.tally Node.standing x node.parts ≤
      Part.tally Node.standing x [.node r n] := by
    intro x
    rw [Part.tally_node, hclones.tally_parts hfit hkind (k := Node.standing)
      (fun _ hm => standing_of_not_site hm), Node.standing, if_pos hisSite, ← hsame.id]
    simp only [List.map_cons, List.map_nil]
    omega
  have horigin : Origin [.node r n] site node c c.isStrict := by
    refine ⟨⟨n, hmem, hisSite, hsame, ?_, fun _ => hclones.isStrictBody⟩, by rw [hc]; rfl⟩
    rw [hc, Kind.isClass_of_isFunction hkind]
  have hinner : Part.nodes node.parts ⊆ Part.nodes n.parts := Part.nodes_subset hclones.subset
  obtain ⟨hmoves, hentry⟩ := hmove.enter hgrow hclosed (hclones.isFormed hfit hkind)
    (hclones.isTidy htidy) hclones.isFunction (hparts.subset hinner)
    (by rintro c ⟨r, hc⟩; exact hA c ⟨r, hclones.subset hc⟩) (by rw [← hnode]; exact hid)
    (covers_of_subset bound (List.Subset.trans hinner hsub)) hgiven hlost horigin
    (Nat.lt_of_lt_of_le hfn hfresh.size) (Nat.le_trans hbound hfresh.node) henter
  refine (Moves.trans hfresh hmoves).balance ?_ ?_ (fun x => Nat.le_refl _)
    (covers_of_subset bound (List.Subset.refl _)) ?_
  . intro x _
    simp only [List.nil_append, Part.times_nil, Part.tally_nil]
    omega
  . intro x
    rw [hclones.memberValues hfit hkind, hsame.id, Part.tally_nil]
    omega
  . intro m hm
    rw [Part.nodes_node, Part.nodes_nil, List.append_nil, Node.preorder_eq, List.mem_cons] at hm
    have hnames : ∀ p ∈ site.parts, p ∈ partsAt n .name := by
      rw [hsite, Node.parts_withParts]
      split
      . exact fun _ hp => hp
      . intro _ hp
        cases hp
    right
    rcases hm with rfl | hm
    . refine ⟨.inr ⟨n, hmem, hsame⟩, fun _ => ⟨⟨?_, ?_⟩, hentry⟩, fun _ => ?_⟩
      . intro _ p hp
        rw [role_of_mem_partsAt (hnames p hp)]
        simp
      . intro hclass
        rw [Node.kind, ← hsame.label] at hclass
        rw [show n.label.kind = n.kind from rfl, Kind.isClass_of_isFunction hkind] at hclass
        cases hclass
      . refine Node.isComplete_of_isBare (Kind.isBare_of_isSite ?_)
        rw [Node.kind, ← hsame.label]
        exact hisSite
    . have hm := Part.nodes_subset hnames hm
      exact fair_of_mem (quiet_names hformed hparts.formed hisSite m hm)
        (hsub (mem_nodes_partsAt hm))

end Extract
end ScriptC
