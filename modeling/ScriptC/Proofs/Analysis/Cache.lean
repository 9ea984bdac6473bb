import ScriptC.Proofs.Analysis.Shapes
import ScriptC.Proofs.Node.Pattern

/-!
Cache slots. Going through a function comes down to a row of events, assignments to variables and
accesses to members. Two accesses share a slot exactly when they have the same key; they are then
accesses to the same property of the same object if and only if keys tell the accesses of the
function apart.
-/

namespace ScriptC.Analyze.Cache

open Pass

inductive Origin where
  | binding (name : String) (decl generation : Nat)
  | this (generation : Nat)
  | text (value : String)
  | result (call : Nat)
  deriving DecidableEq

structure Access where
  origin : Origin
  path : List String
  deriving DecidableEq

def Origin.key : Origin → String
  | .binding name d generation => s!"{name}#{d}#{generation}"
  | .this generation => s!"this#{generation}"
  | .text value => "lit:" ++ Text.quote value
  | .result call => s!"call@{call}"

def Access.key (x : Access) : String :=
  x.path.foldl (fun base name => base ++ "." ++ name) x.origin.key

def accessStep (b : Bindings) (generation : Nat → Nat) (access : Node → Option Access) (n : Node) :
    Option Access :=
  match n.label with
  | .identifier _ =>
    match b.use? n with
    | some (.direct d) => some ⟨.binding (b.decl d).name d (generation d), []⟩
    | _ => none
  | .this => some ⟨.this ((b.resolved? n).elim 0 generation), []⟩
  | .literal (.string value) _ => some ⟨.text value, []⟩
  | .call _ | .new => some ⟨.result n.id, []⟩
  | .member .. => do
    let name ← n.memberName?
    let x ← (n.part? .object).bind access
    return ⟨x.origin, x.path ++ [name]⟩
  | _ => none

def access? (b : Bindings) (generation : Nat → Nat) (n : Node) : Option Access :=
  Node.fix (accessStep b generation) (fun _ => none) n

def CacheState.generation (s : CacheState) (d : Nat) : Nat := s.generations.getD d 0

theorem keyStep_eq {s : CacheState} {key : Node → Option String} {access : Node → Option Access}
    (h : ∀ n, key n = (access n).map Access.key) (n : Node) :
    keyStep s key n = (accessStep s.bindings (CacheState.generation s) access n).map
      Access.key := by
  cases n with
  | mk id span label parts =>
    cases label with
    | identifier name =>
      simp only [keyStep, accessStep, Node.label]
      rcases s.bindings.use? _ with _ | (d | d | _) <;> rfl
    | this =>
      simp only [keyStep, accessStep, Node.label, Option.map_some, Option.some.injEq]
      cases s.bindings.resolved? (.mk id span .this parts) with
      | none => rfl
      | some d => simp [Access.key, Origin.key, CacheState.generation, Table.getD_eq_get?]
    | literal value raw => cases value <;> rfl
    | member computed optional =>
      simp only [keyStep, accessStep, Node.label]
      generalize Node.mk id span (.member computed optional) parts = n
      cases n.memberName? with
      | none => rfl
      | some name =>
        cases n.part? .object with
        | none => rfl
        | some o =>
          simp only [Option.bind_eq_bind, Option.bind_some, h o]
          cases access o with
          | none => rfl
          | some x => simp [Access.key]
    | _ => rfl

theorem unroll_keyStep (s : CacheState) (depth : Nat) (n : Node) :
    Node.unroll (keyStep s) (fun _ => none) depth n =
      (Node.unroll (accessStep s.bindings (CacheState.generation s)) (fun _ => none) depth n).map
        Access.key := by
  induction depth generalizing n with
  | zero => rfl
  | succ depth ih => exact keyStep_eq ih n

theorem key?_eq (s : CacheState) (n : Node) :
    key? s n = (access? s.bindings (CacheState.generation s) n).map Access.key :=
  unroll_keyStep s n.height n

inductive Event where
  | store (target : Node)
  | setThis (decl : Nat)
  | access (n : Node)

namespace Event

def perform : Event → Cache Unit
  | .store target => noteAssigned target
  | .setThis d => advance d
  | .access n => memberAccess n

def performAll : List Event → Cache Unit
  | [] => return
  | e :: rest => do
    e.perform
    performAll rest

def changed (b : Bindings) : Event → List Nat
  | .store target => (assigned target).filterMap b.resolved?
  | .setThis d => [d]
  | .access _ => []

def ofTarget (target : Option Node) : List Event := (target.map .store).toList

def ofTargetStep (visit : Node → Mode → List Event) (n : Node) (value : List Event) :
    List Event :=
  let go (mode : Mode) (n : Option Node) : List Event := n.elim [] fun n => visit n mode
  match n.label with
  | .identifier _ => []
  | .assignmentPattern => go .target (n.part? .left) ++ go .value (n.part? .right)
  | .rest => go .target (n.part? .argument)
  | .arrayPattern => n.items.flatMap fun c => visit c .target
  | .objectPattern => n.items.flatMap fun p =>
    if p.kind == .rest then visit p .target
    else (if p.computed then go .value (p.part? .key) else []) ++ go .target (p.part? .value)
  | .variableDeclaration _ => n.items.flatMap fun d => go .target (d.part? .name)
  | _ => value

def ofValueStep (b : Bindings) (fn : Nat) (visit : Node → Mode → List Event) (n : Node) :
    List Event :=
  let go (mode : Mode) (n : Option Node) : List Event := n.elim [] fun n => visit n mode
  match n.label with
  | .assignment _ =>
    go .target (n.part? .left) ++ (go .value (n.part? .right) ++ ofTarget (n.part? .left))
  | .update .. => go .target (n.part? .argument) ++ ofTarget (n.part? .argument)
  | .declarator =>
    go .target (n.part? .name) ++ (go .value (n.part? .init) ++
      if (n.part? .init).isSome then ofTarget (n.part? .name) else [])
  | .forInStatement | .forOfStatement =>
    go .value (n.part? .right) ++ (go .target (n.part? .left) ++
      (ofTarget (n.part? .left) ++ go .value (n.part? .body)))
  | .member computed _ =>
    go .value (n.part? .object) ++
      ((if computed then go .value (n.part? .property) else []) ++ [.access n])
  | .call _ =>
    go .value (n.part? .callee) ++ (n.items.flatMap (visit · .value) ++
      if (n.part? .callee).any fun c => c.kind == .super then
        ((b.function (b.thisOwner fn)).this.map Event.setThis).toList
      else [])
  | _ => n.children.flatMap fun c => visit c.2 .value

def ofStep (b : Bindings) (fn : Nat) (visit : Node → Mode → List Event) (n : Node) (mode : Mode) :
    List Event :=
  match mode with
  | .value => ofValueStep b fn visit n
  | .target => ofTargetStep visit n (ofValueStep b fn visit n)

def ofNode (b : Bindings) (fn : Nat) (n : Node) (mode : Mode) : List Event :=
  Node.fix (ofStep b fn) (fun _ _ => []) n mode

def ofFunction (b : Bindings) (fn : Nat) (f : Function) : List Event :=
  f.params.flatMap (ofNode b fn · .target) ++ ofNode b fn f.body .value

end Event

def SameFunction (s s' : CacheState) : Prop := s'.bindings = s.bindings ∧ s'.fn = s.fn

theorem isSteady_sameFunction : IsSteady SameFunction where
  refl _ := ⟨rfl, rfl⟩
  trans h h' := ⟨h'.1.trans h.1, h'.2.trans h.2⟩

theorem ends_slotOf {n : Node} {key : String} {s s' : CacheState} {slot : Nat}
    (h : Ends (slotOf n key) s slot s') :
    (s'.bindings = s.bindings ∧ s'.fn = s.fn ∧ s'.generations = s.generations ∧
      s'.slots = s.slots) ∧
    (s.keys[slot]? = some key ∧ s'.keys = s.keys ∨
      key ∉ s.keys ∧ slot = s.keys.length ∧ s'.keys = s.keys ++ [key]) := by
  unfold slotOf at h
  rw [ends_get_bind] at h
  split at h
  . next found hfound =>
    obtain ⟨rfl, rfl⟩ := ends_pure.1 h
    obtain ⟨hlt, hkey, -⟩ := List.findIdx?_eq_some_iff_getElem.1 hfound
    refine ⟨⟨rfl, rfl, rfl, rfl⟩, .inl ⟨?_, rfl⟩⟩
    rw [List.getElem?_eq_getElem hlt, beq_iff_eq.1 hkey]
  . next hnone =>
    dsimp only at h
    split at h
    . exact absurd h not_ends_throw_bind
    . rw [ends_set_bind] at h
      obtain ⟨rfl, rfl⟩ := ends_pure.1 h
      refine ⟨⟨rfl, rfl, rfl, rfl⟩, .inr ⟨?_, rfl, rfl⟩⟩
      intro hmem
      simpa using List.findIdx?_eq_none_iff.1 hnone key hmem

def reads? (b : Bindings) (generation : Nat → Nat) (n : Node) : Option Access :=
  let object := (n.part? .object).getD default
  if object.kind == .super || isWithAffected b object then none else access? b generation n

structure Enters (x : Access) (n : Node) (s s' : CacheState) : Prop where
  generations : s'.generations = s.generations
  slots : ∃ slot, s'.slots = s.slots.insert n.id slot ∧
    (s.keys[slot]? = some x.key ∧ s'.keys = s.keys ∨
      x.key ∉ s.keys ∧ slot = s.keys.length ∧ s'.keys = s.keys ++ [x.key])

theorem ends_memberAccess {n : Node} {s s' : CacheState} (h : Ends (memberAccess n) s () s') :
    SameFunction s s' ∧
      match reads? s.bindings (CacheState.generation s) n with
      | none => s'.generations = s.generations ∧ s'.slots = s.slots ∧ s'.keys = s.keys
      | some x => Enters x n s s' := by
  unfold memberAccess at h
  unfold reads?
  dsimp only at h ⊢
  split at h
  . next hsuper =>
    obtain ⟨-, rfl⟩ := ends_pure.1 h
    rw [if_pos (by simp [hsuper])]
    exact ⟨⟨rfl, rfl⟩, rfl, rfl, rfl⟩
  . next hsuper =>
    rw [ends_get_bind, ends_modify_bind] at h
    split at h
    . next hwith =>
      rw [ends_modify.1 h]
      rw [if_pos (by simp [hwith])]
      exact ⟨⟨rfl, rfl⟩, rfl, rfl, rfl⟩
    . next hwith =>
      rw [key?_eq] at h
      rw [if_neg (by simp [hsuper, hwith])]
      cases hx : access? s.bindings (CacheState.generation s) n with
      | none =>
        rw [hx] at h
        rw [ends_modify.1 h]
        exact ⟨⟨rfl, rfl⟩, rfl, rfl, rfl⟩
      | some x =>
        rw [hx] at h
        dsimp only [Option.map_some] at h
        rw [ends_modify_bind] at h
        obtain ⟨slot, t, hslot, h⟩ := ends_bind.1 h
        obtain ⟨⟨hb, hfn, hgen, hslots⟩, hkeys⟩ := ends_slotOf hslot
        rw [ends_modify.1 h]
        refine ⟨⟨hb, hfn⟩, hgen, slot, ?_, hkeys⟩
        rw [hslots]

theorem sameFunction_advance (d : Nat) : Keeps SameFunction (advance d) :=
  .modify fun _ => ⟨rfl, rfl⟩

theorem sameFunction_noteAssigned (target : Option Node) :
    Keeps SameFunction (noteAssigned target) := by
  refine .bind isSteady_sameFunction (.forIn isSteady_sameFunction fun id _ _ => ?_) fun _ =>
    .pure isSteady_sameFunction _
  refine .bind isSteady_sameFunction (.get isSteady_sameFunction) fun s => ?_
  split
  . exact .bind isSteady_sameFunction (sameFunction_advance _) fun _ =>
      .pure isSteady_sameFunction _
  . exact .pure isSteady_sameFunction _

theorem sameFunction_perform (e : Event) : Keeps SameFunction e.perform := by
  cases e with
  | store target => exact sameFunction_noteAssigned target
  | setThis d => exact sameFunction_advance d
  | access n => exact fun _ _ _ h => (ends_memberAccess h).1

theorem sameFunction_performAll (events : List Event) :
    Keeps SameFunction (Event.performAll events) := by
  induction events with
  | nil => exact .pure isSteady_sameFunction _
  | cons e rest ih => exact .bind isSteady_sameFunction (sameFunction_perform e) fun _ => ih

theorem performAll_append (es es' : List Event) :
    Event.performAll (es ++ es') = Event.performAll es >>= fun _ => Event.performAll es' := by
  induction es with
  | nil => rfl
  | cons e rest ih => simp [Event.performAll, ih]

def ComesTo {α : Type} (b : Bindings) (fn : Nat) (act : Cache α) (a : α) (events : List Event) :
    Prop :=
  ∀ s, s.bindings = b → s.fn = fn →
    act.run s = (Event.performAll events >>= fun _ => pure a : Cache α).run s

namespace ComesTo

variable {α β γ : Type} {b : Bindings} {fn : Nat} {a : α} {act : Cache α} {es es' : List Event}

theorem pure (a : α) : ComesTo b fn (pure a) a [] := fun _ _ _ => rfl

theorem event (e : Event) : ComesTo b fn e.perform () [e] := by
  intro s _ _
  simp [Event.performAll]

theorem bind {c : β} {g : α → Cache β} (h : ComesTo b fn act a es)
    (h' : ComesTo b fn (g a) c es') : ComesTo b fn (act >>= g) c (es ++ es') := by
  intro s hb hfn
  rw [StateT.run_bind, h s hb hfn, performAll_append]
  simp only [bind_assoc, StateT.run_bind]
  cases hrun : (Event.performAll es).run s with
  | error f => rfl
  | ok r =>
    obtain ⟨hb', hfn'⟩ := sameFunction_performAll es s r.1 r.2 hrun
    have hrest := h' r.2 (hb'.trans hb) (hfn'.trans hfn)
    rw [StateT.run_bind] at hrest
    exact hrest

theorem bind_pure {c : β} {g : α → Cache β} (h : ComesTo b fn act a es)
    (hg : g a = Pure.pure c) : ComesTo b fn (act >>= g) c es := by
  rw [← List.append_nil es]
  apply h.bind
  rw [hg]
  exact pure c

theorem get_bind {g : CacheState → Cache α}
    (h : ∀ s, s.bindings = b → s.fn = fn → ComesTo b fn (g s) a es) :
    ComesTo b fn (get >>= g) a es :=
  fun s hb hfn => h s hb hfn s hb hfn

theorem forM_option {o : Option γ} {f : γ → Cache PUnit} {g : γ → List Event}
    (h : ∀ x, ComesTo b fn (f x) () (g x)) : ComesTo b fn (o.forM f) () (o.elim [] g) := by
  cases o with
  | none => exact pure ()
  | some x => exact h x

theorem forIn {xs : List γ} {f : γ → PUnit → Cache (ForInStep PUnit)} {g : γ → List Event}
    (h : ∀ x, ComesTo b fn (f x ()) (.yield ()) (g x)) :
    ComesTo b fn (forIn xs () f) () (xs.flatMap g) := by
  induction xs with
  | nil => exact pure ()
  | cons x rest ih =>
    rw [List.forIn_cons, List.flatMap_cons]
    exact (h x).bind ih

end ComesTo

theorem comesTo_noteAssigned {b : Bindings} {fn : Nat} (target : Option Node) :
    ComesTo b fn (noteAssigned target) () (Event.ofTarget target) := by
  cases target with
  | none => exact .pure ()
  | some t => exact .event (.store t)

theorem comesTo_store {b : Bindings} {fn : Nat} (target : Node) :
    ComesTo b fn (noteAssigned target) ()
      ((Event.changed b (.store target)).map .setThis) := by
  unfold noteAssigned
  rw [Event.changed, Option.map_some, Option.getD_some]
  generalize assigned target = ids
  have hevents : (ids.filterMap b.resolved?).map Event.setThis =
      ids.flatMap fun id => ((b.resolved? id).map Event.setThis).toList := by
    induction ids with
    | nil => rfl
    | cons id rest ih => cases h : b.resolved? id <;> simp [h, ih]
  rw [hevents]
  refine .bind_pure (.forIn fun id => .get_bind fun s hb _ => ?_) rfl
  rw [hb]
  cases b.resolved? id with
  | none => exact .pure _
  | some d => exact .bind_pure (.event (.setThis d)) rfl

theorem comesTo_targetStep {b : Bindings} {fn : Nat} {visit : Node → Mode → Cache Unit}
    {events : Node → Mode → List Event}
    (h : ∀ n mode, ComesTo b fn (visit n mode) () (events n mode)) {n : Node} {value : Cache Unit}
    {es : List Event} (hvalue : ComesTo b fn value () es) :
    ComesTo b fn (targetStep visit n value) () (Event.ofTargetStep events n es) := by
  have hgo : ∀ mode (o : Option Node), ComesTo b fn (o.forM fun n => visit n mode) ()
      (o.elim [] fun n => events n mode) :=
    fun mode o => .forM_option fun n => h n mode
  unfold targetStep Event.ofTargetStep
  cases n.label with
  | identifier name => exact .pure _
  | assignmentPattern => exact .bind (hgo .target _) (hgo .value _)
  | rest => exact hgo .target _
  | arrayPattern => exact .bind_pure (.forIn fun c => .bind_pure (h c .target) rfl) rfl
  | objectPattern =>
    refine .bind_pure (.forIn fun p => ?_) rfl
    dsimp only
    split
    . exact .bind_pure (h p .target) rfl
    . split
      . exact .bind (hgo .value _) (.bind_pure (hgo .target _) rfl)
      . exact .bind_pure (hgo .target _) rfl
  | variableDeclaration binds => exact .bind_pure (.forIn fun d =>
    .bind_pure (hgo .target _) rfl) rfl
  | _ => exact hvalue

theorem comesTo_valueStep {b : Bindings} {fn : Nat} {visit : Node → Mode → Cache Unit}
    {events : Node → Mode → List Event}
    (h : ∀ n mode, ComesTo b fn (visit n mode) () (events n mode)) (n : Node) :
    ComesTo b fn (valueStep visit n) () (Event.ofValueStep b fn events n) := by
  have hgo : ∀ mode (o : Option Node), ComesTo b fn (o.forM fun n => visit n mode) ()
      (o.elim [] fun n => events n mode) :=
    fun mode o => .forM_option fun n => h n mode
  have hnote := @comesTo_noteAssigned b fn
  unfold valueStep Event.ofValueStep
  cases n.label with
  | assignment op =>
    exact .bind (hgo .target _) (.bind (hgo .value _) (hnote _))
  | update op before => exact .bind (hgo .target _) (hnote _)
  | declarator =>
    refine .bind (hgo .target _) (.bind (hgo .value _) ?_)
    split
    . exact hnote _
    . exact .pure _
  | forInStatement | forOfStatement =>
    exact .bind (hgo .value _) (.bind (hgo .target _) (.bind (hnote _) (hgo .value _)))
  | member computed optional =>
    refine .bind (hgo .value _) ?_
    split
    . exact .bind (hgo .value _) (.event (.access n))
    . exact .event (.access n)
  | call optional =>
    refine .bind (hgo .value _) (.bind (.forIn fun c => .bind_pure (h c .value) rfl) ?_)
    split
    . refine .get_bind fun s hb hfn => ?_
      rw [hb, hfn]
      cases (b.function (b.thisOwner fn)).this with
      | none => exact .pure _
      | some d => exact .event (.setThis d)
    . exact .pure _
  | _ => exact .bind_pure (.forIn fun c => .bind_pure (h c.2 .value) rfl) rfl

theorem comesTo_visit {b : Bindings} {fn : Nat} (n : Node) (mode : Mode) :
    ComesTo b fn (visit n mode) () (Event.ofNode b fn n mode) := by
  unfold visit Event.ofNode Node.fix
  generalize n.height = depth
  induction depth generalizing n mode with
  | zero => exact .pure _
  | succ depth ih =>
    cases mode with
    | value => exact comesTo_valueStep ih n
    | target => exact comesTo_targetStep ih (comesTo_valueStep ih n)

theorem comesTo_all {b : Bindings} {fn : Nat} (f : Function) :
    ComesTo b fn (all f) () (Event.ofFunction b fn f) :=
  .bind (.forIn fun p => .bind_pure (comesTo_visit p .target) rfl) (comesTo_visit f.body .value)

def bump (generation : Nat → Nat) (ds : List Nat) : Nat → Nat :=
  fun d => generation d + ds.count d

def accesses (b : Bindings) : (Nat → Nat) → List Event → List (Node × Access)
  | _, [] => []
  | generation, .store target :: rest =>
    accesses b (bump generation (Event.changed b (.store target))) rest
  | generation, .setThis d :: rest => accesses b (bump generation [d]) rest
  | generation, .access n :: rest =>
    match reads? b generation n with
    | some x => (n, x) :: accesses b generation rest
    | none => accesses b generation rest

structure Advances (ds : List Nat) (s s' : CacheState) : Prop where
  generation : CacheState.generation s' = bump (CacheState.generation s) ds
  keys : s'.keys = s.keys
  slots : s'.slots = s.slots
  bindings : s'.bindings = s.bindings
  fn : s'.fn = s.fn
  stats : s'.stats = s.stats

theorem advances_advance {s s' : CacheState} {d : Nat} (h : Ends (advance d) s () s') :
    Advances [d] s s' := by
  rw [ends_modify.1 h]
  refine ⟨?_, rfl, rfl, rfl, rfl, rfl⟩
  funext i
  unfold CacheState.generation bump
  dsimp only
  rw [Table.getD_eq_get?, Table.get?_insert, List.count_singleton]
  by_cases hd : d = i
  . simp [hd]
  . simp [hd, Table.getD_eq_get?]

theorem advances_setThis {ds : List Nat} {s s' : CacheState}
    (h : Ends (Event.performAll (ds.map .setThis)) s () s') : Advances ds s s' := by
  induction ds generalizing s with
  | nil =>
    obtain ⟨-, rfl⟩ := ends_pure.1 h
    exact ⟨rfl, rfl, rfl, rfl, rfl, rfl⟩
  | cons d rest ih =>
    obtain ⟨_, t, hd, hrest⟩ := ends_bind.1 h
    have hfirst := advances_advance hd
    have hmore := ih hrest
    refine ⟨?_, hmore.keys.trans hfirst.keys, hmore.slots.trans hfirst.slots,
      hmore.bindings.trans hfirst.bindings, hmore.fn.trans hfirst.fn,
        hmore.stats.trans hfirst.stats⟩
    rw [hmore.generation, hfirst.generation]
    funext i
    simp only [bump, List.count_cons, List.count_nil]
    omega

theorem advances_store {target : Node} {s s' : CacheState}
    (h : Ends (noteAssigned target) s () s') :
    Advances (Event.changed s.bindings (.store target)) s s' := by
  rw [Ends, comesTo_store target s rfl rfl, bind_pure_unit] at h
  exact advances_setThis h

structure Fills (accs : List (Node × Access)) (s s' : CacheState) : Prop where
  keys : s.keys <+: s'.keys
  nodup : s.keys.Nodup → s'.keys.Nodup
  used : ∀ key ∈ s'.keys, key ∈ s.keys ∨ key ∈ accs.map (·.2.key)
  others : ∀ id, id ∉ accs.map (·.1.id) → s'.slots.get? id = s.slots.get? id
  slots : (accs.map (·.1.id)).Nodup → ∀ p ∈ accs,
    ∃ slot, s'.slots.get? p.1.id = some slot ∧ s'.keys[slot]? = some p.2.key

theorem getElem?_of_prefix {α : Type} {xs ys : List α} {i : Nat} {x : α} (h : xs <+: ys)
    (hx : xs[i]? = some x) : ys[i]? = some x := by
  obtain ⟨more, rfl⟩ := h
  rw [List.getElem?_append_left (List.getElem?_eq_some_iff.1 hx).1]
  exact hx

theorem Enters.fills {x : Access} {n : Node} {accs : List (Node × Access)} {s t s' : CacheState}
    (h : Enters x n s t) (h' : Fills accs t s') : Fills ((n, x) :: accs) s s' := by
  obtain ⟨slot, hslots, hkeys⟩ := h.slots
  have hbegins : s.keys <+: t.keys := by
    rcases hkeys with ⟨-, hkeys⟩ | ⟨-, -, hkeys⟩
    . exact hkeys ▸ List.prefix_rfl
    . exact hkeys ▸ List.prefix_append _ _
  have hslot : t.keys[slot]? = some x.key := by
    rcases hkeys with ⟨hfound, hkeys⟩ | ⟨-, rfl, hkeys⟩
    . rw [hkeys]
      exact hfound
    . rw [hkeys]
      simp
  refine ⟨hbegins.trans h'.keys, ?_, ?_, ?_, ?_⟩
  . intro hnodup
    apply h'.nodup
    rcases hkeys with ⟨-, hkeys⟩ | ⟨hnew, -, hkeys⟩
    . rwa [hkeys]
    . rw [hkeys, List.nodup_append]
      refine ⟨hnodup, by simp, ?_⟩
      intro y hy z hz
      rw [List.mem_singleton.1 hz]
      rintro rfl
      exact hnew hy
  . intro key hkey
    rw [List.map_cons, List.mem_cons]
    rcases h'.used key hkey with hkey | hkey
    . rcases hkeys with ⟨-, hkeys⟩ | ⟨-, -, hkeys⟩
      . exact .inl (hkeys ▸ hkey)
      . rw [hkeys, List.mem_append, List.mem_singleton] at hkey
        exact hkey.imp_right .inl
    . exact .inr (.inr hkey)
  . intro id hid
    simp only [List.map_cons, List.mem_cons, not_or] at hid
    rw [h'.others id hid.2, hslots, Table.get?_insert_of_ne (Ne.symm hid.1)]
  . intro hnodup p hp
    simp only [List.map_cons, List.nodup_cons] at hnodup
    rcases List.mem_cons.1 hp with rfl | hp
    . refine ⟨slot, ?_, getElem?_of_prefix h'.keys hslot⟩
      rw [h'.others _ hnodup.1, hslots, Table.get?_insert_self]
    . exact h'.slots hnodup.2 p hp

theorem Advances.fills {b : Bindings} {ds : List Nat} {es : List Event} {s t s' : CacheState}
    (h : Advances ds s t) (h' : Fills (accesses b (CacheState.generation t) es) t s') :
    Fills (accesses b (bump (CacheState.generation s) ds) es) s s' := by
  rw [h.generation] at h'
  exact ⟨h.keys ▸ h'.keys, h.keys ▸ h'.nodup, h.keys ▸ h'.used, h.slots ▸ h'.others, h'.slots⟩

theorem fills_performAll {b : Bindings} {es : List Event} {s s' : CacheState}
    (hb : s.bindings = b) (h : Ends (Event.performAll es) s () s') :
    Fills (accesses b (CacheState.generation s) es) s s' := by
  induction es generalizing s with
  | nil =>
    obtain ⟨-, rfl⟩ := ends_pure.1 h
    refine ⟨List.prefix_rfl, id, fun _ => .inl, fun _ _ => rfl, ?_⟩
    intro _ p hp
    cases hp
  | cons e rest ih =>
    obtain ⟨_, t, he, hrest⟩ := ends_bind.1 h
    cases e with
    | store target =>
      have hadvances := advances_store he
      rw [hb] at hadvances
      exact hadvances.fills (ih (hadvances.bindings.trans hb) hrest)
    | setThis d =>
      have hadvances := advances_advance he
      exact hadvances.fills (ih (hadvances.bindings.trans hb) hrest)
    | access n =>
      obtain ⟨⟨hbind, -⟩, hentry⟩ := ends_memberAccess he
      have hfills := ih (hbind.trans hb) hrest
      rw [hb] at hentry
      unfold accesses
      cases hx : reads? b (CacheState.generation s) n with
      | none =>
        rw [hx] at hentry
        obtain ⟨hgen, hslots, hkeys⟩ := hentry
        unfold CacheState.generation at hfills
        rw [hgen] at hfills
        exact ⟨hkeys ▸ hfills.keys, hkeys ▸ hfills.nodup, hkeys ▸ hfills.used,
          hslots ▸ hfills.others, hfills.slots⟩
      | some x =>
        rw [hx] at hentry
        unfold CacheState.generation at hfills
        rw [hentry.generations] at hfills
        exact hentry.fills hfills

def IsUnmarked (text : String) : Prop := '.' ∉ text.toList ∧ '#' ∉ text.toList

instance : DecidablePred IsUnmarked := fun _ => inferInstanceAs (Decidable (_ ∧ _))

def Origin.IsPlain : Origin → Prop
  | .binding name _ _ => IsUnmarked name
  | .text value => IsUnmarked value ∧ Text.quote value = "\"" ++ value ++ "\""
  | _ => True

instance : DecidablePred Origin.IsPlain
  | .binding _ _ _ => inferInstanceAs (Decidable (IsUnmarked _))
  | .text _ => inferInstanceAs (Decidable (_ ∧ _))
  | .this _ => inferInstanceAs (Decidable True)
  | .result _ => inferInstanceAs (Decidable True)

def Access.IsPlain (x : Access) : Prop :=
  x.origin.IsPlain ∧ ∀ name ∈ x.path, '.' ∉ name.toList

instance : DecidablePred Access.IsPlain := fun _ => inferInstanceAs (Decidable (_ ∧ _))

def Origin.words : Origin → List String
  | .binding name d generation => [name, d.repr, generation.repr]
  | .this generation => ["this", generation.repr]
  | .text value => ["lit:" ++ Text.quote value]
  | .result call => ["call@" ++ call.repr]

theorem Origin.key_eq_intercalate (o : Origin) :
    o.key = (String.singleton '#').intercalate o.words := by
  cases o <;> rfl

theorem Access.key_eq_intercalate (x : Access) :
    x.key = (String.singleton '.').intercalate (x.origin.key :: x.path) := by
  unfold Access.key String.intercalate
  generalize x.origin.key = base
  induction x.path generalizing base with
  | nil => rfl
  | cons name rest ih => exact ih _

theorem isUnmarked_repr (n : Nat) : IsUnmarked n.repr := by
  have hdigit : ∀ c ∈ n.repr.toList, c.isDigit = true := by
    rw [Nat.toList_repr]
    exact fun c hc => Nat.isDigit_of_mem_toDigits (by decide) (by decide) hc
  exact ⟨fun h => absurd (hdigit _ h) (by decide), fun h => absurd (hdigit _ h) (by decide)⟩

theorem IsUnmarked.append {s t : String} (hs : IsUnmarked s) (ht : IsUnmarked t) :
    IsUnmarked (s ++ t) := by
  unfold IsUnmarked
  simp only [String.toList_append, List.mem_append, not_or]
  exact ⟨⟨hs.1, ht.1⟩, hs.2, ht.2⟩

theorem Origin.isUnmarked_words {o : Origin} (h : o.IsPlain) : ∀ w ∈ o.words, IsUnmarked w := by
  cases o with
  | binding name d generation =>
    have hname : IsUnmarked name := h
    simpa [words, isUnmarked_repr] using hname
  | this generation => simpa [words, isUnmarked_repr] using (by decide : IsUnmarked "this")
  | text value =>
    have hquote : IsUnmarked (Text.quote value) := by
      rw [h.2]
      exact (IsUnmarked.append (by decide) h.1).append (by decide)
    simpa [words] using IsUnmarked.append (s := "lit:") (by decide) hquote
  | result call =>
    simpa [words] using IsUnmarked.append (s := "call@") (by decide) (isUnmarked_repr call)

theorem Origin.words_inj {o p : Origin} (ho : o.IsPlain) (hp : p.IsPlain)
    (h : o.words = p.words) : o = p := by
  have hhead : ∀ s t : String, "lit:" ++ s ≠ "call@" ++ t := by
    intro s t hst
    have hfirst := congrArg (·.toList.head?) hst
    simp at hfirst
  cases o with
  | binding name d generation =>
    cases p with
    | binding name' d' generation' => simpa [words, Nat.repr_inj] using h
    | _ => simp [words] at h
  | this generation =>
    cases p with
    | this generation' => simpa [words, Nat.repr_inj] using h
    | _ => simp [words] at h
  | text value =>
    cases p with
    | text value' =>
      have hquote : Text.quote value = Text.quote value' := by simpa [words] using h
      rw [ho.2, hp.2] at hquote
      simpa using hquote
    | result call => exact absurd (List.head_eq_of_cons_eq h) (hhead _ _)
    | _ => simp [words] at h
  | result call =>
    cases p with
    | result call' => simpa [words, Nat.repr_inj] using h
    | text value => exact absurd (List.head_eq_of_cons_eq h).symm (hhead _ _)
    | _ => simp [words] at h

theorem Origin.key_inj {o p : Origin} (ho : o.IsPlain) (hp : p.IsPlain) (h : o.key = p.key) :
    o = p := by
  have hne : ∀ q : Origin, q.words ≠ [] := by
    intro q
    cases q <;> exact List.cons_ne_nil _ _
  rw [o.key_eq_intercalate, p.key_eq_intercalate] at h
  apply words_inj ho hp
  exact intercalate_inj (hne o) (hne p) (fun w hw => (isUnmarked_words ho w hw).2)
    (fun w hw => (isUnmarked_words hp w hw).2) h

theorem Origin.notMem_key {o : Origin} (h : o.IsPlain) : '.' ∉ o.key.toList := by
  have hwords : ∀ w ∈ o.words, '.' ∉ w.toList := fun w hw => (isUnmarked_words h w hw).1
  rw [o.key_eq_intercalate, String.toList_intercalate]
  cases o <;> simpa [words, List.intercalate] using hwords

theorem Access.key_inj {x y : Access} (hx : x.IsPlain) (hy : y.IsPlain) (h : x.key = y.key) :
    x = y := by
  have hnone : ∀ {z : Access}, z.IsPlain → ∀ w ∈ z.origin.key :: z.path, '.' ∉ w.toList :=
    fun hz => List.forall_mem_cons.2 ⟨Origin.notMem_key hz.1, hz.2⟩
  rw [x.key_eq_intercalate, y.key_eq_intercalate] at h
  have hwords := intercalate_inj (List.cons_ne_nil _ _) (List.cons_ne_nil _ _) (hnone hx)
    (hnone hy) h
  obtain ⟨horigin, hpath⟩ := List.cons.inj hwords
  have hsame := Origin.key_inj hx.1 hy.1 horigin
  cases x
  cases y
  exact congrArg₂ Access.mk hsame hpath

def TellsApart (accs : List Access) : Prop :=
  ∀ x ∈ accs, ∀ y ∈ accs, x.key = y.key → x = y

theorem tellsApart_of_isPlain {accs : List Access} (h : ∀ x ∈ accs, x.IsPlain) :
    TellsApart accs :=
  fun x hx y hy => Access.key_inj (h x hx) (h y hy)

theorem getLast?_path {b : Bindings} {generation : Nat → Nat} {n : Node} {x : Access}
    (hkind : n.kind = .member) (h : access? b generation n = some x) :
    x.path.getLast? = n.memberName? := by
  cases n with
  | mk id span label parts =>
    cases label with
    | member computed optional =>
      simp only [access?, Node.fix, Node.height, Node.unroll, accessStep, Node.label,
        Option.bind_eq_bind, Option.bind_eq_some_iff, Option.pure_def, Option.some.injEq] at h
      obtain ⟨name, hname, y, -, rfl⟩ := h
      simp [hname]
    | _ => cases hkind

def Event.IsMember (n : Node) : Event → Prop
  | .store _ | .setThis _ => True
  | .access m => m ∈ n.preorder ∧ m.kind = .member

theorem Event.IsMember.above {n c : Node} {e : Event} (h : e.IsMember c)
    (hc : Part.Holds n.parts c) : e.IsMember n := by
  cases e with
  | store target => trivial
  | setThis d => trivial
  | access m => exact ⟨Node.preorder_subset hc h.1, h.2⟩

theorem isMember_ofTarget {n : Node} {target : Option Node} :
    ∀ e ∈ Event.ofTarget target, e.IsMember n := by
  intro e he
  obtain ⟨t, -, rfl⟩ := Option.map_eq_some_iff.1 (Option.mem_toList.1 he)
  trivial

section

variable {visit : Node → Mode → List Event} (h : ∀ n mode, ∀ e ∈ visit n mode, e.IsMember n)

include h

theorem isMember_part {n : Node} (mode : Mode) (r : Role) :
    ∀ e ∈ (n.part? r).elim [] fun c => visit c mode, e.IsMember n := by
  intro e he
  cases hc : n.part? r with
  | none =>
    rw [hc] at he
    cases he
  | some c =>
    rw [hc] at he
    exact (h c mode e he).above (Node.holds_of_part? hc)

theorem isMember_items {n : Node} (mode : Mode) :
    ∀ e ∈ n.items.flatMap (visit · mode), e.IsMember n := by
  intro e he
  obtain ⟨c, hc, he⟩ := List.mem_flatMap.1 he
  exact (h c mode e he).above (Node.holds_of_mem_items hc)

theorem isMember_ofTargetStep {n : Node} {value : List Event}
    (hvalue : ∀ e ∈ value, e.IsMember n) : ∀ e ∈ Event.ofTargetStep visit n value,
      e.IsMember n := by
  have hgo : ∀ (n : Node) mode r, ∀ e ∈ (n.part? r).elim [] fun c => visit c mode, e.IsMember n :=
    fun n => isMember_part h
  unfold Event.ofTargetStep
  cases n.label with
  | identifier name => simp
  | assignmentPattern => exact List.forall_mem_append.2 ⟨hgo n _ _, hgo n _ _⟩
  | rest => exact hgo n _ _
  | arrayPattern => exact isMember_items h .target
  | objectPattern =>
    intro e he
    obtain ⟨p, hp, he⟩ := List.mem_flatMap.1 he
    refine Event.IsMember.above ?_ (Node.holds_of_mem_items hp)
    split at he
    . exact h p .target e he
    . rcases List.mem_append.1 he with he | he
      . split at he
        . exact hgo p _ _ e he
        . cases he
      . exact hgo p _ _ e he
  | variableDeclaration binds =>
    intro e he
    obtain ⟨d, hd, he⟩ := List.mem_flatMap.1 he
    exact (hgo d _ _ e he).above (Node.holds_of_mem_items hd)
  | _ => exact hvalue

theorem isMember_ofValueStep {b : Bindings} {fn : Nat} (n : Node) :
    ∀ e ∈ Event.ofValueStep b fn visit n, e.IsMember n := by
  have hgo : ∀ mode r, ∀ e ∈ (n.part? r).elim [] fun c => visit c mode, e.IsMember n :=
    isMember_part h
  have hnote := fun target => @isMember_ofTarget n target
  unfold Event.ofValueStep
  cases hl : n.label with
  | assignment op =>
    exact List.forall_mem_append.2 ⟨hgo _ _, List.forall_mem_append.2 ⟨hgo _ _, hnote _⟩⟩
  | update op before => exact List.forall_mem_append.2 ⟨hgo _ _, hnote _⟩
  | declarator =>
    refine List.forall_mem_append.2 ⟨hgo _ _, List.forall_mem_append.2 ⟨hgo _ _, ?_⟩⟩
    split
    . exact hnote _
    . simp
  | forInStatement | forOfStatement =>
    exact List.forall_mem_append.2 ⟨hgo _ _, List.forall_mem_append.2 ⟨hgo _ _,
      List.forall_mem_append.2 ⟨hnote _, hgo _ _⟩⟩⟩
  | member computed optional =>
    refine List.forall_mem_append.2 ⟨hgo _ _, List.forall_mem_append.2 ⟨?_, ?_⟩⟩
    . split
      . exact hgo _ _
      . simp
    . intro e he
      rw [List.mem_singleton.1 he]
      exact ⟨Node.mem_preorder_self, congrArg Label.kind hl⟩
  | call optional =>
    refine List.forall_mem_append.2 ⟨hgo _ _, List.forall_mem_append.2
      ⟨isMember_items h .value, ?_⟩⟩
    split
    . intro e he
      obtain ⟨d, -, rfl⟩ := Option.map_eq_some_iff.1 (Option.mem_toList.1 he)
      trivial
    . simp
  | _ =>
    intro e he
    obtain ⟨c, hc, he⟩ := List.mem_flatMap.1 he
    exact (h c.2 .value e he).above (Node.holds_of_mem_children (List.mem_map_of_mem hc))

end

theorem isMember_ofNode {b : Bindings} {fn : Nat} (n : Node) (mode : Mode) :
    ∀ e ∈ Event.ofNode b fn n mode, e.IsMember n := by
  unfold Event.ofNode Node.fix
  generalize n.height = depth
  induction depth generalizing n mode with
  | zero => simp [Node.unroll]
  | succ depth ih =>
    cases mode with
    | value => exact isMember_ofValueStep ih n
    | target => exact isMember_ofTargetStep ih (isMember_ofValueStep ih n)

theorem isMember_ofFunction {b : Bindings} {fn : Nat} (f : Function) :
    ∀ e ∈ Event.ofFunction b fn f, ∃ c ∈ f.params ++ [f.body], e.IsMember c := by
  intro e he
  rcases List.mem_append.1 he with he | he
  . obtain ⟨p, hp, he⟩ := List.mem_flatMap.1 he
    exact ⟨p, List.mem_append_left _ hp, isMember_ofNode p .target e he⟩
  . exact ⟨f.body, List.mem_append_right _ (List.mem_singleton_self _),
      isMember_ofNode f.body .value e he⟩

theorem getLast?_of_mem_accesses {b : Bindings} {generation : Nat → Nat} {es : List Event}
    {list : List Node} (hes : ∀ e ∈ es, ∃ c ∈ list, e.IsMember c) {p : Node × Access}
    (h : p ∈ accesses b generation es) : p.2.path.getLast? = p.1.memberName? := by
  induction es generalizing generation with
  | nil => cases h
  | cons e rest ih =>
    have hrest : ∀ e ∈ rest, ∃ c ∈ list, e.IsMember c :=
      fun e he => hes e (List.mem_cons_of_mem _ he)
    cases e with
    | store target => exact ih hrest h
    | setThis d => exact ih hrest h
    | access n =>
      unfold accesses at h
      cases hx : reads? b generation n with
      | none =>
        rw [hx] at h
        exact ih hrest h
      | some x =>
        rw [hx] at h
        rcases List.mem_cons.1 h with rfl | h
        . unfold reads? at hx
          dsimp only at hx
          split at hx
          . cases hx
          . obtain ⟨c, -, -, hkind⟩ := hes _ List.mem_cons_self
            exact getLast?_path hkind hx
        . exact ih hrest h

def accessesOf (b : Bindings) (fn : Nat) : List (Node × Access) :=
  accesses b (fun _ => 0) (Event.ofFunction b fn (b.function fn))

structure Tables (b : Bindings) (fn : Nat) (slots : Std.TreeMap Nat Nat) (keys : List String) :
    Prop where
  nodup : keys.Nodup
  used : ∀ key ∈ keys, ∃ p ∈ accessesOf b fn, p.2.key = key
  slots : ∀ p ∈ accessesOf b fn, ∃ slot, slots.get? p.1.id = some slot ∧ keys[slot]? = some p.2.key

theorem Tables.slot_eq_iff {b : Bindings} {fn : Nat} {slots : Std.TreeMap Nat Nat}
    {keys : List String} (h : Tables b fn slots keys) {p q : Node × Access}
    (hp : p ∈ accessesOf b fn) (hq : q ∈ accessesOf b fn) :
    slots.get? p.1.id = slots.get? q.1.id ↔ p.2.key = q.2.key := by
  obtain ⟨i, hi, hpkey⟩ := h.slots p hp
  obtain ⟨j, hj, hqkey⟩ := h.slots q hq
  rw [hi, hj]
  constructor
  . intro hij
    rw [Option.some.inj hij, hqkey] at hpkey
    exact (Option.some.inj hpkey).symm
  . intro hkey
    rw [hkey] at hpkey
    have hlt := (List.getElem?_eq_some_iff.1 hpkey).1
    rw [(List.getElem?_inj hlt h.nodup).1 (hpkey.trans hqkey.symm)]

end Cache

open Pass Cache

theorem tables_of_all {fn : Nat} {a : Analysis} {s : CacheState}
    (h : Ends (all (a.bindings.function fn))
      { bindings := a.bindings, fn, slots := a.slots, stats := a.stats } () s)
    (hids : ((accessesOf a.bindings fn).map (·.1.id)).Nodup) :
    Tables a.bindings fn s.slots s.keys ∧
      ∀ id, id ∉ (accessesOf a.bindings fn).map (·.1.id) → s.slots.get? id = a.slots.get? id := by
  generalize hstart : (⟨a.bindings, fn, {}, [], a.slots, a.stats⟩ : CacheState) = start at h
  have hfills : Fills (accessesOf a.bindings fn) start s := by
    have hgen : CacheState.generation start = fun _ => 0 := by
      subst hstart
      rfl
    subst hstart
    rw [Ends, comesTo_all (a.bindings.function fn) _ rfl rfl, bind_pure_unit] at h
    unfold accessesOf
    rw [← hgen]
    exact fills_performAll rfl h
  subst hstart
  refine ⟨⟨hfills.nodup List.nodup_nil, fun key hkey => ?_, hfills.slots hids⟩, hfills.others⟩
  rcases hfills.used key hkey with hkey | hkey
  . cases hkey
  . obtain ⟨p, hp, rfl⟩ := List.mem_map.1 hkey
    exact ⟨p, hp, rfl⟩

/--
Sharing of cache slots is sound exactly as far as keys are: accesses of a function that share a slot
read the same property of the same object, at the same count of assignments, if and only if
different accesses of the function have different keys.
-/
theorem shared_slot_sound_iff {fn : Nat} {a a' : Analysis} (h : Ends (assignSlots fn) a () a')
    (hids : ((accessesOf a.bindings fn).map (·.1.id)).Nodup) :
    ((∀ p ∈ accessesOf a.bindings fn, ∀ q ∈ accessesOf a.bindings fn,
      a'.slots.get? p.1.id = a'.slots.get? q.1.id →
        p.2 = q.2 ∧ p.1.memberName? = q.1.memberName?) ↔
      TellsApart ((accessesOf a.bindings fn).map (·.2))) ∧
    ((∀ x ∈ (accessesOf a.bindings fn).map (·.2), x.IsPlain) →
      TellsApart ((accessesOf a.bindings fn).map (·.2))) := by
  obtain ⟨s, hrun, rfl⟩ := ends_assignSlots h
  have htables := (tables_of_all hrun hids).1
  refine ⟨?_, tellsApart_of_isPlain⟩
  constructor
  . intro hsound x hx y hy hkey
    obtain ⟨p, hp, rfl⟩ := List.mem_map.1 hx
    obtain ⟨q, hq, rfl⟩ := List.mem_map.1 hy
    exact (hsound p hp q hq ((htables.slot_eq_iff hp hq).2 hkey)).1
  . intro happart p hp q hq hslot
    have hsame : p.2 = q.2 :=
      happart _ (List.mem_map_of_mem hp) _ (List.mem_map_of_mem hq)
        ((htables.slot_eq_iff hp hq).1 hslot)
    refine ⟨hsame, ?_⟩
    rw [← getLast?_of_mem_accesses (isMember_ofFunction _) hp, hsame,
      getLast?_of_mem_accesses (isMember_ofFunction _) hq]

def accessProgram (first second : Node) : Bindings :=
  let statement (id : Nat) (n : Node) : Part :=
    .node .item (.mk id default .expressionStatement [.node .expression n])
  let body : Node := .mk 1 default .block [statement 2 first, statement 3 second]
  { counters := ⟨20, 0⟩, sites := {}
    functions := #[{ node := .mk 0 default (.functionExpression {}) [.node .body body] }]
    decls := Std.TreeMap.empty.insert 4 { name := "a", kind := .var, owner := 0, span := default }
    uses := (Std.TreeMap.empty.insert 5 (.direct 4)).insert 6 (.direct 4) }

def accessVariable (id : Nat) : Node := .mk id default (.identifier "a") []

def accessMember (id : Nat) (object : Node) (name : String) : Node :=
  .mk id default (.member false false)
    [.node .object object, .node .property (.mk (id + 1) default (.identifier name) [])]

def accessElement (id : Nat) (object : Node) (name : String) : Node :=
  .mk id default (.member true false)
    [.node .object object, .node .property (.mk (id + 1) default (.literal (.string name) "") [])]

theorem shared_slot_sound_twice :
    let program := accessProgram (accessMember 8 (accessVariable 5) "b")
      (accessElement 10 (accessVariable 6) "b")
    ∃ a', Ends (assignSlots 0) { bindings := program } () a' ∧
      ((accessesOf program 0).map (·.1.id)).Nodup ∧ (accessesOf program 0).length = 2 ∧
      (∀ x ∈ (accessesOf program 0).map (·.2), x.IsPlain) ∧
      ∀ p ∈ accessesOf program 0, ∀ q ∈ accessesOf program 0,
        a'.slots.get? p.1.id = a'.slots.get? q.1.id →
          p.2 = q.2 ∧ p.1.memberName? = q.1.memberName? := by
  intro program
  have hids : ((accessesOf program 0).map (·.1.id)).Nodup := by decide +kernel
  have hcount : (accessesOf program 0).length = 2 := by decide +kernel
  have hplain : ∀ x ∈ (accessesOf program 0).map (·.2), x.IsPlain := by decide +kernel
  have hok : (((assignSlots 0).run { bindings := program }).toOption).isSome := by decide +kernel
  cases hrun : (assignSlots 0).run { bindings := program } with
  | error f =>
    rw [hrun] at hok
    cases hok
  | ok r =>
    have hends : Ends (assignSlots 0) { bindings := program } () r.2 := hrun
    obtain ⟨hsound, happart⟩ := shared_slot_sound_iff hends hids
    exact ⟨r.2, hends, hids, hcount, hplain, hsound.2 (happart hplain)⟩

/-- The members `a["b.c"]` and `a.b.c` share a slot. -/
theorem dotted_name_shares_slot :
    let first := accessElement 8 (accessVariable 5) "b.c"
    let second := accessMember 10 (accessMember 12 (accessVariable 6) "b") "c"
    (((assignSlots 0).run { bindings := accessProgram first second }).toOption.map fun r =>
        (r.2.slots.get? first.id, r.2.slots.get? second.id)) = some (some 0, some 0) ∧
      first.memberName? = some "b.c" ∧ second.memberName? = some "c" := by
  decide +kernel

end ScriptC.Analyze
