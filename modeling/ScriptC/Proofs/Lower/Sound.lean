import ScriptC.Proofs.Lower.Values

/-!
Writers of expressions that keep to a setting, and the writers of members, operators and
assignments over them.
-/

namespace ScriptC.Lower

open scoped C.Expr

structure Setting.Suits (S : Setting) (m : Node) : Prop where
  resolved : ∀ d, S.bindings.resolved? m = some d → S.reaches d
  site : ∀ child, S.bindings.sites.get? m.id = some child → S.makes child
  cached : ∀ slot, S.plan.analysis.slots.get? m.id = some slot → S.caches slot
  super : m.kind = .super → S.reaches (S.thisOwner.this.getD 0)
  superCall : m.kind = .call → (m.part? .callee).any (·.kind == .super) →
    ∀ d, S.thisOwner.newTarget = some d → S.reaches d
  ownName : m.kind = .classExpression → ∀ d, (m.part? .name).bind S.bindings.resolved? = some d →
    S.reaches d
  declared : m.kind = .functionDeclaration ∨ m.kind = .classDeclaration →
    S.reaches (((m.part? .name).bind S.bindings.resolved?).getD 0)
  hoisted : m.kind = .functionDeclaration → ∀ outer, S.bindings.aliases.get? m.id = some outer →
    S.reaches ((S.bindings.resolved? outer).getD 0)
  full : S.isFull → m.IsComplete

structure Setting.Fits (S : Setting) (n : Node) : Prop where
  room : ∀ high ∈ S.reserved, n.FitsIn S.stack high
  below : ∀ m ∈ n.preorder, S.Suits m

variable {S : Setting} {pre : Prop} {n c : Node} {r : Role}

theorem Setting.Suits.shifted {m : Node} (h : S.Suits m) (slot : Nat) : (S.shifted slot).Suits m :=
  ⟨h.resolved, h.site, h.cached, h.super, h.superCall, h.ownName, h.declared, h.hoisted, h.full⟩

theorem Setting.fits_of_reserved_none (hS : S.reserved = none) (h : ∀ m ∈ n.preorder, S.Suits m) :
    S.Fits n :=
  ⟨by simp [hS], h⟩

theorem Setting.Fits.suits (h : S.Fits n) : S.Suits n := h.below n Node.mem_preorder_self

theorem Setting.fits_default : S.Fits default where
  room _ _ := .absent
  below := by
    intro m hm
    obtain rfl : m = default := List.mem_singleton.1 hm
    exact ⟨S.reaches_zero, S.makes_zero, S.caches_zero, nofun, nofun, nofun, nofun, nofun,
      fun _ => by decide⟩

def Setting.FitsOption (S : Setting) (n : Option Node) : Prop := ∀ c, n = some c → S.Fits c

theorem Setting.Fits.some (h : S.Fits n) : S.FitsOption (some n) := by
  rintro c ⟨⟩
  exact h

theorem Setting.Fits.own (h : S.Fits n) {r : Role} (hr : r = .argument → n.kind ≠ .taggedTemplate) :
    S.FitsOption (n.part? r) :=
  fun _ hc => ⟨fun high hhigh => (h.room high hhigh).part? hr hc,
    fun m hm => h.below m (Node.preorder_subset (Node.holds_of_part? hc) hm)⟩

theorem Setting.Fits.part? (h : S.Fits n) (r : Role) (hr : (r == .argument) = false) :
    S.FitsOption (n.part? r) :=
  h.own fun h => absurd hr (by simp [h])

theorem Setting.Fits.argument {k : Kind} (h : S.Fits n) (hn : n.kind = k)
    (hk : (k == .taggedTemplate) = false) : S.FitsOption (n.part? .argument) :=
  h.own fun _ h => absurd hk (by simp [← hn, h])

theorem Setting.Fits.item (h : S.Fits n) : ∀ c ∈ n.items, S.Fits c :=
  fun _ hc => ⟨fun high hhigh => (h.room high hhigh).item hc,
    fun m hm => h.below m (Node.preorder_subset (Node.holds_of_mem_items hc) hm)⟩

theorem Setting.Fits.slot (h : S.Fits n) : ∀ o ∈ n.slots .item, S.FitsOption o := by
  rintro o ho c rfl
  exact h.item c (Node.mem_items_of_mem_slots ho)

theorem Setting.FitsOption.getD {o : Option Node} (h : S.FitsOption o) :
    S.Fits (o.getD default) := by
  cases o with
  | none => exact S.fits_default
  | some c => exact h c rfl

theorem Setting.FitsOption.reaches {o : Option Node} (h : S.FitsOption o) :
    ∀ d, o.bind S.bindings.resolved? = Option.some d → S.reaches d := by
  intro d hd
  obtain ⟨c, rfl, hc⟩ := Option.bind_eq_some_iff.1 hd
  exact (h c rfl).suits.resolved d hc

structure Setting.Stores (S : Setting) (v e : C.Expr) : Prop where
  part : S.Part e
  isSolid : v.isSolid → e.isSolid
  isCalm : v.isCalm → e.isCalm

structure Sound (S : Setting) (E : Eval) : Prop where
  expr : ∀ {pre : Prop} {n}, S.FitsOption n → Writes S pre (E.expr n) S.Code
  test : ∀ {pre : Prop} {n}, S.FitsOption n → Writes S pre (E.test n) S.Code
  discard : ∀ {pre : Prop} {n}, S.Fits n → Writes S pre (E.discard n) S.Code
  destructure : ∀ {n} (v mode), S.Fits n → Writes S (S.Part v) (E.destructure n v mode) (S.Stores v)

variable {E : Eval}

theorem sound_idle : Sound S .idle where
  expr _ := .pure fun _ => by simp [Setting.Code]
  test _ := .pure fun _ => by simp [Setting.Code]
  discard _ := .pure fun _ => by simp [Setting.Code]
  destructure _ _ _ := .pure fun h => ⟨h, id, id⟩

theorem Sound.exprs (hE : Sound S E) {list : List (Option Node)}
    (h : ∀ o ∈ list, S.FitsOption o) : Writes S pre (E.exprs list) S.Parts := by
  induction list generalizing pre with
  | nil => exact .pure fun _ => trivial
  | cons n rest ih =>
    rw [List.forall_mem_cons] at h
    refine (hE.expr h.1).bind fun e _ => ?_
    refine (ih h.2).bind fun es _ => ?_
    refine .pure ?_
    rintro ⟨⟨_, he⟩, hes⟩
    exact ⟨he.1, hes⟩

theorem Sound.discards (hE : Sound S E) {list : List Node} (h : ∀ c ∈ list, S.Fits c) :
    Writes S pre (E.discards list) fun es => ∀ e ∈ es, S.Code e := by
  induction list generalizing pre with
  | nil => exact .pure fun _ => by simp
  | cons n rest ih =>
    rw [List.forall_mem_cons] at h
    refine (hE.discard h.1).bind fun e _ => ?_
    refine (ih h.2).bind fun es _ => ?_
    refine .pure ?_
    rintro ⟨⟨_, he⟩, hes⟩
    exact List.forall_mem_cons.2 ⟨he, hes⟩

theorem Sound.destructureOption (hE : Sound S E) {n : Option Node} (v : C.Expr) (mode : TargetUse)
    (h : S.FitsOption n) : Writes S (S.Part v) (E.destructureOption n v mode) (S.Stores v) := by
  cases n with
  | none => exact .pure fun h => ⟨h, id, id⟩
  | some n => exact hE.destructure v mode (h n rfl)

/-! Keys and names -/

theorem yields_keySlot (key : Node) (text : String) : Yields S (keySlot key text) IsText := by
  unfold keySlot
  split
  . exact yields_string _ _
  . exact yields_bigint _
  . exact yields_string _ _

theorem IsText.code {e : C.Expr} (h : IsText e) : S.Code e := by
  obtain ⟨text, rfl⟩ := h
  simp [Setting.Code]

theorem Sound.propertyKey (hE : Sound S E) (h : S.Fits n) :
    Writes S pre (propertyKey E n) S.Part := by
  unfold Lower.propertyKey
  dsimp only
  split
  . exact writes_withoutChain ((hE.expr (h.part? _ rfl)).mono id fun _ h => h.1)
  . exact (yields_keySlot _ _).writes fun _ h => h.code.1

theorem yields_globalName : Yields S (globalName n) IsText := by
  unfold globalName
  dsimp only
  split
  . split
    . exact yields_keySlot _ _
    . exact yields_keySlot _ _
    . exact .pureOf ⟨_, rfl⟩ fun _ => trivial
  . exact yields_keySlot _ _

theorem yields_isWithName : Yields S (isWithName n) fun _ => True := by
  unfold isWithName
  split
  . exact .pure fun _ => trivial
  . apply Meets.bindings
    split <;> exact .pure fun _ => trivial

theorem writes_fallbackCell (h : S.Fits n) : Writes S pre (fallbackCell n) S.Still := by
  unfold fallbackCell
  apply Meets.bindings
  split
  . next d hd =>
    have hreach : S.reaches d := h.suits.resolved d
      (by simp [Bindings.resolved?, hd, Binding.decl?])
    exact (writes_cell hreach).mono id fun _ h => Setting.still_of_isCell hreach h
  . exact .pure fun _ => by simp [Setting.Still]

/-! Members -/

variable {o k v key : C.Expr}

@[simp]
theorem reads_arrayShape : S.reads "env->array_shape_id" := S.reads_fixed _ (by decide)

attribute [local simp] arrow castDouble castUint32 cacheHit cachedValue numberValue

theorem part_arrayTest (b : Bool) (ho : S.Part o) : S.Part (arrayTest o b) := by
  unfold arrayTest
  cases b <;> simp [ho]

theorem part_elementIndex (ho : S.Part o) (hk : S.Part k) :
    S.Part (elementIndex o k).1 ∧ S.Part (elementIndex o k).2 := by
  have h := part_numberView hk
  unfold elementIndex
  simp [ho, h.1, h.2]

theorem part_writeLength (ho : S.Part o) (hv : S.Part v) : S.Part (writeLength o v) := by
  have h := part_numberView hv
  unfold writeLength
  simp +decide [part_arrayTest _ ho, ho, h.1, h.2, hv]

theorem part_writeElement (ho : S.Part o) (hk : S.Part k) (hv : S.Part v) :
    S.Part (writeElement o k v) := by
  have h := part_elementIndex ho hk
  unfold writeElement
  simp +decide [part_arrayTest _ ho, ho, hk, h.1, h.2, hv]

def Setting.Tail (S : Setting) (e : C.Expr) : Prop := S.Code e ∧ e.isSolid

theorem Setting.Tail.comma {l : List C.Expr} {e : C.Expr} (hl : S.Steps l) (he : S.Tail e) :
    S.Tail (.comma (l ++ [e])) :=
  ⟨⟨Setting.part_comma_last hl he.1.1, C.Expr.isPlain_comma_last he.1.2 he.2⟩,
    C.Expr.isSolid_comma_last he.2⟩

theorem Setting.Tail.after {x e : C.Expr} (he : S.Tail e) (hx : S.Step x) :
    S.Tail (.comma [x, e]) :=
  .comma (l := [x]) (by simpa using hx) he

theorem writes_readNamed (hn : S.Suits n) (o key : C.Expr) :
    Writes S (S.Part o ∧ S.Part key) (readNamed n o key) S.Tail := by
  unfold readNamed cacheSlot?
  simp only [bind_assoc, pure_bind]
  apply Meets.read
  split
  . exact .pure fun h => by simp +decide [Setting.Tail, Setting.Code, h.1, h.2]
  . next slot hslot =>
    have hreads := S.reads_slot slot (hn.cached slot hslot)
    refine writes_temp.bind fun t _ => ?_
    refine .pure ?_
    rintro ⟨h, ht⟩
    simp +decide [Setting.Tail, Setting.Code, hreads, h.1, h.2, ht.part, ht.targets]

theorem writes_readElement (o k : C.Expr) :
    Writes S (S.Part o ∧ S.Part k) (readElement o k) S.Tail := by
  unfold readElement
  rcases hei : elementIndex o k with ⟨test, index⟩
  refine writes_temp.bind ?_
  rintro _ ⟨i, rfl⟩
  refine .pure ?_
  rintro ⟨h, ht⟩
  have hi := hei ▸ part_elementIndex h.1 h.2
  have htest : S.Part (.and (arrayTest o true) test) := hi.1.and (part_arrayTest _ h.1).step
  simp +decide [Setting.Tail, Setting.Code, htest, h.1, h.2, hi.2, ht.var]

theorem Sound.readMember (hE : Sound S E) (h : S.Fits n) (o : C.Expr) :
    Writes S (S.Part o) (readMember E n o) S.Tail := by
  unfold Lower.readMember
  split
  . refine (hE.propertyKey h).bind fun key _ => ?_
    split
    . refine (writes_readNamed h.suits o key).bindOf id fun slow _ => ?_
      refine .pure ?_
      rintro ⟨⟨ho, _⟩, hslow⟩
      simp +decide [Setting.Tail, Setting.Code, part_arrayTest _ ho, ho, hslow.1.1]
    . exact writes_readNamed h.suits o key
  . refine (hE.propertyKey h).bind fun key _ => ?_
    refine (writes_readableForm key).bindOf And.right fun r _ => ?_
    refine (writes_readElement o r.2).bindOf (fun h => ⟨h.1.1, h.2.2.1⟩) fun e _ => ?_
    refine .pure ?_
    rintro ⟨⟨_, hr⟩, he⟩
    exact he.after hr.1

theorem writes_writeNamed (hn : S.Suits n) (o key v : C.Expr) :
    Writes S (S.Part o ∧ S.Part key ∧ S.Part v) (writeNamed n o key v) S.Tail := by
  unfold writeNamed cacheSlot?
  simp only [bind_assoc, pure_bind]
  split
  . refine .pure fun h => ?_
    refine ⟨⟨part_writeLength h.1 h.2.2, ?_⟩, ?_⟩ <;> simp [writeLength]
  . apply Meets.read
    split
    . exact .pure fun h => by simp +decide [Setting.Tail, Setting.Code, h.1, h.2.1, h.2.2]
    . next slot hslot =>
      have hreads := S.reads_slot slot (hn.cached slot hslot)
      exact .pure fun h => by simp +decide [Setting.Tail, Setting.Code, hreads, h.1, h.2.1, h.2.2]

theorem Sound.readSuper (hE : Sound S E) (h : S.Fits n)
    (hsuper : (n.part? .object).any fun o => o.kind == .super) :
    Writes S pre (readSuper E n) S.Tail := by
  obtain ⟨o, ho, hkind⟩ := (Option.any_eq_true _ _).1 hsuper
  have hthis := (h.part? .object rfl o ho).suits.super (by simpa using hkind)
  unfold Lower.readSuper
  apply Meets.bindings
  refine (writes_loadOption (h.part? _ rfl).reaches).bind fun home _ => ?_
  refine (hE.propertyKey h).bind fun key _ => ?_
  apply Meets.thisOwner
  refine (writes_loadOption ?_).bind fun this _ => ?_
  . intro d hd
    simpa [hd] using hthis
  refine (writes_pairInOrder key this).bindOf (fun h => ⟨h.1.2, h.2.1⟩) fun r _ => ?_
  refine .pure ?_
  rintro ⟨⟨⟨⟨_, hhome⟩, _⟩, _⟩, hr⟩
  refine .comma hr.1.steps ?_
  simp +decide [Setting.Tail, Setting.Code, hhome.1, hr.2.1, hr.2.2]

theorem Setting.Tail.part {e : C.Expr} (h : S.Tail e) : S.Part e := h.1.1

theorem tail_endEarly {flag : Option C.Expr} {out : C.Expr}
    (hflag : ∀ e, flag = some e → S.Slot e) (hv : S.Part v) (hout : S.Tail out) :
    S.Tail (endEarly n flag v out) := by
  unfold endEarly
  split
  . next e =>
    have he := hflag e rfl
    split
    . simp +decide [Setting.Tail, Setting.Code, he.part, he.targets, hv, hout.part]
    . exact hout
  . exact hout

theorem writes_applyLink (pre : Prop) {access : C.Expr → Lower C.Expr} (n : Node) (base : C.Expr)
    (pin : Bool) (h : ∀ o, Writes S (pre ∧ S.Still o) (access o) S.Tail) :
    Writes S (pre ∧ S.Part base) (applyLink n base pin access) S.Tail := by
  have hplain (set o : C.Expr) : Writes S (pre ∧ S.Step set ∧ S.Still o)
      (do return .comma [set, ← access o]) S.Tail := by
    refine (h o).bindOf (fun h => ⟨h.1, h.2.2⟩) fun out _ => ?_
    refine .pure ?_
    rintro ⟨h, hout⟩
    exact hout.after h.2.1
  have hchained (set o flag : C.Expr) :
      Writes S (pre ∧ (S.Step set ∧ S.Still o) ∧ S.Slot flag) (do
        let out ← withChain none (access o)
        return .comma [set, .cond flag .undefined (endEarly n (some flag) o out)]) S.Tail := by
    refine (writes_withoutChain (h o)).bindOf (fun h => ⟨h.1, h.2.1.2⟩) fun out _ => ?_
    refine .pure ?_
    rintro ⟨⟨_, h, hflag⟩, hout⟩
    refine .after ?_ h.1
    have hend : S.Tail (endEarly n (some flag) o out) :=
      tail_endEarly (by rintro _ ⟨⟩; exact hflag) h.2.1 hout
    simp +decide [Setting.Tail, Setting.Code, hflag.part, hend.part]
  unfold applyLink
  dsimp only
  split
  . refine writes_temp.bind fun t _ => ?_
    rw [pure_bind]
    apply Meets.getShown
    intro w hw
    split
    . refine (hplain _ t).mono (fun h => ⟨h.1.1.1, ?_, h.1.2.stays⟩) fun _ => id
      simp [h.1.2.targets, h.1.2.part, h.1.1.2]
    . next flag hchain =>
      refine (hchained _ t flag).mono (fun h => ⟨h.1.1.1, ⟨?_, h.1.2.stays⟩, ?_⟩) fun _ => id
      . simp [h.1.2.targets, h.1.2.part, h.1.1.2]
      . exact hw.chain flag hchain h.2
  . refine (writes_readableForm base).bindOf And.right fun r _ => ?_
    apply Meets.getShown
    intro w hw
    split
    . exact (hplain r.1 r.2).mono (fun h => ⟨h.1.1.1, h.1.2⟩) fun _ => id
    . next flag hchain =>
      refine (hchained r.1 r.2 flag).mono (fun h => ⟨h.1.1.1, h.1.2, ?_⟩) fun _ => id
      exact hw.chain flag hchain h.2

theorem Sound.member (hE : Sound S E) (h : S.Fits n) : Writes S pre (member E n) S.Tail := by
  unfold Lower.member
  split
  . refine yields_globalName.andThen ?_
    rintro _ ⟨text, rfl⟩
    exact .pure fun _ => by simp +decide [Setting.Tail, Setting.Code]
  . dsimp only
    split
    . next hsuper => exact hE.readSuper h hsuper
    . refine (hE.expr (h.part? _ rfl)).bind fun base _ => ?_
      refine (writes_applyLink pre n base _ fun o => ?_).mono (fun h => ⟨h.1, h.2.1⟩) fun _ => id
      exact (hE.readMember h o).mono (fun h => h.2.1) fun _ => id

theorem Sound.chainValue (hE : Sound S E) (h : S.Fits n) :
    Writes S pre (chainValue E n) S.Code := by
  unfold Lower.chainValue
  intro w hw
  refine (writes_tempOf _ (by decide) w hw).bind ?_
  rintro _ w' hr hw' ⟨id, rfl⟩
  have hslot := slot_of_runs_allocate (S := S) (by decide) (fun _ => rfl) hr
  refine MeetsFrom.bind (meetsFrom_withChain hw' ?_ (hE.expr (h.part? _ rfl))) fun v
    w'' _ hw'' _ => ?_
  . rintro _ ⟨⟩
    exact hslot
  . refine .pure hw'' trivial ?_
    rintro ⟨⟨_, ht⟩, hv⟩ _ _
    refine ⟨by simp [hv.1, ht.var], C.Expr.isPlain_comma ?_⟩
    simp [hv.2]

end ScriptC.Lower
