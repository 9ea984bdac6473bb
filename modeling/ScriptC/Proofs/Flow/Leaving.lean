import ScriptC.Proofs.Flow.Lays

/-!
Writers that open blocks and regions, and writers that leave them.
-/

namespace ScriptC.Lower

open C

/-! Blocks -/

section Blocks

variable {S : Setting} {X : List Exit} {T : List Target} {L : List String} {act : Lower Unit}
  {F : Form Unit} {w : Writer}

theorem Stage.inBlock (h : Stage S X T L w) :
    Stage S X T L { w with frames := w.frames.push, body := [] } :=
  { h with
    ready := ⟨h.ready.fn, h.ready.stack, h.ready.names, by simp [h.chain], by simp [Frames.push]⟩ }

theorem lays_inBlock (h : LaysHere S X T L act F) :
    Lays S X T L (inBlock act) (fun _ => T) (fun _ => L) (fun r => ∀ d ∈ r.1, S.Silent d)
      fun P m m' r c => c = [] ∧ F P m m' ⟨⟩ (Stmt.coreList r.2) := by
  intro w hw
  obtain ⟨hruns, hfails⟩ := h _ hw.inBlock
  have hpop : ∀ v, Runs S.plan act { w with frames := w.frames.push, body := [] } () v →
      ∃ decls, v.frames.pop = .ok (decls, { v.frames with blocks := w.frames.blocks }) ∧
        ∀ d ∈ decls, S.Silent d := by
    intro v hv
    obtain ⟨-, -, code, hstep, -⟩ := hruns _ v hv
    obtain ⟨more, hmore, hadded⟩ := hstep.frames
    refine ⟨more, ?_, hadded.silent⟩
    simp only [Frames.pop, hmore, List.nil_append]
  constructor
  . rintro ⟨decls, body⟩ w' hr
    obtain ⟨v, frames, hv, hframes, rfl, rfl⟩ := runs_inBlock.1 hr
    obtain ⟨more, hmore, hsilent⟩ := hpop v hv
    rw [hmore] at hframes
    cases hframes
    obtain ⟨hv', -, code, hstep, hF⟩ := hruns _ v hv
    obtain ⟨list, hlist, rfl⟩ := hstep.body
    refine ⟨?_, hsilent, [], ?_, ?_⟩
    . exact { hv' with
        ready := ⟨hv'.ready.fn, hv'.ready.stack, hv'.ready.names, by simp [hv'.chain],
          hw.ready.frames⟩ }
    . exact { hstep with frames := .refl _, body := ⟨[], by simp⟩ }
    . intro hfinal P hP
      refine ⟨rfl, ?_⟩
      have hbody : v.body = list := hlist
      rw [hbody]
      exact hF hfinal P hP
  . intro f hf
    rcases fails_inBlock hf with hf | ⟨v, g, hv, hg⟩
    . exact hfails f hf
    . obtain ⟨decls, hdecls, -⟩ := hpop v hv
      rw [hdecls] at hg
      cases hg

def IsBlock (S : Setting) (st : C.Stmt) : Prop :=
  ∃ decls body, st = .block decls body ∧ ∀ d ∈ decls, S.Silent d

theorem lays_block (h : LaysHere S X T L act F) :
    Lays S X T L (block act) (fun _ => T) (fun _ => L) (IsBlock S) fun P m m' st c =>
      c = [] ∧ ∀ decls body, st = .block decls body → F P m m' ⟨⟩ (Stmt.coreList body) := by
  unfold block
  refine (lays_inBlock h).bind fun r hr => .pure ⟨_, _, rfl, hr⟩ ?_
  rintro P m m₀ c ⟨rfl, hF⟩ - -
  refine ⟨rfl, ?_⟩
  rintro decls body ⟨⟩
  exact hF

def IsLoop (S : Setting) (st : C.Stmt) : Prop :=
  ∃ decls body, st = .loop decls body ∧ ∀ d ∈ decls, S.Silent d

theorem lays_loop (h : LaysHere S X T L act F) :
    Lays S X T L (loop act) (fun _ => T) (fun _ => L) (IsLoop S) fun P m m' st c =>
      c = [] ∧ ∀ decls body, st = .loop decls body → F P m m' ⟨⟩ (Stmt.coreList body) := by
  unfold loop
  refine (lays_inBlock h).bind fun r hr => .pure ⟨_, _, rfl, hr⟩ ?_
  rintro P m m₀ c ⟨rfl, hF⟩ - -
  refine ⟨rfl, ?_⟩
  rintro decls body ⟨⟩
  exact hF

end Blocks

/-! Regions -/

section Regions

variable {α : Type} {S : Setting} {X : List Exit} {T : List Target} {L : List String} {w : Writer}
  {x : Exit} {f : Finalizer} {act : Lower α} {T' : α → List Target} {L' : α → List String}
  {P₀ : α → Prop} {F : Form α}

theorem Stage.within (h : Stage S X T L w) (hx : x.isPlain) :
    Stage S (x :: X) T L { w with exits := x :: w.exits } := by
  have hids := finalizerIds_of_isPlain (X := X) hx
  refine { h with
    ready := { h.ready with }
    exits := by simp [h.exits]
    finals := hids ▸ h.finals
    old := hids ▸ h.old
    routed := ?_ }
  intro Y f Z hX
  cases Y with
  | nil =>
    cases hX
    cases hx
  | cons y Y =>
    cases hX
    exact h.routed Y f Z rfl

theorem Stage.without (h : Stage S (x :: X) T L w) : Stage S X T L { w with exits := X } where
  ready := { h.ready with }
  chain := h.chain
  exits := rfl
  targets := h.targets
  labels := h.labels
  known := h.known
  distinct := h.distinct
  finals := h.finals.sublist (sublist_finalizerIds x X)
  old := fun id hid => h.old id ((sublist_finalizerIds x X).subset hid)
  fresh := h.fresh
  routed := fun Y f Z hX => h.routed (x :: Y) f Z (by rw [hX, List.cons_append])

theorem lays_withExit (hx : x.isPlain) (h : Lays S (x :: X) T L act T' L' P₀ F) :
    Lays S X T L (withExit x act) T' L' P₀ F := by
  have hids := finalizerIds_of_isPlain (X := X) hx
  intro w hw
  obtain ⟨hruns, hfails⟩ := h _ (hw.within hx)
  refine ⟨?_, fun f hf => hfails f (fails_withExit hf)⟩
  intro a w' hr
  obtain ⟨v, hv, rfl⟩ := runs_withExit.1 hr
  obtain ⟨hv', ha, code, hstep, hF⟩ := hruns a v hv
  have hw' := hv'.without
  rw [← hw.exits] at hw'
  refine ⟨hw.exits ▸ hw', ha, code, ?_, ?_⟩
  . exact { hstep with pending := hids ▸ hstep.pending }
  . intro hfinal P hP
    exact hF hfinal P (fun id hid => hP id (hids ▸ hid))

theorem Stage.finalizing (h : Stage S X T L w) (hid : f.id ∉ finalizerIds X)
    (hold : f.id ≤ w.lastName) (hnone : w.pendingAt f.id = {}) :
    Stage S (.finalizer f :: X) T L { w with exits := .finalizer f :: w.exits } := by
  refine { h with
    ready := { h.ready with }
    exits := by simp [h.exits]
    finals := List.nodup_cons.2 ⟨hid, h.finals⟩
    old := List.forall_mem_cons.2 ⟨hold, h.old⟩
    routed := ?_ }
  intro Y g Z hX
  cases Y with
  | nil =>
    cases hX
    intro j hj
    have hj : j ∈ (w.pendingAt f.id).jumps := hj
    simp [hnone] at hj
  | cons y Y =>
    cases hX
    exact h.routed Y g Z rfl

end Regions

/-! Exits that go through a `finally` block -/

section Pending

variable {S : Setting} {X Y Z : List Exit} {T : List Target} {L : List String} {w : Writer}
  {f : Finalizer} {t : Target} {p : Pending}

theorem length_eq_of_finalizer {f g : Finalizer} {Y' Z' : List Exit}
    (hnodup : (finalizerIds (Y ++ .finalizer f :: Z)).Nodup)
    (heq : Y ++ .finalizer f :: Z = Y' ++ .finalizer g :: Z') (hid : f.id = g.id) : Z = Z' := by
  induction Y generalizing Y' with
  | nil =>
    cases Y' with
    | nil =>
      cases heq
      rfl
    | cons y Y' =>
      cases heq
      rw [List.nil_append, finalizerIds, List.nodup_cons] at hnodup
      refine absurd ?_ hnodup.1
      simp [finalizerIds_append, finalizerIds, hid]
  | cons y Y ih =>
    cases Y' with
    | nil =>
      cases heq
      rw [List.cons_append, finalizerIds, List.nodup_cons] at hnodup
      refine absurd ?_ hnodup.1
      simp [finalizerIds_append, finalizerIds, hid]
    | cons y' Y' =>
      rw [List.cons_append, List.cons_append, List.cons.injEq] at heq
      exact ih (hnodup.sublist (sublist_finalizerIds y _)) heq.2

-- More exits go through an open `finally` block, all of them out of its region.
theorem Stage.setPending (h : Stage S X T L w) (hX : X = Y ++ .finalizer f :: Z)
    (hle : (w.pendingAt f.id).Le p) (hp : ∀ j ∈ p.jumps, Admits T j.1 j.2 ∧ j.1.depth ≤ Z.length) :
    Stage S X T L { w with pending := (f.id, p) :: w.pending.filter fun q => q.1 != f.id } ∧
      Step S X w { w with pending := (f.id, p) :: w.pending.filter fun q => q.1 != f.id } [] := by
  have hmem : f.id ∈ finalizerIds X := by simp [hX, finalizerIds_append, finalizerIds]
  constructor
  . refine { h with
      ready := { h.ready with }
      fresh := ?_
      routed := ?_ }
    . intro id hid
      rw [Writer.pendingAt_set, if_neg]
      . exact h.fresh id hid
      . rintro rfl
        exact absurd (h.old _ hmem) (Nat.not_le.2 hid)
    . intro Y' g Z' hX' j hj
      rw [Writer.pendingAt_set] at hj
      split at hj
      . next hid =>
        obtain rfl := length_eq_of_finalizer (hX ▸ h.finals) (hX ▸ hX') hid.symm
        exact hp j hj
      . exact h.routed Y' g Z' hX' j hj
  . refine { Step.refl (X := X) w with pending := ?_ }
    intro id hid
    rw [Writer.pendingAt_set]
    split
    . next heq =>
      subst heq
      exact ⟨hle, fun hn => absurd hmem hn⟩
    . exact ⟨.refl _, fun _ => rfl⟩

theorem runs_pendingOf {plan : Plan} {w' : Writer} :
    Runs plan (pendingOf f) w p w' ↔ p = w.pendingAt f.id ∧ w' = w := by
  simp only [pendingOf, runs_bind, runs_get, runs_pure]
  constructor
  . rintro ⟨_, _, ⟨rfl, rfl⟩, rfl, rfl⟩
    exact ⟨rfl, rfl⟩
  . rintro ⟨rfl, rfl⟩
    exact ⟨_, _, ⟨rfl, rfl⟩, rfl, rfl⟩

theorem not_fails_pendingOf {plan : Plan} {g : Fault} : ¬Fails plan (pendingOf f) w g := by
  simp only [pendingOf, fails_bind, not_fails_get, not_fails_pure, and_false, exists_false,
    or_false, not_false_eq_true]

theorem lays_jumpCode (hX : X = Y ++ .finalizer f :: Z) {continues : Bool}
    (ht : Admits T t continues) (hdepth : t.depth ≤ Z.length) :
    LaysHere S X T L (jumpCode t continues f) fun P m m' k c =>
      c = [] ∧ m' = m ∧ ∃ i, (P f.id).jumps[i]? = some (t, continues) ∧ k = Pending.jumpCode i := by
  have hmem : f.id ∈ finalizerIds X := by simp [hX, finalizerIds_append, finalizerIds]
  intro w hw
  constructor
  . intro k w' hr
    obtain ⟨p, v, hp, hr⟩ := runs_bind.1 hr
    obtain ⟨rfl, rfl⟩ := runs_pendingOf.1 hp
    split at hr
    . next i hi =>
      obtain ⟨rfl, rfl⟩ := runs_pure.1 hr
      refine ⟨hw, trivial, [], .refl _, fun _ P hP => ⟨rfl, rfl, i, ?_, rfl⟩⟩
      obtain ⟨hlt, htest, -⟩ := List.findIdx?_eq_some_iff_getElem.1 hi
      have hroute := hw.routed Y f Z hX _ (List.getElem_mem hlt)
      simp only [Bool.and_eq_true, beq_iff_eq] at htest
      have heq := List.inj_on_of_nodup_map hw.distinct hroute.1.1 ht.1 htest.1
      refine (hP _ hmem).get ?_
      rw [List.getElem?_eq_getElem hlt, ← heq, ← htest.2]
    . simp only [Lower.setPending, runs_bind, runs_modify, runs_pure] at hr
      obtain ⟨_, _, rfl, rfl, rfl⟩ := hr
      obtain ⟨hw', hstep⟩ := hw.setPending (p := { v.pendingAt f.id with
          jumps := (v.pendingAt f.id).jumps ++ [(t, continues)] }) hX
            ⟨id, List.prefix_append _ _⟩ (by
        intro j hj
        rcases List.mem_append.1 hj with hj | hj
        . exact hw.routed Y f Z hX j hj
        . obtain rfl := List.mem_singleton.1 hj
          exact ⟨ht, hdepth⟩)
      refine ⟨hw', trivial, [], hstep, fun _ P hP => ⟨rfl, rfl, _, ?_, rfl⟩⟩
      have hle := hP _ hmem
      rw [Writer.pendingAt_set, if_pos rfl] at hle
      exact hle.get (by simp)
  . intro g hg
    rcases fails_bind.1 hg with hg | ⟨p, v, -, hg⟩
    . exact absurd hg not_fails_pendingOf
    split at hg
    . exact absurd hg not_fails_pure
    . simp only [Lower.setPending, fails_bind, not_fails_modify, not_fails_pure, and_false,
        exists_false, or_false] at hg

theorem lays_setReturns (hX : X = Y ++ .finalizer f :: Z) :
    LaysHere S X T L (do setPending f { ← pendingOf f with returns := true }) fun P _ _ _ c =>
      (P f.id).returns = true ∧ c = [] := by
  have hmem : f.id ∈ finalizerIds X := by simp [hX, finalizerIds_append, finalizerIds]
  intro w hw
  constructor
  . intro a w' hr
    obtain ⟨p, v, hp, hr⟩ := runs_bind.1 hr
    obtain ⟨rfl, rfl⟩ := runs_pendingOf.1 hp
    obtain rfl := runs_modify.1 hr
    obtain ⟨hw', hstep⟩ := hw.setPending (p := { v.pendingAt f.id with returns := true }) hX
      ⟨fun _ => rfl, List.prefix_rfl⟩ (hw.routed Y f Z hX)
    refine ⟨hw', trivial, [], hstep, fun _ P hP => ⟨?_, rfl⟩⟩
    have hle := hP _ hmem
    rw [Writer.pendingAt_set, if_pos rfl] at hle
    exact hle.returns rfl
  . intro g hg
    rcases fails_bind.1 hg with hg | ⟨p, v, -, hg⟩
    . exact absurd hg not_fails_pendingOf
    . exact absurd hg not_fails_modify

end Pending

/-! Jumps -/

structure Flagged (m : Marks) (c : List C.Stmt) : Prop where
  stop : ∀ id, (Spot.stop id).name ∈ Stmt.jumps c → id ∈ m.breaks
  skip : ∀ id, (Spot.skip id).name ∈ Stmt.jumps c → id ∈ m.continues

namespace Flagged

variable {m m' : Marks} {c d : List C.Stmt}

theorem mono (h : Flagged m c) (hle : m.Le m') : Flagged m' c :=
  ⟨fun id hid => hle.breaks (h.stop id hid), fun id hid => hle.continues (h.skip id hid)⟩

theorem of_subset (h : Flagged m c) (hsub : Stmt.jumps d ⊆ Stmt.jumps c) : Flagged m d :=
  ⟨fun id hid => h.stop id (hsub hid), fun id hid => h.skip id (hsub hid)⟩

theorem of_eq_nil (h : Stmt.jumps c = []) : Flagged m c := ⟨by simp [h], by simp [h]⟩

theorem append (h : Flagged m c) (h' : Flagged m d) : Flagged m (c ++ d) := by
  constructor
  . intro id hid
    rw [Stmt.jumps_append, List.mem_append] at hid
    exact hid.elim (h.stop id) (h'.stop id)
  . intro id hid
    rw [Stmt.jumps_append, List.mem_append] at hid
    exact hid.elim (h.skip id) (h'.skip id)

theorem cons {st : C.Stmt} (h : Flagged m [st]) (h' : Flagged m c) : Flagged m (st :: c) :=
  h.append h'

theorem block {decls : List C.Decl} (h : Flagged m c) : Flagged m [.block decls c] :=
  h.of_subset fun l hl => by
    rw [Stmt.jumps_cons, Stmt.jumps_nil, List.append_nil, Stmt.mem_escapes_block] at hl
    exact hl.1

theorem loop {decls : List C.Decl} (h : Flagged m c) : Flagged m [.loop decls c] :=
  h.of_subset fun l hl => by
    rw [Stmt.jumps_cons, Stmt.jumps_nil, List.append_nil, Stmt.mem_escapes_loop] at hl
    exact hl.1

theorem branch {x : C.Expr} {a b : C.Stmt} (h : Flagged m [a]) (h' : Flagged m [b]) :
    Flagged m [.branch x a b] :=
  (h.append h').of_subset fun l hl => by
    simpa [Stmt.jumps_cons, Stmt.escapes] using hl

theorem goto {p : Spot} (hstop : ∀ id, p = .stop id → id ∈ m.breaks)
    (hskip : ∀ id, p = .skip id → id ∈ m.continues) : Flagged m [.goto p.name] := by
  constructor
  . intro id hid
    exact hstop id (Spot.name_inj.1 (List.mem_singleton.1 hid).symm)
  . intro id hid
    exact hskip id (Spot.name_inj.1 (List.mem_singleton.1 hid).symm)

end Flagged

theorem jumps_effectCode (e : C.Expr) : Stmt.jumps (effectCode e) = [] := by
  unfold effectCode
  split <;> rfl

theorem flagged_effectCode (e : C.Expr) {m : Marks} : Flagged m (effectCode e) :=
  .of_eq_nil (jumps_effectCode e)

theorem flagged_throughFinally (f : Finalizer) (k : Nat) {m : Marks} :
    Flagged m (throughFinally f k) :=
  .cons (.of_eq_nil rfl) (.cons (.of_eq_nil rfl) (.goto (p := .final f.id) (by simp) (by simp)))

theorem ends_stop {t : Target} {m m' : Marks} {c : List C.Stmt} (h : Flagged m c) (hle : m.Le m') :
    Ends t.breakLabel c (if t.id ∈ m'.breaks then [.label t.breakLabel] else []) := by
  split
  . exact .inl rfl
  . next hid => exact .inr ⟨rfl, fun hl => hid (hle.breaks (h.stop t.id hl))⟩

theorem ends_skip {t : Target} {m m' : Marks} {c : List C.Stmt} (h : Flagged m c) (hle : m.Le m') :
    Ends t.continueLabel c (if t.id ∈ m'.continues then [.label t.continueLabel] else []) := by
  split
  . exact .inl rfl
  . next hid => exact .inr ⟨rfl, fun hl => hid (hle.continues (h.skip t.id hl))⟩

theorem Ends.flagged {l : String} {code c : List C.Stmt} {m : Marks} (h : Ends l code c) :
    Flagged m c := by
  rcases h with rfl | ⟨rfl, -⟩ <;> exact .of_eq_nil rfl

namespace Leaves

variable {final final' : Finalizer → List C.Stmt → Prop} {done done' : List C.Stmt → Prop}
  {list : List Exit} {c : List C.Stmt} {m : Marks}

theorem mono (h : Leaves final done list c)
    (hfinal : ∀ f c, .finalizer f ∈ list → final f c → final' f c) (hdone : ∀ c, done c → done' c) :
    Leaves final' done' list c := by
  induction h with
  | done h => exact .done (hdone _ h)
  | handler _ ih => exact .handler (ih fun f c hf => hfinal f c (List.mem_cons_of_mem _ hf))
  | withBody _ ih => exact .withBody (ih fun f c hf => hfinal f c (List.mem_cons_of_mem _ hf))
  | iterator _ ih => exact .iterator (ih fun f c hf => hfinal f c (List.mem_cons_of_mem _ hf))
  | finalizer h => exact .finalizer (hfinal _ _ List.mem_cons_self h)

theorem flagged (h : Leaves final done list c) (hfinal : ∀ f c, final f c → Flagged m c)
    (hdone : ∀ c, done c → Flagged m c) : Flagged m c := by
  induction h with
  | done h => exact hdone _ h
  | handler _ ih | withBody _ ih | iterator _ ih => exact .cons (.of_eq_nil rfl) ih
  | finalizer h => exact hfinal _ _ h

end Leaves

section Jumps

variable {S : Setting} {X : List Exit} {T : List Target} {L : List String} {t : Target}

theorem lays_leaveRegions {code : Finalizer → Lower Nat} {done : Lower Unit} {list : List Exit}
    {F : Finalizer → Form Nat} {G : Form Unit}
    (hcode : ∀ Y f Z, list = Y ++ .finalizer f :: Z → LaysHere S X T L (code f) (F f))
    (hdone : LaysHere S X T L done G) :
    LaysHere S X T L (leaveRegions code done list) fun P m m' _ c =>
      Leaves (fun f c => ∃ k d, F f P m m' k d ∧ c = d ++ throughFinally f k)
        (G P m m' ⟨⟩) list c := by
  induction list with
  | nil => exact hdone.mono fun P m m' _ c _ _ h => .done h
  | cons x list ih =>
    have ih := ih fun Y f Z h => hcode (x :: Y) f Z (by rw [h, List.cons_append])
    cases x with
    | handler name =>
      refine (lays_emit _).bind fun _ _ => ih.mono ?_
      rintro P m m' _ c - - h m₀ c₀ ⟨rfl, rfl⟩ - -
      exact .handler h
    | withBody =>
      refine (lays_effect _).bind fun _ _ => ih.mono ?_
      rintro P m m' _ c - - h m₀ c₀ ⟨rfl, rfl⟩ - -
      exact .withBody h
    | iterator name =>
      refine (lays_effect _).bind fun _ _ => ih.mono ?_
      rintro P m m' _ c - - h m₀ c₀ ⟨rfl, rfl⟩ - -
      exact .iterator h
    | finalizer f =>
      refine (hcode [] f list rfl).bind fun k _ => ?_
      refine (lays_effect _).bind fun _ _ => ?_
      refine (lays_emit _).mono ?_
      rintro P m m' _ c - - ⟨rfl, rfl⟩ m₁ c₁ ⟨rfl, rfl⟩ - - m₀ c₀ h - -
      exact .finalizer ⟨k, c₀, h, rfl⟩

theorem lays_jump {continues : Bool} (ht : Admits T t continues) :
    LaysHere S X T L (jump t continues) fun P m m' _ c =>
      Jumps ⟨X, T, P⟩ t continues c ∧ Flagged m' c ∧ m'.last = m.last := by
  refine .get fun w hw => ?_
  obtain rfl := hw.exits
  have hdone : LaysHere S w.exits T L
      (if continues then do
        modify fun w => { w with continues := t.id :: w.continues }
        emit [.goto t.continueLabel]
      else do emit [← jumpToEnd t] : Lower Unit) fun _ m m' _ c =>
        c = [.goto (Target.labelFor t continues)] ∧ Flagged m' c ∧ m'.last = m.last := by
    cases continues with
    | true =>
      refine Lays.bind (F := fun _ m m' _ c => c = [] ∧ m'.last = m.last ∧ t.id ∈ m'.continues)
        (.change fun w hw => ⟨?_, [], ?_, ?_⟩) fun _ _ => (lays_emit _).mono ?_
      . exact { hw with ready := { hw.ready with } }
      . exact { Step.refl w with
          marks := ⟨Nat.le_refl _, fun _ h => h, fun _ h => List.mem_cons_of_mem _ h⟩ }
      . exact fun _ => ⟨rfl, rfl, List.mem_cons_self⟩
      . rintro P m m' _ c - - ⟨rfl, rfl⟩ m₀ c₀ ⟨rfl, hlast, hid⟩ - -
        refine ⟨rfl, .goto (p := .skip t.id) (by simp) ?_, hlast⟩
        rintro _ ⟨⟩
        exact hid
    | false =>
      refine (lays_jumpToEnd t).bind ?_
      rintro _ rfl
      refine (lays_emit _).mono ?_
      rintro P m m' _ c - - ⟨rfl, rfl⟩ m₀ c₀ ⟨rfl, hlast, hid⟩ - -
      refine ⟨rfl, .goto (p := .stop t.id) ?_ (by simp), hlast⟩
      rintro _ ⟨⟩
      exact hid
  refine (lays_leaveRegions (F := fun f P m m' k c => c = [] ∧ m' = m ∧
    ∃ i, (P f.id).jumps[i]? = some (t, continues) ∧ k = Pending.jumpCode i) ?_ hdone).mono ?_
  . intro Y f Z hlist
    have hX : w.exits = Y ++ .finalizer f :: (Z ++ w.exits.drop (w.exits.length - t.depth)) := by
      rw [← List.cons_append, ← List.append_assoc, ← hlist, List.take_append_drop]
    refine lays_jumpCode hX ht ?_
    have hlen := congrArg List.length hlist
    simp only [List.length_take, List.length_append, List.length_cons, List.length_drop] at hlen ⊢
    omega
  . intro P m m' _ c hle _ h
    refine ⟨h.mono ?_ fun c h => h.1, h.flagged ?_ fun c h => h.2.1, ?_⟩
    . rintro f c - ⟨k, d, ⟨rfl, -, i, hi, rfl⟩, rfl⟩
      exact ⟨i, hi, rfl⟩
    . rintro f c ⟨k, d, ⟨rfl, -⟩, rfl⟩
      exact flagged_throughFinally f k
    . generalize w.exits.take _ = list at h
      induction h with
      | done h => exact h.2.2
      | handler _ ih | withBody _ ih | iterator _ ih => exact ih
      | finalizer h =>
        obtain ⟨k, d, ⟨-, rfl, -⟩, -⟩ := h
        rfl

theorem lays_leaveUnless (x : C.Expr) (t : Target) :
    LaysHere S X T L (leaveUnless x t) fun _ m m' _ c =>
      c = leaveCode x t ∧ m'.last = m.last ∧ Flagged m' c := by
  unfold leaveUnless
  split
  . exact .pure trivial fun _ _ => ⟨rfl, rfl, .of_eq_nil rfl⟩
  . next hx =>
    have hcode : leaveCode x t = [.branch (.not x) (.goto t.breakLabel) .missing] := by
      unfold leaveCode
      split
      . exact absurd rfl hx
      . rfl
    rw [hcode]
    refine (lays_jumpToEnd t).bind ?_
    rintro _ rfl
    refine (lays_emit _).mono ?_
    rintro P m m' _ c - - ⟨rfl, rfl⟩ m₀ c₀ ⟨rfl, hlast, hid⟩ - -
    refine ⟨rfl, hlast, .branch (.goto (p := .stop t.id) ?_ (by simp)) (.of_eq_nil rfl)⟩
    rintro _ ⟨⟩
    exact hid

theorem lays_targetFor (n : Node) (name : String) (continues : Bool) (list : List Target) :
    Lays S X T L (targetFor n name continues list) (fun _ => T) (fun _ => L)
      (fun t => findTarget? name continues list = some t) fun _ m m' _ c => c = [] ∧ m' = m := by
  induction list with
  | nil =>
    refine .fail ?_
    split <;> (try split) <;> simp
  | cons t rest ih =>
    unfold targetFor findTarget?
    split
    . split
      . exact .pure rfl fun _ _ => ⟨rfl, rfl⟩
      . exact ih
    . split
      . split
        . exact .fail (by simp)
        . exact .pure rfl fun _ _ => ⟨rfl, rfl⟩
      . exact ih

theorem admits_of_findTarget? {name : String} {continues : Bool} {list : List Target}
    (h : findTarget? name continues list = some t) : Admits list t continues := by
  induction list with
  | nil => cases h
  | cons t' rest ih =>
    have hrest : findTarget? name continues rest = some t → Admits (t' :: rest) t continues :=
      fun h => (ih h).imp_left (List.mem_cons_of_mem _)
    unfold findTarget? at h
    split at h
    . split at h
      . next hkind =>
        cases h
        refine ⟨List.mem_cons_self, ?_⟩
        rintro rfl
        simpa using hkind
      . exact hrest h
    . split at h
      . split at h
        . cases h
        . next hkind =>
          cases h
          refine ⟨List.mem_cons_self, ?_⟩
          rintro rfl
          simpa using hkind
      . exact hrest h

def Setting.Whole (S : Setting) : Prop :=
  (S.function.isConstructor && S.function.isDerived) = true → S.reaches (S.function.this.getD 0)

structure Setting.Total (S : Setting) : Prop where
  reaches : ∀ d, S.reaches d
  makes : ∀ child, S.makes child
  caches : ∀ slot, S.caches slot

theorem Setting.Total.suits (hS : S.Total) {m : Node} (hm : S.isFull → m.IsComplete) :
    S.Suits m where
  resolved d _ := hS.reaches d
  site child _ := hS.makes child
  cached slot _ := hS.caches slot
  super _ := hS.reaches _
  superCall _ _ d _ := hS.reaches d
  ownName _ d _ := hS.reaches d
  declared _ := hS.reaches _
  hoisted _ _ _ := hS.reaches _
  full := hm

theorem Setting.Total.whole (hS : S.Total) : S.Whole := fun _ => hS.reaches _

theorem writes_resultOf (hS : S.Whole) (v : C.Expr) :
    Writes S (S.Part v ∧ ∀ args, (S.rules S.stack).allows Engine.derivedReturn args) (resultOf v)
      S.Part := by
  unfold resultOf
  refine Meets.function ?_
  split
  . next h =>
    refine (writes_storage (hS h)).bind fun place _ => .pure ?_
    rintro ⟨⟨hv, hallows⟩, hplace⟩
    obtain ⟨text, rfl, -, -, hreads⟩ := hplace.reads (hS h)
    exact ⟨hallows _, .inr S.reads_env, hv, .inr hreads, trivial⟩
  . exact .pure And.left

theorem lays_returnFrom (hS : S.Whole) (v : C.Expr) :
    LaysHere S X T L (returnFrom v) fun P m m' _ c =>
      Returns S ⟨X, T, P⟩ m.last m'.last v c ∧ Flagged m' c := by
  refine .get fun w hw => ?_
  obtain rfl := hw.exits
  split
  . next hnil =>
    refine (Lays.leaf (writes_resultOf hS v)).bind fun r _ => (lays_emit _).mono ?_
    rintro P m m' _ c - - ⟨rfl, rfl⟩ m₀ c₀ ⟨rfl, hr⟩ hle -
    exact ⟨.here hnil hle.last hr, .of_eq_nil rfl⟩
  . next hne =>
    refine (lays_tempOf _ (by decide)).bind ?_
    rintro _ ⟨id, rfl⟩
    refine (lays_effect _).bind fun _ _ => ?_
    have hdone : LaysHere S w.exits T L
        (do emit [.ret (← resultOf (.var (temporaryName "tmp" id)))]) fun _ _ _ _ c =>
          ∃ r, Given S (resultOf (.var (temporaryName "tmp" id))) r ∧ c = [.ret r] := by
      refine (Lays.leaf (writes_resultOf hS _)).bind fun r _ => (lays_emit _).mono ?_
      rintro P m m' _ c - - ⟨rfl, rfl⟩ m₀ c₀ ⟨rfl, hr⟩ - -
      exact ⟨r, hr, rfl⟩
    refine (lays_leaveRegions (F := fun f P _ _ k c => (P f.id).returns = true ∧
      c = [.expr (.set (.var f.value) (.var (temporaryName "tmp" id)))] ∧
      k = Pending.returnCode) ?_ hdone).mono ?_
    . intro Y f Z hX
      rw [← bind_assoc]
      refine (lays_setReturns hX).bind fun _ _ => ?_
      refine (lays_effect _).bind fun _ _ => ?_
      refine .pure trivial ?_
      rintro P m m₁ c₁ ⟨rfl, rfl⟩ - - m₀ c₀ ⟨hret, rfl⟩ - -
      exact ⟨hret, rfl, rfl⟩
    . rintro P m m' _ c hle - h m₁ c₁ ⟨rfl, rfl⟩ - - m₀ c₀ ⟨rfl, hid⟩ - -
      obtain ⟨hlt, hle'⟩ := hid id rfl
      refine ⟨?_, ?_⟩
      . refine .leaving hne hlt (Nat.le_trans hle' hle.last) (h.mono ?_ fun _ h => h)
        rintro f c - ⟨k, d, ⟨hret, rfl, rfl⟩, rfl⟩
        exact ⟨hret, rfl⟩
      . refine .append (.of_eq_nil rfl) (.append (flagged_effectCode _) (h.flagged ?_ ?_))
        . rintro f c ⟨k, d, ⟨-, rfl, -⟩, rfl⟩
          exact .append (.of_eq_nil rfl) (flagged_throughFinally f k)
        . rintro c ⟨r, -, rfl⟩
          exact .of_eq_nil rfl

end Jumps

end ScriptC.Lower
