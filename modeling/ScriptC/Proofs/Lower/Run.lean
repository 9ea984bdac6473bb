import ScriptC.Proofs.Lower.Code

/-!
Runs of writers, opened from the outside: what a run that succeeds did step by step, and where a run
that fails came to an end.
-/

namespace ScriptC.Lower

variable {α β : Type} {plan : Plan} {w w' : Writer}

def Runs (plan : Plan) (act : Lower α) (w : Writer) (a : α) (w' : Writer) : Prop :=
  (act.run plan).run w = .ok (a, w')

def Fails (plan : Plan) (act : Lower α) (w : Writer) (f : Fault) : Prop :=
  (act.run plan).run w = .error f

theorem runs_bind {x : Lower α} {g : α → Lower β} {b : β} :
    Runs plan (x >>= g) w b w' ↔ ∃ a v, Runs plan x w a v ∧ Runs plan (g a) v b w' := by
  unfold Runs
  simp only [ReaderT.run_bind, StateT.run_bind]
  cases h : (x.run plan).run w with
  | error e => simp [bind, Except.bind]
  | ok r =>
    rcases r with ⟨a, v⟩
    simp only [bind, Except.bind, Except.ok.injEq, Prod.mk.injEq]
    constructor
    . intro hg
      exact ⟨a, v, ⟨rfl, rfl⟩, hg⟩
    . rintro ⟨_, _, ⟨rfl, rfl⟩, hg⟩
      exact hg

theorem fails_bind {x : Lower α} {g : α → Lower β} {f : Fault} :
    Fails plan (x >>= g) w f ↔
      Fails plan x w f ∨ ∃ a v, Runs plan x w a v ∧ Fails plan (g a) v f := by
  unfold Fails Runs
  simp only [ReaderT.run_bind, StateT.run_bind]
  cases h : (x.run plan).run w with
  | error e => simp [bind, Except.bind]
  | ok r =>
    rcases r with ⟨a, v⟩
    simp only [bind, Except.bind, Except.ok.injEq, Prod.mk.injEq, reduceCtorEq, false_or]
    constructor
    . intro hg
      exact ⟨a, v, ⟨rfl, rfl⟩, hg⟩
    . rintro ⟨_, _, ⟨rfl, rfl⟩, hg⟩
      exact hg

theorem Runs.iff {act : Lower α} {a b : α} {v : Writer} (h : Runs plan act w a v) :
    Runs plan act w b w' ↔ b = a ∧ w' = v := by
  rw [Runs, (h : _ = _), Except.ok.injEq, Prod.mk.injEq, eq_comm, @eq_comm _ v]

theorem Runs.not_fails {act : Lower α} {a : α} {v : Writer} {f : Fault} (h : Runs plan act w a v) :
    ¬Fails plan act w f := by
  rw [Fails, (h : _ = _)]
  rintro ⟨⟩

theorem runs_pure {a b : α} : Runs plan (pure a) w b w' ↔ b = a ∧ w' = w := Runs.iff rfl

theorem not_fails_pure {a : α} {f : Fault} : ¬Fails plan (pure a) w f := Runs.not_fails rfl

theorem runs_get {v : Writer} : Runs plan get w v w' ↔ v = w ∧ w' = w := Runs.iff rfl

theorem not_fails_get {f : Fault} : ¬Fails plan get w f := Runs.not_fails rfl

theorem runs_set {v : Writer} {u : PUnit} : Runs plan (set v : Lower PUnit) w u w' ↔ w' = v := by
  have h : Runs plan (set v : Lower PUnit) w ⟨⟩ v := rfl
  rw [h.iff, and_iff_right rfl]

theorem not_fails_set {v : Writer} {f : Fault} : ¬Fails plan (set v : Lower PUnit) w f :=
  Runs.not_fails rfl

theorem runs_modify {g : Writer → Writer} {u : PUnit} :
    Runs plan (modify g : Lower PUnit) w u w' ↔ w' = g w := by
  have h : Runs plan (modify g : Lower PUnit) w ⟨⟩ (g w) := rfl
  rw [h.iff, and_iff_right rfl]

theorem not_fails_modify {g : Writer → Writer} {f : Fault} :
    ¬Fails plan (modify g : Lower PUnit) w f :=
  Runs.not_fails rfl

theorem runs_read {p : Plan} : Runs plan read w p w' ↔ p = plan ∧ w' = w := Runs.iff rfl

theorem not_fails_read {f : Fault} : ¬Fails plan read w f := Runs.not_fails rfl

theorem runs_bindings {b : Bindings} :
    Runs plan bindings w b w' ↔ b = plan.analysis.bindings ∧ w' = w :=
  Runs.iff rfl

theorem not_fails_bindings {f : Fault} : ¬Fails plan bindings w f := Runs.not_fails rfl

theorem runs_function {f : Function} :
    Runs plan function w f w' ↔ f = plan.analysis.bindings.function w.fn ∧ w' = w :=
  Runs.iff rfl

theorem not_fails_function {f : Fault} : ¬Fails plan function w f := Runs.not_fails rfl

theorem not_fails_string {value : String} {isKey : Bool} {f : Fault} :
    ¬Fails plan (string value isKey) w f :=
  Runs.not_fails rfl

theorem runs_freshName {id : Nat} :
    Runs plan freshName w id w' ↔
      id = w.lastName + 1 ∧ w' = { w with lastName := w.lastName + 1 } :=
  Runs.iff rfl

theorem not_fails_freshName {f : Fault} : ¬Fails plan freshName w f := Runs.not_fails rfl

theorem not_runs_throw {f : Fault} {a : α} : ¬Runs plan (throw f) w a w' := by
  intro h
  cases h

theorem fails_throw {f f' : Fault} : Fails plan (throw f : Lower α) w f' ↔ f' = f := by
  constructor
  . intro h
    cases h
    rfl
  . rintro rfl
    rfl

variable {a : α} {x : Lower α}

theorem runs_between {g h : Writer → Writer → Writer} :
    Runs plan (do let v ← get; modify (g v); let a ← x; modify (h v); return a) w a w' ↔
      ∃ v, Runs plan x (g w w) a v ∧ w' = h w v := by
  simp only [runs_bind, runs_get, runs_modify, runs_pure]
  constructor
  . rintro ⟨_, _, ⟨rfl, rfl⟩, _, _, rfl, b, v, hx, _, _, rfl, rfl, rfl⟩
    exact ⟨v, hx, rfl⟩
  . rintro ⟨v, hx, rfl⟩
    exact ⟨_, _, ⟨rfl, rfl⟩, ⟨⟩, _, rfl, a, v, hx, ⟨⟩, _, rfl, rfl, rfl⟩

theorem fails_between {g h : Writer → Writer → Writer} {f : Fault}
    (hf : Fails plan (do let v ← get; modify (g v); let a ← x; modify (h v); return a) w f) :
    Fails plan x (g w w) f := by
  simp only [fails_bind, not_fails_get, not_fails_modify, not_fails_pure, and_false, exists_false,
    or_false, false_or, runs_get, runs_modify] at hf
  obtain ⟨_, _, ⟨rfl, rfl⟩, _, _, rfl, hf⟩ := hf
  exact hf

theorem runs_withStack {k : Nat} :
    Runs plan (withStack k x) w a w' ↔
      ∃ v, Runs plan x { w with stack := k } a v ∧ w' = { v with stack := w.stack } :=
  runs_between

theorem runs_withChain {chain : Option C.Expr} :
    Runs plan (withChain chain x) w a w' ↔
      ∃ v, Runs plan x { w with chain } a v ∧ w' = { v with chain := w.chain } :=
  runs_between

theorem runs_withExit {exit : Exit} :
    Runs plan (withExit exit x) w a w' ↔
      ∃ v, Runs plan x { w with exits := exit :: w.exits } a v ∧ w' = { v with exits := w.exits } :=
  runs_between

theorem runs_withFrames {change : Frames → Except FrameFault (α × Frames)} :
    Runs plan (withFrames change) w a w' ↔
      ∃ frames, change w.frames = .ok (a, frames) ∧ w' = { w with frames } := by
  simp only [withFrames, runs_bind, runs_get]
  constructor
  . rintro ⟨_, _, ⟨rfl, rfl⟩, h⟩
    split at h
    . next b frames hc =>
      simp only [runs_bind, runs_modify, runs_pure] at h
      obtain ⟨_, _, rfl, rfl, rfl⟩ := h
      exact ⟨frames, hc, rfl⟩
    . simp only [runs_bind, not_runs_throw, and_false, exists_false] at h
  . rintro ⟨frames, hc, rfl⟩
    refine ⟨w, w, ⟨rfl, rfl⟩, ?_⟩
    rw [hc]
    exact runs_bind.2 ⟨⟨⟩, _, runs_modify.2 rfl, runs_pure.2 ⟨rfl, rfl⟩⟩

theorem runs_inBlock {act : Lower Unit} {r : List C.Decl × List C.Stmt} :
    Runs plan (inBlock act) w r w' ↔
      ∃ v frames, Runs plan act { w with frames := w.frames.push, body := [] } () v ∧
        v.frames.pop = .ok (r.1, frames) ∧ r.2 = v.body ∧
        w' = { v with frames, body := w.body } := by
  obtain ⟨decls, body⟩ := r
  unfold inBlock
  simp only [runs_bind, runs_get, runs_modify, runs_pure, runs_withFrames, Prod.mk.injEq]
  constructor
  . rintro ⟨_, _, ⟨rfl, rfl⟩, _, _, rfl, _, v, hact, _, _, ⟨rfl, rfl⟩, _, _,
      ⟨frames, hpop, rfl⟩, _, _, rfl, ⟨rfl, rfl⟩, rfl⟩
    exact ⟨_, frames, hact, hpop, rfl, rfl⟩
  . rintro ⟨v, frames, hact, hpop, rfl, rfl⟩
    exact ⟨_, _, ⟨rfl, rfl⟩, ⟨⟩, _, rfl, ⟨⟩, v, hact, _, _, ⟨rfl, rfl⟩, decls, _,
      ⟨frames, hpop, rfl⟩, ⟨⟩, _, rfl, ⟨rfl, rfl⟩, rfl⟩

theorem fails_withExit {exit : Exit} {f : Fault} (h : Fails plan (withExit exit x) w f) :
    Fails plan x { w with exits := exit :: w.exits } f :=
  fails_between h

theorem fails_withFrames {change : Frames → Except FrameFault (α × Frames)} {f : Fault}
    (h : Fails plan (withFrames change) w f) : ∃ g, change w.frames = .error g := by
  simp only [withFrames, fails_bind, not_fails_get, false_or] at h
  obtain ⟨_, _, hget, h⟩ := h
  obtain ⟨rfl, rfl⟩ := runs_get.1 hget
  split at h
  . simp only [fails_bind, not_fails_modify, not_fails_pure, and_false, exists_false,
      or_false] at h
  . next g hc => exact ⟨g, hc⟩

theorem fails_inBlock {act : Lower Unit} {f : Fault} (h : Fails plan (inBlock act) w f) :
    Fails plan act { w with frames := w.frames.push, body := [] } f ∨
      ∃ v g, Runs plan act { w with frames := w.frames.push, body := [] } () v ∧
        v.frames.pop = .error g := by
  simp only [inBlock, fails_bind, not_fails_get, not_fails_modify, not_fails_pure, and_false,
    exists_false, or_false, false_or, runs_get, runs_modify] at h
  obtain ⟨_, _, ⟨rfl, rfl⟩, _, _, rfl, h | ⟨_, v, hact, _, _, ⟨rfl, rfl⟩, h⟩⟩ := h
  . exact .inl h
  . obtain ⟨g, hg⟩ := fails_withFrames h
    exact .inr ⟨_, g, hact, hg⟩

theorem fails_withStack {k : Nat} {f : Fault} (h : Fails plan (withStack k x) w f) :
    Fails plan x { w with stack := k } f :=
  fails_between h

theorem fails_withChain {chain : Option C.Expr} {f : Fault}
    (h : Fails plan (withChain chain x) w f) : Fails plan x { w with chain } f :=
  fails_between h

end ScriptC.Lower
