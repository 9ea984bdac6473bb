import ScriptC.Fault
import ScriptC.Node.Walk

/-!
Runs of passes: computations on a state that may fail. A run that succeeds is opened step by step,
and what each step does to the state carries over to the whole run.
-/

namespace ScriptC.Pass

variable {σ α β : Type} {s s' : σ}

def Ends (act : StateT σ (Except Fault) α) (s : σ) (a : α) (s' : σ) : Prop :=
  act.run s = .ok (a, s')

theorem ends_bind {x : StateT σ (Except Fault) α} {g : α → StateT σ (Except Fault) β} {b : β} :
    Ends (x >>= g) s b s' ↔ ∃ a t, Ends x s a t ∧ Ends (g a) t b s' := by
  unfold Ends
  rw [StateT.run_bind]
  cases x.run s with
  | error e => simp [bind, Except.bind]
  | ok r =>
    rcases r with ⟨a, t⟩
    simp only [bind, Except.bind, Except.ok.injEq, Prod.mk.injEq]
    constructor
    . intro hg
      exact ⟨a, t, ⟨rfl, rfl⟩, hg⟩
    . rintro ⟨_, _, ⟨rfl, rfl⟩, hg⟩
      exact hg

theorem ends_pure {a b : α} :
    Ends (pure a : StateT σ (Except Fault) α) s b s' ↔ b = a ∧ s' = s := by
  constructor
  . intro h
    cases h
    exact ⟨rfl, rfl⟩
  . rintro ⟨rfl, rfl⟩
    rfl

theorem ends_map {x : StateT σ (Except Fault) α} {g : α → β} {b : β} :
    Ends (g <$> x) s b s' ↔ ∃ a, Ends x s a s' ∧ b = g a := by
  rw [map_eq_pure_bind, ends_bind]
  constructor
  . rintro ⟨a, t, hx, hg⟩
    obtain ⟨rfl, rfl⟩ := ends_pure.1 hg
    exact ⟨a, hx, rfl⟩
  . rintro ⟨a, hx, rfl⟩
    exact ⟨a, s', hx, rfl⟩

theorem ends_get {t : σ} :
    Ends (get : StateT σ (Except Fault) σ) s t s' ↔ t = s ∧ s' = s := by
  constructor
  . intro h
    cases h
    exact ⟨rfl, rfl⟩
  . rintro ⟨rfl, rfl⟩
    rfl

theorem ends_modify {g : σ → σ} {u : PUnit} :
    Ends (modify g : StateT σ (Except Fault) PUnit) s u s' ↔ s' = g s := by
  constructor
  . intro h
    cases h
    rfl
  . rintro rfl
    rfl

theorem ends_get_bind {g : σ → StateT σ (Except Fault) β} {b : β} :
    Ends (get >>= g) s b s' ↔ Ends (g s) s b s' := .rfl

theorem ends_set_bind {t : σ} {g : PUnit → StateT σ (Except Fault) β} {b : β} :
    Ends (set t >>= g) s b s' ↔ Ends (g ⟨⟩) t b s' := .rfl

theorem ends_modify_bind {f : σ → σ} {g : PUnit → StateT σ (Except Fault) β} {b : β} :
    Ends (modify f >>= g) s b s' ↔ Ends (g ⟨⟩) (f s) b s' := .rfl

theorem not_ends_throw {f : Fault} {a : α} :
    ¬Ends (throw f : StateT σ (Except Fault) α) s a s' := by
  intro h
  cases h

theorem not_ends_throw_bind {f : Fault} {g : α → StateT σ (Except Fault) β} {b : β} :
    ¬Ends (throw f >>= g) s b s' := by
  intro h
  cases h

theorem ends_lift {x : Except Fault α} {a : α} :
    Ends (liftM x : StateT σ (Except Fault) α) s a s' ↔ x = .ok a ∧ s' = s := by
  cases x with
  | error f =>
    constructor
    . intro h
      cases h
    . rintro ⟨h, -⟩
      cases h
  | ok b =>
    constructor
    . intro h
      cases h
      exact ⟨rfl, rfl⟩
    . rintro ⟨h, rfl⟩
      cases h
      rfl

theorem ends_of_run {act : StateT σ (Except Fault) PUnit}
    (h : (·.2) <$> act.run s = .ok s') : Ends act s ⟨⟩ s' := by
  unfold Ends
  cases hrun : act.run s with
  | error f =>
    rw [hrun] at h
    cases h
  | ok r =>
    rw [hrun] at h
    cases h
    rfl

def Keeps (R : σ → σ → Prop) (act : StateT σ (Except Fault) α) : Prop :=
  ∀ s a s', Ends act s a s' → R s s'

structure IsSteady (R : σ → σ → Prop) : Prop where
  refl : ∀ s, R s s
  trans : ∀ {s t u}, R s t → R t u → R s u

namespace Keeps

variable {R : σ → σ → Prop}

theorem pure (hR : IsSteady R) (a : α) : Keeps R (pure a : StateT σ (Except Fault) α) := by
  intro s b s' h
  obtain ⟨-, rfl⟩ := ends_pure.1 h
  exact hR.refl _

theorem bind (hR : IsSteady R) {x : StateT σ (Except Fault) α}
    {g : α → StateT σ (Except Fault) β} (hx : Keeps R x) (hg : ∀ a, Keeps R (g a)) :
    Keeps R (x >>= g) := by
  intro s b s' h
  obtain ⟨a, t, hxa, hgb⟩ := ends_bind.1 h
  exact hR.trans (hx s a t hxa) (hg a t b s' hgb)

theorem get_bind {g : σ → StateT σ (Except Fault) β}
    (hg : ∀ s b s', Ends (g s) s b s' → R s s') : Keeps R (get >>= g) := by
  intro s b s' h
  exact hg s b s' (ends_get_bind.1 h)

theorem get (hR : IsSteady R) : Keeps R (get : StateT σ (Except Fault) σ) := by
  intro s t s' h
  obtain ⟨-, rfl⟩ := ends_get.1 h
  exact hR.refl _

theorem modify {g : σ → σ} (hg : ∀ s, R s (g s)) :
    Keeps R (modify g : StateT σ (Except Fault) PUnit) := by
  intro s u s' h
  rw [ends_modify.1 h]
  exact hg s

theorem throw (f : Fault) : Keeps R (throw f : StateT σ (Except Fault) α) :=
  fun _ _ _ h => absurd h not_ends_throw

theorem map {x : StateT σ (Except Fault) α} {g : α → β} (hx : Keeps R x) : Keeps R (g <$> x) := by
  intro s b s' h
  obtain ⟨a, ha, -⟩ := ends_map.1 h
  exact hx s a s' ha

theorem lift (hR : IsSteady R) (x : Except Fault α) :
    Keeps R (liftM x : StateT σ (Except Fault) α) := by
  intro s a s' h
  rw [(ends_lift.1 h).2]
  exact hR.refl s

theorem forIn (hR : IsSteady R) {γ : Type} {xs : List γ} {init : β}
    {f : γ → β → StateT σ (Except Fault) (ForInStep β)} (hf : ∀ x ∈ xs, ∀ r, Keeps R (f x r)) :
    Keeps R (forIn xs init f) := by
  induction xs generalizing init with
  | nil =>
    rw [List.forIn_nil]
    exact .pure hR init
  | cons x rest ih =>
    rw [List.forIn_cons]
    apply bind hR (hf x List.mem_cons_self init)
    intro step
    cases step with
    | done r => exact .pure hR r
    | yield r => exact ih fun y hy => hf y (List.mem_cons_of_mem _ hy)

theorem forM_option (hR : IsSteady R) {γ : Type} {o : Option γ}
    {f : γ → StateT σ (Except Fault) PUnit} (hf : ∀ x, o = some x → Keeps R (f x)) :
    Keeps R (o.forM f) := by
  cases o with
  | none => exact .pure hR _
  | some x => exact hf x rfl

theorem ite {c : Prop} [Decidable c] {x y : StateT σ (Except Fault) α} (hx : c → Keeps R x)
    (hy : ¬c → Keeps R y) : Keeps R (if c then x else y) := by
  split
  . next h => exact hx h
  . next h => exact hy h

mutual

theorem replaceM (hR : IsSteady R) {f : Node → StateT σ (Except Fault) (Option Node)}
    (hf : ∀ n, Keeps R (f n)) : ∀ n : Node, Keeps R (n.replaceM f)
  | .mk id span label parts => by
    rw [Node.replaceM]
    apply bind hR (hf _)
    intro found
    cases found with
    | some n => exact .pure hR n
    | none => exact bind hR (replacePartsM hR hf parts) fun _ => .pure hR _

theorem replacePartsM (hR : IsSteady R) {f : Node → StateT σ (Except Fault) (Option Node)}
    (hf : ∀ n, Keeps R (f n)) : ∀ parts : List Part, Keeps R (Node.replacePartsM f parts)
  | [] => by
    rw [Node.replacePartsM]
    exact .pure hR _
  | .node role c :: rest => by
    rw [Node.replacePartsM]
    apply bind hR (replaceM hR hf c)
    intro c'
    exact bind hR (replacePartsM hR hf rest) fun _ => .pure hR _
  | .hole role :: rest => by
    rw [Node.replacePartsM]
    exact bind hR (replacePartsM hR hf rest) fun _ => .pure hR _

end

end Keeps
end ScriptC.Pass
