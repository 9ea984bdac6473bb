import ScriptC.Function

/-!
Functions around functions. Each comes after the one around it, so the way up from a function ends
at one that has none around it.
-/

namespace ScriptC.Lineage

variable {functions : Array Lineage} {o f p i : Nat} {l : Lineage}

def Parent (functions : Array Lineage) (p f : Nat) : Prop :=
  ∃ l, functions[f]? = some l ∧ l.parent = some p

structure IsTree (functions : Array Lineage) : Prop where
  before : ∀ {p f}, Parent functions p f → p < f
  below : ∀ {f}, 0 < f → f < functions.size → ∃ p, Parent functions p f
  root : ∃ l, functions[0]? = some l ∧ l.parent = none ∧ l.isArrow = false

inductive Within (functions : Array Lineage) (o : Nat) : Nat → Prop
  | self : Within functions o o
  | step {p f : Nat} : Parent functions p f → Within functions o p → Within functions o f

def Inside (functions : Array Lineage) (o f : Nat) : Prop :=
  ∃ p, Parent functions p f ∧ Within functions o p

theorem Parent.unique {q : Nat} (h : Parent functions p f) (h' : Parent functions q f) : p = q := by
  obtain ⟨l, hl, hp⟩ := h
  obtain ⟨l', hl', hq⟩ := h'
  rw [hl] at hl'
  cases hl'
  rw [hp] at hq
  cases hq
  rfl

theorem Inside.within (h : Inside functions o f) : Within functions o f := by
  obtain ⟨p, hp, hw⟩ := h
  exact .step hp hw

theorem Within.eq_or_inside (h : Within functions o f) : f = o ∨ Inside functions o f := by
  cases h with
  | self => exact .inl rfl
  | step hp hw => exact .inr ⟨_, hp, hw⟩

namespace IsTree

theorem le_of_within (h : IsTree functions) (hw : Within functions o f) : o ≤ f := by
  induction hw with
  | self => exact Nat.le_refl _
  | step hp _ ih => exact Nat.le_of_lt (Nat.lt_of_le_of_lt ih (h.before hp))

theorem lt_of_inside (h : IsTree functions) (hi : Inside functions o f) : o < f := by
  obtain ⟨p, hp, hw⟩ := hi
  exact Nat.lt_of_le_of_lt (h.le_of_within hw) (h.before hp)

theorem not_parent_zero (h : IsTree functions) : ¬Parent functions p 0 := by
  intro hp
  exact Nat.not_lt_zero _ (h.before hp)

theorem chainFrom_eq (h : IsTree functions) {fuel fuel' : Nat} (hf : f < fuel) (hf' : f < fuel') :
    chainFrom functions fuel (some f) = chainFrom functions fuel' (some f) := by
  induction fuel generalizing fuel' f with
  | zero => omega
  | succ fuel ih =>
    obtain ⟨fuel', rfl⟩ : ∃ n, fuel' = n + 1 := ⟨fuel' - 1, by omega⟩
    rw [chainFrom, chainFrom]
    cases hl : functions[f]? with
    | none => rfl
    | some l =>
      dsimp only
      cases hp : l.parent with
      | none => cases fuel <;> cases fuel' <;> rfl
      | some p =>
        have hlt := h.before ⟨l, hl, hp⟩
        rw [@ih p fuel' (by omega) (by omega)]

theorem chain_eq (h : IsTree functions) (hl : functions[f]? = some l) :
    chain functions f = (f, l) :: l.parent.elim [] (chain functions) := by
  obtain ⟨hf, -⟩ := Array.getElem?_eq_some_iff.1 hl
  rw [chain, chainFrom, hl]
  dsimp only
  cases hp : l.parent with
  | none =>
    obtain ⟨n, hn⟩ : ∃ n, functions.size = n + 1 := ⟨functions.size - 1, by omega⟩
    rw [hn]
    rfl
  | some p =>
    have hlt := h.before ⟨l, hl, hp⟩
    rw [h.chainFrom_eq (by omega) (by omega : p < functions.size + 1)]
    rfl

theorem exists_thisOwner (h : IsTree functions) (hf : f < functions.size) :
    ∃ o l, thisOwner? functions f = some o ∧ Within functions o f ∧ functions[o]? = some l ∧
      l.isArrow = false := by
  induction f using Nat.strongRecOn with
  | ind f ih =>
    obtain ⟨l, hl⟩ : ∃ l, functions[f]? = some l := ⟨_, Array.getElem?_eq_getElem hf⟩
    unfold thisOwner?
    rw [h.chain_eq hl, List.find?_cons]
    cases harrow : l.isArrow with
    | false => exact ⟨f, l, rfl, .self, hl, harrow⟩
    | true =>
      have hne : 0 < f := by
        rcases Nat.eq_zero_or_pos f with rfl | hpos
        . obtain ⟨l', hl', -, harrow'⟩ := h.root
          rw [hl] at hl'
          cases hl'
          rw [harrow] at harrow'
          cases harrow'
        . exact hpos
      obtain ⟨p, hparent⟩ := h.below hne hf
      obtain ⟨l', hl', hp⟩ := hparent
      rw [hl] at hl'
      cases hl'
      have hlt := h.before ⟨l, hl, hp⟩
      obtain ⟨o, lo, hthis, hw, ho, hnot⟩ := ih p hlt (by omega)
      refine ⟨o, lo, ?_, .step ⟨l, hl, hp⟩ hw, ho, hnot⟩
      rw [hp]
      exact hthis

end IsTree
end ScriptC.Lineage
