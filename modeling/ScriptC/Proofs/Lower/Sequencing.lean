import ScriptC.Proofs.C.Acts
import ScriptC.Proofs.Lower.Values

/-!
Operands are evaluated in the order of the script, whatever order C chooses for the arguments of a
call, and those that are read more than once have no effects.
-/

namespace ScriptC

namespace C

open Act

variable {V α β : Type} {M : Meaning V} {name : String}

namespace Act

def Same (x y : Act V α) : Prop := ∀ own, x.run' own = y.run' own

theorem Same.refl (x : Act V α) : Same x x := fun _ => rfl

theorem Same.bind {f g : β → Act V α} (h : ∀ b, Same (f b) (g b)) (x : Act V β) :
    Same (x >>= f) (x >>= g) := by
  intro own
  simp only [Same, StateT.run'_eq] at h
  simp [h]

theorem Same.map {x y : Act V α} (h : Same x y) (f : α → β) :
    Same (x >>= fun a => pure (f a)) (y >>= fun a => pure (f a)) := by
  have hmap (z : Act V α) (own) : (z >>= fun a => pure (f a)).run' own = f <$> z.run' own := by
    simp
  intro own
  rw [hmap, hmap, h own]

theorem Same.cons_temp {p : Act V β} {x : Act V V} {q y : Act V (List V)}
    (h : Same (p >>= fun _ => q) y) (hy : Blind y)
    (hp : Commute (modifyGet fun own : String → V => (own name, own)) p) :
    Same (x >>= fun v => modifyGet (fun own => (v, Function.update own name v)) >>= fun _ =>
        p >>= fun _ => modifyGet (fun own => (own name, own)) >>= fun u =>
          q >>= fun vs => pure (u :: vs))
      (x >>= fun v => y >>= fun vs => pure (v :: vs)) := by
  refine .bind (fun v own => ?_) x
  have hcons := h.map (fun vs => v :: vs) (Function.update own name v)
  obtain ⟨y, rfl⟩ := hy
  have hswap := hp _ fun u _ => q >>= fun vs => pure (u :: vs)
  simp only [← hswap]
  simpa using hcons

end Act

namespace Meaning

def Pinned (lo hi : Nat) (e : Expr) : Prop :=
  e.isConstant = true ∨ ∃ j : Nat, lo < j ∧ j ≤ hi ∧ e = .var (temporaryName "tmp" j)

def Pins (M : Meaning V) (lo hi : Nat) (e : Expr) : Prop :=
  ∃ (j : Nat) (x : Expr), lo < j ∧ j ≤ hi ∧ x.Every M.foreign ∧
    e = .set (.var (temporaryName "tmp" j)) x

def OwnsAfter (M : Meaning V) (lo : Nat) : Prop :=
  ∀ j : Nat, lo < j → M.isOwn (temporaryName "tmp" j) = true

theorem eval_set {e : Expr} (h : M.isOwn name = true) : M.eval (.set (.var name) e) =
    M.eval e >>= fun v => modifyGet fun own => (v, Function.update own name v) := by
  change M.eval e >>= (fun v => store M name v >>= fun _ => pure v) = _
  congr 1
  funext v
  rw [store, if_pos h]
  ext own
  simp

theorem eval_var (h : M.isOwn name = true) :
    M.eval (.var name) = modifyGet fun own => (own name, own) := by
  change Act.read M name = _
  ext own
  simp [Act.read, reading, h, Except.map]

theorem eval_of_isReadable {e : Expr} (h : Lower.isReadable e = true) :
    ∃ f, M.eval e = reading f := by
  have hconstant : e.isConstant = true → ∃ f, M.eval e = reading f := by
    intro h
    obtain ⟨v, hv⟩ := eval_of_isConstant (M := M) h
    refine ⟨fun _ _ => v, ?_⟩
    ext own
    simp [hv, reading, Except.map]
  cases e with
  | raw text isConstant =>
    cases isConstant with
    | true => exact hconstant rfl
    | false => exact ⟨_, by rw [eval, if_neg Bool.false_ne_true, Act.read]⟩
  | _ => exact hconstant h

theorem Pinned.isReadable {lo hi : Nat} {e : Expr} (h : Pinned lo hi e) :
    Lower.isReadable e = true := by
  rcases h with h | ⟨j, -, -, rfl⟩
  . unfold Lower.isReadable
    split
    . rfl
    . exact h
  . rfl

theorem Pinned.commute {lo hi : Nat} {x e : Expr} (hown : M.OwnsAfter lo) (hx : Pinned lo hi x)
    (he : e.Every M.foreign) : Commute (M.eval x) (M.eval e) := by
  rcases hx with hx | ⟨j, hj, -, rfl⟩
  . obtain ⟨v, hv⟩ := eval_of_isConstant hx
    rw [hv]
    exact commute_pure
  . rw [eval_var (hown j hj)]
    exact (blind_eval he).commute

theorem Pinned.commute_pins {lo hi hi' : Nat} {x e : Expr} (hown : M.OwnsAfter lo)
    (hx : Pinned lo hi x) (he : M.Pins hi hi' e) : Commute (M.eval x) (M.eval e) := by
  rcases hx with hx | ⟨j, hj, hj', rfl⟩
  . obtain ⟨v, hv⟩ := eval_of_isConstant hx
    rw [hv]
    exact commute_pure
  . obtain ⟨k, y, hk, -, hy, rfl⟩ := he
    rw [eval_var (hown j hj), eval_set (hown k (by omega))]
    refine (blind_eval hy).commute.bind fun v => ?_
    have hne : temporaryName "tmp" j ≠ temporaryName "tmp" k := by
      rw [ne_eq, temporaryName_inj]
      omega
    intro γ f
    ext own
    simp [hne]

end Meaning
end C

namespace Lower

open C C.Act C.Meaning

variable {V : Type} {M : Meaning V} (plan : Plan) {w : Writer} {list : List C.Expr}
  {r : List C.Expr × List C.Expr}

structure Staged (M : Meaning V) (lo hi : Nat) (list : List C.Expr)
    (r : List C.Expr × List C.Expr) : Prop where
  le : lo ≤ hi
  pre : ∀ e ∈ r.1, M.Pins lo hi e
  values : ∃ heads last, r.2 = heads ++ last ∧ last.length ≤ 1 ∧ (∀ e ∈ heads, Pinned lo hi e) ∧
    C.Expr.EveryOf M.foreign last
  same : Same (r.1.mapM M.eval >>= fun _ => r.2.mapM M.eval) (list.mapM M.eval)

theorem runs_temp (hw : w.frames.blocks ≠ []) : ∃ w',
    Runs plan temp w (.var (temporaryName "tmp" (w.lastName + 1 : Nat))) w' ∧
      w'.lastName = w.lastName + 1 ∧ w'.frames.blocks ≠ [] := by
  obtain ⟨top, outer, hb⟩ := List.exists_cons_of_ne_nil hw
  have hrun : ∃ e w', Runs plan temp w e w' := by
    simp only [temp, tempOf, allocate, runs_bind, runs_freshName, runs_modify, runs_pure,
      runs_withFrames]
    simp [Frames.allocate, Frames.declare, hb, bind, Except.bind, pure, Except.pure]
  obtain ⟨e, w', hrun⟩ := hrun
  unfold temp tempOf at hrun ⊢
  obtain ⟨top, outer, -, rfl, rfl⟩ := runs_allocate hrun
  exact ⟨_, hrun, rfl, by simp⟩

theorem blind_mapM (h : C.Expr.EveryOf M.foreign list) : Blind (list.mapM M.eval) := by
  exact .mapM fun e he => blind_eval (C.Expr.everyOf_iff.1 h e he)

theorem runs_spill (hown : M.OwnsAfter w.lastName) (hw : w.frames.blocks ≠ [])
    (hlist : C.Expr.EveryOf M.foreign list) : ∃ r w', Runs plan (spill list) w r w' ∧
      w'.frames.blocks ≠ [] ∧ Staged M w.lastName w'.lastName list r := by
  fun_induction spill list generalizing w with
  | case1 =>
    refine ⟨_, w, runs_pure.2 ⟨rfl, rfl⟩, hw, Nat.le_refl _, by simp, ⟨[], [], by simp⟩, ?_⟩
    simpa using .refl _
  | case2 e =>
    refine ⟨_, w, runs_pure.2 ⟨rfl, rfl⟩, hw, Nat.le_refl _, by simp,
      ⟨[], [e], by simpa using hlist⟩, ?_⟩
    simpa using .refl _
  | case3 e rest hrest he ih =>
    obtain ⟨r, w', hrun, hw', hstaged⟩ := ih hown hw hlist.2
    obtain ⟨heads, last, hr, hlast, hheads, hforeign⟩ := hstaged.values
    refine ⟨_, w', runs_bind.2 ⟨_, _, hrun, runs_pure.2 ⟨rfl, rfl⟩⟩, hw', hstaged.le, hstaged.pre,
      ⟨e :: heads, last, by simp [hr], hlast, ?_, hforeign⟩, ?_⟩
    . exact List.forall_mem_cons.2 ⟨.inl he, hheads⟩
    . obtain ⟨c, hc⟩ := eval_of_isConstant (M := M) he
      simpa [List.mapM_cons, hc] using hstaged.same.map fun vs => c :: vs
  | case4 e rest hrest he ih =>
    obtain ⟨v, ht, hv, hblocks⟩ := runs_temp plan hw
    obtain ⟨r, w', hrun, hw', hstaged⟩ := ih (fun j hj => hown j (by omega)) hblocks hlist.2
    have hle := hstaged.le
    have hj := hown (w.lastName + 1) (Nat.lt_succ_self _)
    obtain ⟨heads, last, hr, hlast, hheads, hforeign⟩ := hstaged.values
    refine ⟨_, w', runs_bind.2 ⟨_, _, ht, runs_bind.2 ⟨_, _, hrun, runs_pure.2 ⟨rfl, rfl⟩⟩⟩, hw',
      by omega, ?_, ⟨_ :: heads, last, by rw [hr]; rfl, hlast, ?_, hforeign⟩, ?_⟩
    . refine List.forall_mem_cons.2 ⟨⟨_, e, by omega, by omega, hlist.1, rfl⟩, fun x hx => ?_⟩
      obtain ⟨j, y, hj, hj', hy, rfl⟩ := hstaged.pre x hx
      exact ⟨j, y, by omega, hj', hy, rfl⟩
    . refine List.forall_mem_cons.2 ⟨.inr ⟨_, by omega, by omega, rfl⟩, fun x hx => ?_⟩
      refine (hheads x hx).imp_right ?_
      rintro ⟨j, hj, hj', hx⟩
      exact ⟨j, by omega, hj', hx⟩
    . have hpinned : Pinned w.lastName v.lastName
          (.var (temporaryName "tmp" (w.lastName + 1 : Nat))) :=
        .inr ⟨_, by omega, by omega, rfl⟩
      have hpre : Commute (M.eval (.var (temporaryName "tmp" (w.lastName + 1 : Nat))))
          (r.1.mapM M.eval) :=
        .mapM fun x hx => hpinned.commute_pins hown (hstaged.pre x hx)
      rw [eval_var hj] at hpre
      simp only [List.mapM_cons, eval_set hj, eval_var hj, bind_assoc, pure_bind]
      exact hstaged.same.cons_temp (blind_mapM hlist.2) hpre

theorem pairwise_readable (h : ∀ e ∈ list, isReadable e = true) :
    (list.map M.eval).Pairwise Commute := by
  rw [List.pairwise_map]
  refine List.pairwise_of_forall_mem_list fun x hx y hy => ?_
  obtain ⟨f, hf⟩ := eval_of_isReadable (M := M) (h x hx)
  obtain ⟨g, hg⟩ := eval_of_isReadable (M := M) (h y hy)
  rw [hf, hg]
  exact commute_reading

theorem Staged.pairwise {lo hi : Nat} (h : Staged M lo hi list r) (hown : M.OwnsAfter lo) :
    (r.2.map M.eval).Pairwise Commute := by
  obtain ⟨heads, last, hr, hlast, hheads, hforeign⟩ := h.values
  rw [hr, List.map_append, List.pairwise_append]
  refine ⟨pairwise_readable fun e he => (hheads e he).isReadable, ?_, ?_⟩
  . rcases last with _ | ⟨e, _ | ⟨e', rest⟩⟩
    . exact .nil
    . exact List.pairwise_singleton _ _
    . simp at hlast
  . rw [List.forall_mem_map]
    intro x hx
    rw [List.forall_mem_map]
    exact fun y hy => (hheads x hx).commute hown (C.Expr.everyOf_iff.1 hforeign y hy)

theorem isReadable_of_isSimple {e : C.Expr} (h : isSimple e = true) : isReadable e = true := by
  unfold isSimple at h
  unfold isReadable
  split at h
  . rfl
  . exact h
  . cases h

theorem runs_inOrder (hown : M.OwnsAfter w.lastName) (hw : w.frames.blocks ≠ [])
    (hlist : C.Expr.EveryOf M.foreign list) : ∃ r w', Runs plan (inOrder list) w r w' ∧
      w'.frames.blocks ≠ [] ∧ ((r = ([], list) ∧ ∀ e ∈ list, isReadable e = true) ∨
        Staged M w.lastName w'.lastName list r) := by
  unfold inOrder
  split
  . next hsimple =>
    rw [List.all_eq_true] at hsimple
    exact ⟨_, w, runs_pure.2 ⟨rfl, rfl⟩, hw,
      .inl ⟨rfl, fun e he => isReadable_of_isSimple (hsimple e he)⟩⟩
  . obtain ⟨r, w', hrun, hw', hstaged⟩ := runs_spill plan hown hw hlist
    exact ⟨r, w', hrun, hw', .inr hstaged⟩

def sequenced (M : Meaning V) (order : List Nat) (r : List C.Expr × List C.Expr) : Act V (List V) :=
  r.1.mapM M.eval >>= fun _ => inOrderOf order (r.2.map M.eval)

theorem sequenced_eq (order : List Nat) (h : (r.2.map M.eval).Pairwise Commute) :
    sequenced M order r = r.1.mapM M.eval >>= fun _ => r.2.mapM M.eval := by
  rw [sequenced, inOrderOf_eq order h, List.mapM_map]
  rfl

theorem runs_settle {heads last : List C.Expr} (hheads : ∀ e ∈ heads, isReadable e = true)
    (hlast : last.length ≤ 1) (hw : w.frames.blocks ≠ []) :
    ∃ r w', Runs plan (settle (heads ++ last)) w r w' ∧
      ((r = ([], heads ++ last) ∧ ∀ e ∈ last, isReadable e = true) ∨ ∃ e, last = [e] ∧
        r = ([.set (.var (temporaryName "tmp" (w.lastName + 1 : Nat))) e],
          heads ++ [.var (temporaryName "tmp" (w.lastName + 1 : Nat))])) := by
  induction heads with
  | nil =>
    rcases last with _ | ⟨e, _ | ⟨e', rest⟩⟩
    . exact ⟨_, w, runs_pure.2 ⟨rfl, rfl⟩, .inl ⟨rfl, by simp⟩⟩
    . rw [List.nil_append, settle]
      split
      . next he =>
        exact ⟨_, w, runs_bind.2 ⟨_, _, runs_pure.2 ⟨rfl, rfl⟩, runs_pure.2 ⟨rfl, rfl⟩⟩,
          .inl ⟨rfl, by simpa using he⟩⟩
      . obtain ⟨v, ht, -⟩ := runs_temp plan hw
        exact ⟨_, v, runs_bind.2 ⟨_, _, ht, runs_bind.2 ⟨_, _, runs_pure.2 ⟨rfl, rfl⟩,
          runs_pure.2 ⟨rfl, rfl⟩⟩⟩, .inr ⟨e, rfl, rfl⟩⟩
    . simp at hlast
  | cons x heads ih =>
    rw [List.forall_mem_cons] at hheads
    rw [List.cons_append, settle, if_pos hheads.1]
    obtain ⟨r, w', hrun, hr⟩ := ih hheads.2
    refine ⟨_, w', runs_bind.2 ⟨_, _, hrun, runs_pure.2 ⟨rfl, rfl⟩⟩, ?_⟩
    rcases hr with ⟨rfl, hread⟩ | ⟨e, rfl, rfl⟩
    . exact .inl ⟨rfl, hread⟩
    . exact .inr ⟨e, rfl, rfl⟩

theorem same_settled {lo hi : Nat} {heads : List C.Expr} {e : C.Expr} {name : String}
    (hname : name = temporaryName "tmp" (hi + 1 : Nat)) (hown : M.OwnsAfter lo)
    (hheads : ∀ x ∈ heads, Pinned lo hi x) (hle : lo ≤ hi) (he : e.Every M.foreign) :
    Same ([.set (.var name) e].mapM M.eval >>= fun _ => (heads ++ [C.Expr.var name]).mapM M.eval)
      ((heads ++ [e]).mapM M.eval) := by
  have hnew : M.isOwn name = true := hname ▸ hown (hi + 1) (by omega)
  have hpins : M.Pins hi (hi + 1) (.set (.var name) e) :=
    ⟨hi + 1, e, by omega, by omega, he, by rw [hname]⟩
  have hcommute : Commute (heads.mapM M.eval) (M.eval (.set (.var name) e)) :=
    (Commute.mapM fun x hx => ((hheads x hx).commute_pins hown hpins).symm).symm
  simp only [List.mapM_append, List.mapM_cons, List.mapM_nil, bind_assoc, pure_bind]
  rw [← hcommute]
  refine .bind (fun vs own => ?_) _
  obtain ⟨y, hy⟩ := blind_eval he
  simp [eval_set hnew, eval_var hnew, hy]

theorem runs_readableInOrder (hown : M.OwnsAfter w.lastName) (hw : w.frames.blocks ≠ [])
    (hlist : C.Expr.EveryOf M.foreign list) : ∃ r w', Runs plan (readableInOrder list) w r w' ∧
      (∀ e ∈ r.2, isReadable e = true) ∧
      Same (r.1.mapM M.eval >>= fun _ => r.2.mapM M.eval) (list.mapM M.eval) := by
  obtain ⟨⟨pre, values⟩, v, hrun, hv, ⟨⟨⟩, hread⟩ | hstaged⟩ :=
    runs_inOrder plan hown hw hlist
  . obtain ⟨r, w', hsettle, ⟨rfl, -⟩ | ⟨e, ⟨⟩, -⟩⟩ :=
      runs_settle plan hread (show [].length ≤ 1 by simp) hv
    rw [List.append_nil] at hsettle
    refine ⟨_, w', runs_bind.2 ⟨_, _, hrun, runs_bind.2 ⟨_, _, hsettle, runs_pure.2 ⟨rfl, rfl⟩⟩⟩,
      ?_⟩
    simpa using ⟨hread, .refl _⟩
  . obtain ⟨heads, last, rfl, hlast, hheads, hforeign⟩ := hstaged.values
    have hread : ∀ e ∈ heads, isReadable e = true := fun e he => (hheads e he).isReadable
    obtain ⟨r, w', hsettle, hr⟩ := runs_settle plan hread hlast hv
    refine ⟨_, w', runs_bind.2 ⟨_, _, hrun, runs_bind.2 ⟨_, _, hsettle, runs_pure.2 ⟨rfl, rfl⟩⟩⟩,
      ?_⟩
    rcases hr with ⟨rfl, hread'⟩ | ⟨e, rfl, rfl⟩
    . rw [List.append_nil]
      exact ⟨List.forall_mem_append.2 ⟨hread, hread'⟩, hstaged.same⟩
    . refine ⟨List.forall_mem_append.2 ⟨hread, by simp [isReadable, C.Expr.var]⟩, fun own => ?_⟩
      have hlast := same_settled rfl hown hheads hstaged.le hforeign.1
      rw [← hstaged.same own, ← Same.bind (fun _ => hlast) (pre.mapM M.eval) own]
      simp only [List.mapM_append, bind_assoc, pure_bind]

theorem readings (h : ∀ e ∈ list, isReadable e = true) :
    ∃ look : C.Expr → (String → V) → (String → V) → V, ∀ again, again ⊆ list → ∀ order,
      inOrderOf order (again.map M.eval) = reading fun own vars => again.map (look · own vars) := by
  have hlook : ∀ e, ∃ f, e ∈ list → M.eval e = reading f := by
    intro e
    by_cases he : e ∈ list
    . obtain ⟨f, hf⟩ := eval_of_isReadable (M := M) (h e he)
      exact ⟨f, fun _ => hf⟩
    . exact ⟨fun _ _ => M.constant "", fun h => absurd h he⟩
  choose look hlook using hlook
  refine ⟨look, fun again hagain order => ?_⟩
  rw [inOrderOf_eq order (pairwise_readable fun e he => h e (hagain he)), List.mapM_map]
  induction again with
  | nil =>
    ext own
    simp [reading, Except.map]
  | cons e again ih =>
    rw [List.cons_subset] at hagain
    rw [List.mapM_cons, ih hagain.2]
    change M.eval e >>= _ = _
    rw [hlook e hagain.1]
    ext own
    simp [reading, Except.map]

/--
Operands are evaluated as if one after the other, in whatever order C takes the values that are left
as arguments. Those that may be read more than once are looked up without effects.
-/
theorem operands_faithful (hown : M.OwnsAfter w.lastName) (hw : w.frames.blocks ≠ [])
    (hlist : ∀ e ∈ list, e.Every M.foreign) :
    (∃ r w', Runs plan (inOrder list) w r w' ∧
      ∀ order, Same (sequenced M order r) (list.mapM M.eval)) ∧
    ∃ r w', Runs plan (readableInOrder list) w r w' ∧
      (∀ order, Same (sequenced M order r) (list.mapM M.eval)) ∧
      ∃ look : C.Expr → (String → V) → (String → V) → V, ∀ again, again ⊆ r.2 → ∀ order,
        inOrderOf order (again.map M.eval) =
          reading fun own vars => again.map (look · own vars) := by
  rw [← C.Expr.everyOf_iff] at hlist
  constructor
  . obtain ⟨r, w', hrun, -, ⟨rfl, hread⟩ | hstaged⟩ := runs_inOrder plan hown hw hlist
    . refine ⟨_, w', hrun, fun order => ?_⟩
      rw [sequenced_eq order (pairwise_readable hread)]
      simpa using .refl _
    . refine ⟨r, w', hrun, fun order => ?_⟩
      rw [sequenced_eq order (hstaged.pairwise hown)]
      exact hstaged.same
  . obtain ⟨r, w', hrun, hread, hsame⟩ := runs_readableInOrder plan hown hw hlist
    refine ⟨r, w', hrun, fun order => ?_, readings hread⟩
    rw [sequenced_eq order (pairwise_readable hread)]
    exact hsame

def unitMeaning : Meaning Unit where
  isOwn name := C.isTemporary name.toList
  constant _ := ()
  compute _ _ := ()
  isTrue _ := true

def blankPlan : Plan where
  analysis := { bindings := { counters := ⟨0, 0⟩, functions := #[], sites := {} } }
  source := default
  settings := {}

theorem operands_faithful_call : ∃ r w',
    Runs blankPlan (inOrder [.var "x", .call "f" [.var "x"], .var "x"])
      { (default : Writer) with frames := ⟨[[]], 0⟩ } r w' ∧
    ∀ order, Same (sequenced unitMeaning order r)
      ([C.Expr.var "x", .call "f" [.var "x"], .var "x"].mapM unitMeaning.eval) := by
  have hx : (C.Expr.var "x").Every unitMeaning.foreign :=
    .inr (show C.isTemporary "x".toList = false by decide)
  refine (operands_faithful blankPlan (M := unitMeaning) ?_ (by decide) ?_).1
  . exact fun j _ => isTemporary_temporaryName (by decide) j
  . rw [← C.Expr.everyOf_iff]
    exact ⟨hx, ⟨trivial, hx, trivial⟩, hx, trivial⟩

end Lower
end ScriptC
