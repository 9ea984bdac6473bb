import ScriptC.Proofs.Lower.Sound

/-!
Operators, comparisons, assignments and patterns keep to a setting.
-/

namespace ScriptC.Lower

open scoped C.Expr

variable {S : Setting} {pre : Prop} {n : Node} {E : Eval} {e x y test fast slow : C.Expr}

attribute [local simp] castDouble castUint32 numberValue shiftCount

theorem tail_preferFast (ht : S.Step test) (hf : S.Tail fast) (hs : S.Part slow) :
    S.Tail (preferFast test fast slow) :=
  ⟨⟨part_preferFast ht hf.part hs, isPlain_preferFast hf.1.2⟩, isSolid_preferFast hf.2⟩

-- A value is a number for certain only where it is a constant.
theorem tail_preferFast_self (h : S.Part e) (hs : S.Part slow) :
    S.Tail (preferFast (numberView e).1 e slow) := by
  refine ⟨⟨part_preferFast (part_numberView h).1 h hs, ?_⟩, ?_⟩
  . unfold numberView
    split
    . split
      . next hc =>
        rw [preferFast]
        exact C.Expr.isPlain_of_isConstant (Bool.and_eq_true_iff.1 hc).2
      . simp [preferFast]
    . simp [preferFast]
  . unfold numberView
    split
    . split <;> simp [preferFast]
    . simp [preferFast]

theorem tail_doubleArith {op : String} (h : doubleArith? op x y = some e) (hx : S.Part x)
    (hy : S.Part y) : S.Tail e := by
  unfold doubleArith? at h
  dsimp only at h
  split at h
  all_goals
    cases h
    try simp +decide [Setting.Tail, Setting.Code, hx, hy]

theorem tail_engineArith (op : String) (hx : S.Part x) (hy : S.Part y) :
    S.Tail (engineArith op x y) := by
  unfold engineArith
  split <;> simp +decide [Setting.Tail, Setting.Code, hx, hy]

theorem writes_arith (n : Node) (op : String) (x y : C.Expr) :
    Writes S (S.Part x ∧ S.Part y) (arith n op x y) S.Tail := by
  unfold arith
  refine (writes_readablePair x y).bindOf id ?_
  rintro ⟨pre, x, y⟩ _
  dsimp only
  split
  . next fast hfast =>
    refine .pure ?_
    rintro ⟨_, hpre, hx, hy⟩
    refine .comma hpre.steps ?_
    have hxp := part_numberView hx
    have hyp := part_numberView hy
    exact tail_preferFast (C.Expr.step_and.2 ⟨hxp.1, hyp.1⟩)
      (tail_doubleArith hfast hxp.2 hyp.2) (tail_engineArith op hx hy).part
  . split
    . refine .pure ?_
      rintro ⟨_, hpre, hx, hy⟩
      exact .comma hpre.steps (tail_engineArith op hx hy)
    . exact .fail (by simp)

theorem Sound.logical (hE : Sound S E) (h : S.Fits n) : Writes S pre (logical E n) S.Tail := by
  unfold Lower.logical
  refine writes_temp.bind ?_
  rintro _ ⟨i, rfl⟩
  refine (hE.expr (h.part? _ rfl)).bind fun first _ => ?_
  refine (hE.expr (h.part? _ rfl)).bind fun second _ => ?_
  split
  . refine .pure ?_
    rintro ⟨⟨⟨_, ht⟩, h⟩, h'⟩
    simp +decide [Setting.Tail, Setting.Code, h.1, h'.1, ht.var]
  . refine .pure ?_
    rintro ⟨⟨⟨_, ht⟩, h⟩, h'⟩
    simp +decide [Setting.Tail, Setting.Code, h.1, h'.1, ht.var]
  . refine .pure ?_
    rintro ⟨⟨⟨_, ht⟩, h⟩, h'⟩
    simp +decide [Setting.Tail, Setting.Code, h.1, h'.1, ht.var]
  . exact .fail (by simp)

theorem Sound.typeOperand (hE : Sound S E) (h : S.Fits n) :
    Writes S pre (typeOperand E n) S.Part := by
  unfold Lower.typeOperand
  split
  . refine yields_globalName.andThen ?_
    rintro _ ⟨text, rfl⟩
    exact .pure fun _ => by simp +decide
  . exact (hE.expr h.some).mono id fun _ h => h.1

theorem Sound.typeText (hE : Sound S E) (h : S.Fits n) : Writes S pre (typeText E n) S.Tail := by
  unfold Lower.typeText
  refine yields_isWithName.andThen fun isWith _ => ?_
  split
  . refine .string fun text => ?_
    refine (writes_fallbackCell h).bind fun c _ => ?_
    refine .pure ?_
    rintro ⟨_, hc⟩
    simp +decide [Setting.Tail, Setting.Code, hc.1]
  . refine (hE.typeOperand h).bind fun v _ => ?_
    refine .pure ?_
    rintro ⟨_, hv⟩
    simp +decide [Setting.Tail, Setting.Code, hv]

theorem Sound.delete (hE : Sound S E) {arg : Node} (h : S.Fits arg) :
    Writes S pre (delete E n arg) S.Tail := by
  unfold Lower.delete
  apply Meets.function
  dsimp only
  split
  . split
    . exact .fail (by simp)
    . refine yields_globalName.andThen ?_
      rintro _ ⟨text, rfl⟩
      exact .pure fun _ => by simp +decide [Setting.Tail, Setting.Code]
  . split
    . split
      . exact .fail (by simp)
      . refine (hE.expr (h.part? _ rfl)).bind fun obj _ => ?_
        refine (hE.propertyKey h).bind fun key _ => ?_
        refine (writes_pairInOrder obj key).bindOf (fun h => ⟨h.1.2.1, h.2⟩) fun r _ => ?_
        refine .pure ?_
        rintro ⟨_, hpre, hobj, hkey⟩
        refine .comma hpre.steps ?_
        simp +decide [Setting.Tail, Setting.Code, hobj, hkey]
    . split
      . exact .fail (by simp)
      . refine yields_isWithName.andThen fun isWith _ => ?_
        split
        . refine .string fun text => ?_
          refine (writes_fallbackCell h).bind fun c _ => ?_
          refine .pure ?_
          rintro ⟨_, hc⟩
          simp +decide [Setting.Tail, Setting.Code, hc.1]
        . exact .pure fun _ => by simp [Setting.Tail, Setting.Code]
    . refine (hE.discard h).bind fun d _ => ?_
      refine .pure ?_
      rintro ⟨_, hd⟩
      refine .after ?_ hd.1.step
      simp [Setting.Tail, Setting.Code]

theorem Sound.unary (hE : Sound S E) (h : S.Fits n) (hn : n.kind ≠ .taggedTemplate) :
    Writes S pre (unary E n) S.Tail := by
  have harg : S.FitsOption (n.part? .argument) := h.own fun _ => hn
  unfold Lower.unary
  dsimp only
  split
  . exact hE.typeText harg.getD
  . refine (hE.discard harg.getD).bind fun d _ => ?_
    refine .pure ?_
    rintro ⟨_, hd⟩
    refine .after ?_ hd.1.step
    simp [Setting.Tail, Setting.Code]
  . exact hE.delete harg.getD
  . refine (hE.expr harg).bind fun v _ => ?_
    refine (writes_readableForm v).bindOf (fun h => h.2.1) ?_
    rintro ⟨set, v⟩ _
    rcases hview : numberView v with ⟨test, x⟩
    dsimp only
    split
    . refine .pure ?_
      rintro ⟨_, hset, hv⟩
      refine .after ?_ hset
      have hp := hview ▸ part_numberView hv.1
      refine tail_preferFast hp.1 ?_ ?_ <;> simp +decide [Setting.Tail, Setting.Code, hp.2, hv.1]
    . refine .pure ?_
      rintro ⟨_, hset, hv⟩
      refine .after ?_ hset
      have hslow : S.Part (.callEnv Engine.toNumber [v]) := by simp +decide [hv.1]
      have hp := tail_preferFast_self hv.1 hslow
      rwa [hview] at hp
    . refine .pure ?_
      rintro ⟨_, hset, hv⟩
      refine .after ?_ hset
      have hp := hview ▸ part_numberView hv.1
      refine tail_preferFast hp.1 ?_ ?_ <;> simp +decide [Setting.Tail, Setting.Code, hp.2, hv.1]
    . exact .fail (by simp)

/-! Comparisons -/

theorem tail_numbers (op : String) (hx : S.Part x) (hy : S.Part y) :
    S.Tail (.binary op (numberView x).2 (numberView y).2) := by
  refine ⟨⟨⟨(part_numberView hx).2, (part_numberView hy).2⟩, ?_⟩, rfl⟩
  rw [C.Expr.isPlain, isOwnVar_numberView]
  rfl

theorem writes_equal {fn : String} (hfn : Engine.isOrdinary fn && C.Expr.isQuiet fn)
    (x y : C.Expr) :
    Writes S (S.Part x ∧ S.Part y) (equal fn x y) S.Tail := by
  unfold equal
  refine (writes_readablePair x y).bindOf id ?_
  rintro ⟨pre, x, y⟩ _
  refine .pure ?_
  rintro ⟨_, hpre, hx, hy⟩
  refine .comma hpre.steps ?_
  refine tail_preferFast ?_ (tail_numbers "==" hx hy) ⟨Setting.rules_allows hfn, by simp [hx, hy]⟩
  exact C.Expr.step_and.2 ⟨(part_numberView hx).1, (part_numberView hy).1⟩

theorem Sound.typeComparison (hE : Sound S E) {left right : Node} (hl : S.Fits left)
    (hr : S.Fits right) :
    Writes S pre (typeComparison? E left right) fun r => ∀ e, r = some e → S.Tail e := by
  unfold typeComparison?
  split
  . exact .pure fun _ => nofun
  . next operator text hsides =>
    have hop : S.Fits operator ∧ operator.kind ≠ .taggedTemplate := by
      have hside : (operator = right ∨ operator = left) ∧ operator.kind ≠ .taggedTemplate := by
        grind [typeofSides, Node.kind, Label.kind]
      rcases hside with ⟨rfl | rfl, hkind⟩
      . exact ⟨hr, hkind⟩
      . exact ⟨hl, hkind⟩
    dsimp only
    split
    . exact .pure fun _ => by simp
    . split
      . exact .pure fun _ => by simp
      . refine yields_isWithName.andThen fun isWith _ => ?_
        split
        . exact .pure fun _ => by simp
        . refine (hE.typeOperand (hop.1.own fun _ => hop.2).getD).bind fun v _ => ?_
          refine .string fun t => ?_
          refine .pure ?_
          rintro ⟨_, hv⟩
          rintro _ ⟨⟩
          simp +decide [Setting.Tail, Setting.Code, hv]

theorem Sound.equality (hE : Sound S E) (isStrict : Bool) {left right : Node} (hl : S.Fits left)
    (hr : S.Fits right) : Writes S pre (equality E isStrict left right) S.Tail := by
  have hbits {pre : Prop} {v : Value} {m : Node} (hm : S.Fits m) :
      Writes S pre (do return bitsEqual (← E.expr (some m)) v) S.Tail := by
    refine (hE.expr hm.some).bind fun e _ => ?_
    refine .pure ?_
    rintro ⟨_, he⟩
    simp [Setting.Tail, Setting.Code, bitsEqual, he.1]
  have hnullish {pre : Prop} {m : Node} (hm : S.Fits m) :
      Writes S pre (do return .call Engine.isNullish [← E.expr (some m)]) S.Tail := by
    refine (hE.expr hm.some).bind fun e _ => ?_
    refine .pure ?_
    rintro ⟨_, he⟩
    simp +decide [Setting.Tail, Setting.Code, he.1]
  have hequal {pre : Prop} {fn : String} (hfn : Engine.isOrdinary fn && C.Expr.isQuiet fn) :
    Writes S pre (do
      let a ← E.expr (some left)
      equal fn a (← E.expr (some right))) S.Tail := by
    refine (hE.expr hl.some).bind fun a _ => ?_
    refine (hE.expr hr.some).bind fun b _ => ?_
    exact (writes_equal hfn a b).mono (fun h => ⟨h.1.2.1, h.2.1⟩) fun _ => id
  unfold Lower.equality
  refine (hE.typeComparison hl hr).bind fun r _ => ?_
  split
  . exact .pure fun h => h.2 _ rfl
  . split
    . split
      . exact hbits hl
      . exact hbits hr
      . exact hequal (by decide)
    . split
      . exact hnullish hl
      . split
        . exact hnullish hr
        . exact hequal (by decide)

theorem Sound.compare (hE : Sound S E) (h : S.Fits n) :
    Writes S pre (compare? E n) fun r => ∀ e, r = some e → S.Tail e := by
  have hsides {pre : Prop} (isStrict : Bool) : Writes S pre
      (Lower.equality E isStrict ((n.part? .left).getD default) ((n.part? .right).getD default))
      S.Tail := hE.equality isStrict (h.part? _ rfl).getD (h.part? _ rfl).getD
  have hnot {pre : Prop} (isStrict : Bool) : Writes S pre (do
      return some (.not (← Lower.equality E isStrict ((n.part? .left).getD default)
        ((n.part? .right).getD default)))) fun r => ∀ e, r = some e → S.Tail e := by
    refine (hsides isStrict).bind fun e _ => ?_
    refine .pure ?_
    rintro ⟨_, he⟩
    rintro _ ⟨⟩
    simp [Setting.Tail, Setting.Code, he.part, he.1.2]
  have hpair {pre : Prop} (call : C.Expr → C.Expr → C.Expr)
      (hcall : ∀ x y, S.Part x → S.Part y → S.Tail (call x y)) : Writes S pre (do
      let a ← E.expr (n.part? .left)
      let r ← pairInOrder a (← E.expr (n.part? .right))
      return some (.comma (r.1 ++ [call r.2.1 r.2.2]))) fun r => ∀ e, r = some e → S.Tail e := by
    refine (hE.expr (h.part? _ rfl)).bind fun a _ => ?_
    refine (hE.expr (h.part? _ rfl)).bind fun b _ => ?_
    refine (writes_pairInOrder a b).bindOf (fun h => ⟨h.1.2.1, h.2.1⟩) fun r _ => ?_
    refine .pure ?_
    rintro ⟨_, hpre, hx, hy⟩
    rintro _ ⟨⟩
    exact .comma hpre.steps (hcall _ _ hx hy)
  unfold compare?
  dsimp only
  split
  . exact (hsides true).map fun e he => by rintro _ ⟨⟩; exact he
  . exact hnot true
  . exact (hsides false).map fun e he => by rintro _ ⟨⟩; exact he
  . exact hnot false
  . apply hpair fun x y => .callEnv Engine.instanceOf [x, y]
    intro x y hx hy
    simp +decide [Setting.Tail, Setting.Code, hx, hy]
  . apply hpair fun x y => .callEnv Engine.hasProperty [y, x]
    intro x y hx hy
    simp +decide [Setting.Tail, Setting.Code, hx, hy]
  . split
    . exact .pure fun _ => by simp
    . refine (hE.expr (h.part? _ rfl)).bind fun a _ => ?_
      refine (hE.expr (h.part? _ rfl)).bind fun b _ => ?_
      refine (writes_readablePair a b).bindOf (fun h => ⟨h.1.2.1, h.2.1⟩) ?_
      rintro ⟨pre, x, y⟩ _
      refine .pure ?_
      rintro ⟨_, hpre, hx, hy⟩
      rintro _ ⟨⟩
      refine .comma hpre.steps (tail_preferFast ?_ (tail_numbers _ hx hy)
        (by simp +decide [hx, hy]))
      exact C.Expr.step_and.2 ⟨(part_numberView hx).1, (part_numberView hy).1⟩

theorem code_truthOf (h : S.Code e) : S.Code (truthOf e) := by
  unfold truthOf
  split
  . next test yes no =>
    have htest : S.Part test := h.1.1
    split
    . next heq =>
      simp only [Bool.and_eq_true, beq_iff_eq] at heq
      obtain ⟨rfl, rfl⟩ := heq
      refine ⟨htest, ?_⟩
      simpa using h.2
    . simp +decide [Setting.Code, htest]
  . simp +decide [Setting.Code, h.1]

theorem Sound.binary (hE : Sound S E) (h : S.Fits n) : Writes S pre (binary E n) S.Tail := by
  unfold Lower.binary
  refine (hE.compare h).bind fun r _ => ?_
  split
  . next test =>
    refine .pure ?_
    rintro ⟨_, htest⟩
    have := htest test rfl
    simp [Setting.Tail, Setting.Code, this.part, this.1.2]
  . refine (hE.expr (h.part? _ rfl)).bind fun a _ => ?_
    refine (hE.expr (h.part? _ rfl)).bind fun b _ => ?_
    exact (writes_arith n _ a b).mono (fun h => ⟨h.1.2.1, h.2.1⟩) fun _ => id

theorem code_comma {l : List C.Expr} (h : ∀ e ∈ l, S.Code e) (hl : l ≠ []) : S.Code (.comma l) := by
  constructor
  . obtain ⟨e, he⟩ := List.exists_mem_of_ne_nil l hl
    exact Setting.part_comma (fun e he => (h e he).1.step) fun _ => ⟨e, he, (h e he).1⟩
  . exact C.Expr.isPlain_comma fun e he => (h e he).2

theorem fits_nullishOperand {op : String} {m : Node} {l : Literal} (h : S.Fits n)
    (hm : nullishOperand? op n = some (m, l)) : S.Fits m := by
  have : n.part? .left = some m ∨ n.part? .right = some m := by
    unfold nullishOperand? at hm
    grind
  rcases this with hp | hp
  . exact h.part? .left rfl m hp
  . exact h.part? .right rfl m hp

theorem fits_bothNullish {b : Bindings} {m : Node} {negated : Bool} (h : S.Fits n)
    (hm : bothNullish? b n = some (m, negated)) : S.Fits m := by
  simp only [bothNullish?, Option.bind_eq_bind, Option.bind_eq_some_iff] at hm
  obtain ⟨⟨op, neg⟩, -, ⟨x, k⟩, ⟨left, hleft, hx⟩, ⟨y, l⟩, -, hm⟩ := hm
  have : m = x := by
    dsimp only at hm
    split at hm
    . split at hm
      . cases hm
        rfl
      . cases hm
    . cases hm
  rw [this]
  exact fits_nullishOperand (h.part? .left rfl left hleft) hx

theorem Sound.testOf (hE : Sound S E) {value : Node → Lower C.Expr}
    (hvalue : ∀ {pre : Prop}, Writes S pre (value n) S.Code) (h : S.Fits n) :
    Writes S pre (testOf E value n) S.Code := by
  have htruth {pre : Prop} : Writes S pre (do return truthOf (← value n)) S.Code := by
    refine hvalue.bind fun v _ => ?_
    exact .pure fun h => code_truthOf h.2
  unfold Lower.testOf
  split
  . split
    . exact .pure fun _ => by simp [Setting.Code]
    . exact htruth
  . next hl =>
    refine (hE.test (h.argument (congrArg Label.kind hl) rfl)).bind fun t _ => ?_
    refine .pure ?_
    rintro ⟨_, ht⟩
    simp [Setting.Code, ht.1, ht.2]
  . apply Meets.bindings
    split
    . next x negated hboth =>
      refine (hE.expr (fits_bothNullish h hboth).some).bind fun e _ => ?_
      refine .pure ?_
      rintro ⟨_, he⟩
      split <;> simp +decide [Setting.Code, he.1]
    . split
      . refine (hE.test (h.part? _ rfl)).bind fun a _ => ?_
        refine (hE.test (h.part? _ rfl)).bind fun b _ => ?_
        refine .pure ?_
        rintro ⟨⟨_, ha⟩, hb⟩
        refine ⟨⟨ha.1, hb.1⟩, ?_⟩
        rw [C.Expr.isPlain, C.Expr.isOwnVar_of_isPlain ha.2]
        rfl
      . exact htruth
  . refine (hE.compare h).bind fun r _ => ?_
    split
    . exact .pure fun h => (h.2 _ rfl).1
    . exact htruth
  . refine (hE.discards fun c hc => h.item c (List.dropLast_subset _ hc)).bind fun pre _ => ?_
    refine (hE.test ?_).bind fun last _ => ?_
    . intro c hc
      exact h.item c (List.mem_of_getLast? hc)
    . refine .pure ?_
      rintro ⟨⟨_, hpre⟩, hlast⟩
      exact code_comma (List.forall_mem_append.2 ⟨hpre, by simpa using hlast⟩) (by simp)
  . exact htruth

end ScriptC.Lower
