import ScriptC.Proofs.Flow.Leaving

/-!
The writers of statements lay the code of the statements they are given.
-/

namespace ScriptC.Lower

open C

def laidAs (S : Setting) (E : Eval) (X : List Exit) (T : List Target) (item : Item) : Form Unit :=
  fun P m m' _ c => Laid S E ⟨X, T, P⟩ m.last m'.last item c ∧ Flagged m' c

abbrev LaysItem (S : Setting) (E : Eval) (X : List Exit) (T : List Target) (L : List String)
    (act : Lower Unit) (item : Item) : Prop :=
  Lays S X T L act (fun _ => T) (fun _ => []) (fun _ => True) (laidAs S E X T item)

structure LaysUpTo (S : Setting) (E : Eval) (h : Nat) (below : Below) : Prop where
  node : ∀ {c : Node} {X T L}, c.height ≤ h → S.Fits c →
    LaysItem S E X T L (below c) (.statement L c)
  default : ∀ {X T}, LaysHere S X T [] (below default) fun _ _ _ _ c => c = []

structure Setting.Low (S : Setting) (h : Nat) (n : Node) : Prop where
  height : n.height ≤ h
  fits : S.Fits n

variable {S : Setting} {E : Eval} {X : List Exit} {T : List Target} {L : List String} {h : Nat}
  {below : Below} {n : Node} {t : Target}

theorem Setting.Low.fitsPart (hn : S.Low h n) {r : Role} (hr : (r == .argument) = false) :
    S.FitsOption (n.part? r) :=
  hn.fits.part? r hr

theorem Setting.Low.part? (hn : S.Low (h + 1) n) {r : Role} {c : Node} (hc : n.part? r = some c)
    (hr : (r == .argument) = false) : S.Low h c where
  height := Nat.le_of_lt_succ
    (Nat.lt_of_lt_of_le (Node.height_lt (Node.holds_of_part? hc)) hn.height)
  fits := hn.fitsPart hr c hc

theorem Setting.Low.items (hn : S.Low h n) : ∀ c ∈ n.items, S.Low h c :=
  fun c hc => ⟨Nat.le_trans (Nat.le_of_lt (Node.height_lt (Node.holds_of_mem_items hc))) hn.height,
    hn.fits.item c hc⟩

theorem Setting.Low.item (hn : S.Low (h + 1) n) : ∀ c ∈ n.items, S.Low h c :=
  fun c hc => ⟨Nat.le_of_lt_succ
    (Nat.lt_of_lt_of_le (Node.height_lt (Node.holds_of_mem_items hc)) hn.height), hn.fits.item c hc⟩

/-! The codes of expressions do not depend on what is known beforehand. -/

theorem Sound.writesExpr (hE : Sound S E) {o : Option Node} (ho : S.FitsOption o) :
    Writes S True (E.expr o) S.Code :=
  hE.expr ho

theorem Sound.writesTest (hE : Sound S E) {o : Option Node} (ho : S.FitsOption o) :
    Writes S True (E.test o) S.Code :=
  hE.test ho

theorem Sound.writesDiscard (hE : Sound S E) (hn : S.Fits n) : Writes S True (E.discard n) S.Code :=
  hE.discard hn

/-! Lists and blocks -/

theorem LaysUpTo.option (hb : LaysUpTo S E h below) {o : Option Node}
    (ho : ∀ c, o = some c → S.Low h c) :
    LaysItem S E X T [] (belowOption below o) (.option o) := by
  cases o with
  | none => exact .pure trivial fun _ _ => ⟨.absent (Nat.le_refl _), .of_eq_nil rfl⟩
  | some n =>
    have hn := ho n rfl
    refine (hb.node hn.height hn.fits).mono ?_
    rintro P m m' _ c - - ⟨hc, hflag⟩
    exact ⟨.present hc, hflag⟩

theorem LaysUpTo.statements (hb : LaysUpTo S E h below) {list : List Node}
    (hlist : ∀ c ∈ list, S.Low h c) :
    LaysItem S E X T [] (statements below list) (.list list) := by
  induction list with
  | nil => exact .pure trivial fun _ _ => ⟨.nil (Nat.le_refl _), .of_eq_nil rfl⟩
  | cons n rest ih =>
    rw [List.forall_mem_cons] at hlist
    refine (hb.node hlist.1.height hlist.1.fits).bind fun _ _ => (ih hlist.2).mono ?_
    rintro P m m' _ c - - ⟨hrest, hflag⟩ m₀ c₀ ⟨hn, hflag₀⟩ - hle
    exact ⟨.cons hn hrest, (hflag₀.mono hle).append hflag⟩

theorem LaysUpTo.blockOf (hb : LaysUpTo S E h below)
    (hitems : n.kind = .block → ∀ c ∈ n.items, S.Low h c) (hn : n.kind ≠ .block → S.Low h n) :
    Lays S X T [] (blockOf below n) (fun _ => T) (fun _ => []) (IsBlock S) fun P m m' st c =>
      c = [] ∧ Laid S E ⟨X, T, P⟩ m.last m'.last (.block n) [st.core] ∧ Flagged m' [st.core] := by
  unfold Lower.blockOf
  by_cases hk : n.kind = .block
  . rw [if_pos (by simpa using hk)]
    refine (lays_block (F := laidAs S E X T (.list n.items)) ?_).mono ?_
    . refine (Lays.leaf (yields_declareOpened n)).bind fun _ _ =>
        (hb.statements (hitems hk)).mono ?_
      rintro P m m' _ c - - ⟨hc, hflag⟩ m₀ c₀ ⟨rfl, -⟩ hle -
      exact ⟨.widen hc hle.last (Nat.le_refl _), hflag⟩
    . rintro P m m' _ c - ⟨decls, body, rfl, hdecls⟩ ⟨rfl, hbody⟩
      obtain ⟨hc, hflag⟩ := hbody decls body rfl
      exact ⟨rfl, .items hk hdecls hc, hflag.block⟩
  . rw [if_neg (by simpa using hk)]
    have hn := hn hk
    refine (lays_block (hb.node hn.height hn.fits)).mono ?_
    rintro P m m' _ c - ⟨decls, body, rfl, hdecls⟩ ⟨rfl, hbody⟩
    obtain ⟨hc, hflag⟩ := hbody decls body rfl
    exact ⟨rfl, .own hk hdecls hc, hflag.block⟩

theorem LaysUpTo.blockOption (hb : LaysUpTo S E h below) {o : Option Node}
    (ho : ∀ c, o = some c → S.Low h c) :
    Lays S X T [] (blockOption below o) (fun _ => T) (fun _ => [])
      (fun st => Stmt.coreList [st] = [st.core]) fun P m m' st c =>
        c = [] ∧ Laid S E ⟨X, T, P⟩ m.last m'.last (.arm o) [st.core] ∧ Flagged m' [st.core] := by
  cases o with
  | none => exact .pure rfl fun _ _ => ⟨rfl, .noArm (Nat.le_refl _), .of_eq_nil rfl⟩
  | some n =>
    have hn := ho n rfl
    refine ((hb.blockOf (fun _ => hn.items) fun _ => hn).mono ?_).weakenYield ?_
    . rintro P m m' st c - - ⟨rfl, hc, hflag⟩
      exact ⟨rfl, .arm hc, hflag⟩
    . rintro _ ⟨decls, body, rfl, -⟩
      rfl

/-! Rows of expressions -/

section Rows

open scoped C.Expr

theorem Sound.declaratorCode (hE : Sound S E) (binds : BindingKind) (hn : S.Fits n) :
    Writes S True (declaratorCode E binds n) S.Step := by
  unfold Lower.declaratorCode
  dsimp only
  split
  . next init hinit =>
    have hinit : S.FitsOption (some init) := hinit ▸ hn.part? _ rfl
    split
    . refine (hE.expr hinit).bind fun v _ => ?_
      exact (hE.destructureOption v _ (hn.part? _ rfl)).mono (fun h => h.2.1) fun _ h => h.part.step
    . refine writes_temp.bind fun t _ => ?_
      refine (hE.expr hinit).bind fun v _ => ?_
      refine (hE.destructureOption _ _ (hn.part? _ rfl)).bindOf (fun h => h.1.2.part)
        fun x _ => .pure ?_
      rintro ⟨⟨⟨-, ht⟩, hv⟩, hx⟩
      exact (Setting.part_pair (by simp [ht.part, ht.targets, hv.1]) hx.part).step
  . split
    . exact (hE.destructureOption _ _ (hn.part? _ rfl)).mono (fun _ => .inl rfl) fun _
        h => h.part.step
    . exact .pure fun _ => .inl rfl

theorem Sound.lays_declarators (hE : Sound S E) (binds : BindingKind) {list : List Node}
    (hlist : ∀ c ∈ list, S.Fits c) :
    LaysHere S X T L (declarators E binds list) fun _ m m' _ c => m.last ≤ m'.last ∧
      ∃ codes, List.Forall₂ (fun d x => Given S (Lower.declaratorCode E binds d) x) list codes ∧
        c = codes.flatMap effectCode := by
  induction list with
  | nil => exact .pure trivial fun _ _ => ⟨Nat.le_refl _, [], .nil, rfl⟩
  | cons d rest ih =>
    rw [List.forall_mem_cons] at hlist
    refine (Lays.leaf (hE.declaratorCode binds hlist.1)).bind fun x _ => ?_
    refine (lays_effect x).bind fun _ _ => (ih hlist.2).mono ?_
    rintro P m m' _ c hle - ⟨-, codes, hcodes, rfl⟩ m₁ c₁ ⟨rfl, rfl⟩ - - m₀ c₀ ⟨rfl, hx⟩ hle₀ -
    exact ⟨(hle₀.trans hle).last, x :: codes, .cons hx hcodes, by simp⟩

theorem flagged_effects {list : List C.Expr} {m : Marks} : Flagged m (list.flatMap effectCode) := by
  apply Flagged.of_eq_nil
  induction list with
  | nil => rfl
  | cons e rest ih => simp [jumps_effectCode, ih]

theorem writes_storeCode {d : Nat} (hn : S.Fits n) (hd : S.reaches d) :
    Writes S True (storeCode n d) S.Part := by
  unfold storeCode
  refine .bindings ?_
  split
  . exact .fail (by simp)
  . next child hchild =>
    refine (writes_storage hd).bind fun place _ => ?_
    refine (writes_newFunction (hn.suits.site child hchild)).bind fun f _ => .pure ?_
    rintro ⟨⟨-, hplace⟩, hf⟩
    obtain ⟨text, rfl, -, hreads⟩ := hplace.reads hd
    simp [hreads, hf.1.1]

theorem writes_aliasCode {d : Nat} (hn : S.Fits n) (hkind : n.kind = .functionDeclaration)
    (hd : S.reaches d) : Writes S True (aliasCode n d) S.Step := by
  unfold aliasCode
  refine .bindings ?_
  split
  . exact .pure fun _ => .inl rfl
  . next outer houter =>
    have houter := hn.suits.hoisted hkind outer houter
    refine (writes_storage houter).bind fun place _ => ?_
    refine (writes_storage hd).bind fun value _ => .pure ?_
    rintro ⟨⟨-, hplace⟩, hvalue⟩
    obtain ⟨text, rfl, -, hreads⟩ := hplace.reads houter
    obtain ⟨text', rfl, -, hreads'⟩ := hvalue.reads hd
    simp [hreads, hreads']

theorem lays_storeFunction (hn : S.Fits n) (hkind : n.kind = .functionDeclaration) :
    LaysHere S X T L (storeFunction n) fun _ _ _ _ c => Stores S n c := by
  have hd := hn.suits.declared (.inl hkind)
  unfold storeFunction
  refine .bindings ?_
  refine (Lays.leaf (writes_storeCode hn hd)).bind fun x _ => ?_
  refine (lays_effect x).bind fun _ _ => ?_
  refine (Lays.leaf (writes_aliasCode hn hkind hd)).bind fun y _ => ?_
  refine (lays_effect y).mono ?_
  rintro P m m' _ c - - ⟨rfl, rfl⟩ m₁ c₁ ⟨rfl, hy⟩ - - m₂ c₂ ⟨rfl, rfl⟩ - - m₃ c₃ ⟨rfl, hx⟩ - -
  exact ⟨x, y, hx, hy, rfl⟩

theorem Stores.flagged {c : List C.Stmt} {m : Marks} (h : Stores S n c) : Flagged m c := by
  obtain ⟨x, y, -, -, rfl⟩ := h
  exact (flagged_effectCode x).append (flagged_effectCode y)

theorem Sound.classCode (hE : Sound S E) (hn : S.Fits n) (hkind : n.kind = .classDeclaration) :
    Writes S True (classCode E n) S.Part := by
  unfold Lower.classCode
  refine .bindings ?_
  have hd := hn.suits.declared (.inr hkind)
  refine (writes_storage hd).bind fun place _ => ?_
  refine (hE.classValue hn).bind fun value _ => .pure ?_
  rintro ⟨⟨-, hplace⟩, hvalue⟩
  obtain ⟨text, rfl, -, hreads⟩ := hplace.reads hd
  simp [hreads, hvalue.1.1]

end Rows

/-! Branches and loops -/

theorem IsTarget.eq {isLoop isPlain : Bool} (h : IsTarget X L isLoop isPlain t) :
    t = ⟨t.id, L, isLoop, isPlain, X.length⟩ := by
  rw [← h.labels, ← h.isLoop, ← h.isPlain, ← h.depth]

theorem lays_endTarget (ht : t.depth = X.length) :
    Lays S X (t :: T) L (do closeTarget; breakLabel t) (fun _ => T) (fun _ => L) (fun _ => True)
      fun _ m m' _ c => (c = if t.id ∈ m.breaks then [.label t.breakLabel] else []) ∧ m' = m := by
  refine (lays_closeTarget ht).bind fun _ _ => (lays_breakLabel t).mono ?_
  rintro P m m' _ c - - ⟨rfl, rfl⟩ m₀ c₀ ⟨rfl, rfl⟩ - -
  exact ⟨rfl, rfl⟩

-- Code in a block is judged with whatever the block turns out to declare.
theorem lays_emitBlock {act : Lower Unit} {item : Item} (h : LaysHere S X T [] act fun P m m' _ c =>
      (∀ decls, (∀ d ∈ decls, S.Silent d) →
        Laid S E ⟨X, T, P⟩ m.last m'.last item [.block decls c]) ∧ Flagged m' c) :
    LaysItem S E X T [] (do emit [← block act]) item := by
  refine (lays_block h).bind ?_
  rintro _ ⟨decls, body, rfl, hdecls⟩
  refine (lays_emit _).mono ?_
  rintro P m m' _ c - - ⟨rfl, rfl⟩ m₀ c₀ ⟨rfl, hbody⟩ - -
  obtain ⟨hlaid, hflag⟩ := hbody decls body rfl
  exact ⟨hlaid decls hdecls, hflag.block⟩

theorem lays_labelledBlock {act : List String → Lower Unit} {item : Item}
    (h : LaysHere S X T [] (act L) fun P m m' _ c => (∀ decls, (∀ d ∈ decls, S.Silent d) →
      Laid S E ⟨X, T, P⟩ m.last m'.last item [.block decls c]) ∧ Flagged m' c) :
    LaysItem S E X T L (do let labels ← waitingLabels; emit [← block (act labels)]) item := by
  refine lays_waitingLabels.bind ?_
  rintro L rfl
  refine (lays_emitBlock h).mono ?_
  rintro P m m' _ c - - hlaid m₀ c₀ ⟨rfl, rfl⟩ - -
  exact hlaid

theorem lays_emitLoop {act : Target → Lower Unit}
    {G : (Nat → Pending) → Nat → Nat → List C.Stmt → Prop}
    (h : ∀ t, IsTarget X L true true t → LaysHere S X (t :: T) [] (act t) fun P m m' _ c =>
      (∀ lo decls stop, lo < t.id → t.id ≤ m.last → (∀ d ∈ decls, S.Silent d) →
        Ends t.breakLabel [.loop decls c] stop → G P lo m'.last (.loop decls c :: stop)) ∧
      Flagged m' c) :
    Lays S X T L (do
        let t ← openTarget true true
        emit [← loop (act t)]
        closeTarget
        breakLabel t) (fun _ => T) (fun _ => []) (fun _ => True) fun P m m' _ c =>
      G P m.last m'.last c ∧ Flagged m' c := by
  refine (lays_openTarget true true).bind fun t ht => ?_
  refine (lays_loop (h t ht)).bind ?_
  rintro _ ⟨decls, body, rfl, hdecls⟩
  refine (lays_emit _).bind fun _ _ => (lays_endTarget ht.depth).mono ?_
  rintro P m m' _ c - - ⟨rfl, rfl⟩ m₂ c₂ ⟨rfl, rfl⟩ - - m₁ c₁ ⟨rfl, hbody⟩ - -
    m₀ c₀ ⟨rfl, hlt, hle⟩ - -
  obtain ⟨hlaid, hflag⟩ := hbody decls body rfl
  have hloop : Flagged m' [.loop decls (Stmt.coreList body)] := hflag.loop
  have hstop := ends_stop (t := t) hloop (.refl _)
  exact ⟨hlaid _ decls _ hlt hle hdecls hstop, hloop.append hstop.flagged⟩

section Loops

variable (hb : LaysUpTo S E h below) (hE : Sound S E) (hn : S.Low (h + 1) n)
include hb hE hn

theorem lays_ifElse (hkind : n.kind = .ifStatement) :
    LaysItem S E X T [] (ifElse E below n) (.statement L n) := by
  refine (Lays.leaf (hE.writesTest (hn.fitsPart rfl))).bind fun x _ => ?_
  refine (hb.blockOption fun _ hc => hn.part? hc rfl).bind fun a _ => ?_
  refine (hb.blockOption fun _ hc => hn.part? hc rfl).bind fun b _ => ?_
  refine (lays_emit _).mono ?_
  rintro P m m' _ c - - ⟨rfl, rfl⟩ m₂ c₂ ⟨rfl, halternate, hflag₂⟩ - hle₂
    m₁ c₁ ⟨rfl, hconsequent, hflag₁⟩ - hle₁ m₀ c₀ ⟨rfl, hx⟩ hle₀ -
  exact ⟨.ifElse hkind hle₀.last hx hconsequent halternate, .branch (hflag₁.mono hle₁) hflag₂⟩

theorem lays_whileLoop (hkind : n.kind = .whileStatement) :
    LaysItem S E X T L (whileLoop E below n) (.statement L n) := by
  refine lays_emitLoop (G := fun P lo hi c => Laid S E ⟨X, T, P⟩ lo hi (.statement L n) c)
    fun t ht => ?_
  refine (Lays.leaf (hE.writesTest (hn.fitsPart rfl))).bind fun x _ => ?_
  refine (lays_leaveUnless x t).bind fun _ _ => ?_
  refine (hb.option fun _ hc => hn.part? hc rfl).bind fun _ _ => ?_
  refine (lays_continueLabel t).mono ?_
  rintro P m m' _ c - - ⟨rfl, rfl⟩ m₂ c₂ ⟨hbody, hflag₂⟩ hle₂ - m₁ c₁ ⟨rfl, hlast₁, hflag₁⟩ - -
    m₀ c₀ ⟨rfl, hx⟩ hle₀ -
  have hskip := ends_skip (t := t) hflag₂ (.refl _)
  refine ⟨fun lo decls stop hlt hle hdecls hstop => ?_,
    (hflag₁.mono hle₂).append (hflag₂.append hskip.flagged)⟩
  simp only [List.nil_append, ← List.append_assoc] at hstop ⊢
  exact .whileLoop hkind ht.eq hlt (Nat.le_trans hle (hlast₁ ▸ hle₀.last)) hx hdecls
    hbody hskip hstop

theorem lays_doLoop (hkind : n.kind = .doWhileStatement) :
    LaysItem S E X T L (doLoop E below n) (.statement L n) := by
  refine lays_emitLoop (G := fun P lo hi c => Laid S E ⟨X, T, P⟩ lo hi (.statement L n) c)
    fun t ht => ?_
  refine (hb.option fun _ hc => hn.part? hc rfl).bind fun _ _ => ?_
  refine (lays_continueLabel t).bind fun _ _ => ?_
  refine (Lays.leaf (hE.writesTest (hn.fitsPart rfl))).bind fun x _ => ?_
  refine (lays_leaveUnless x t).mono ?_
  rintro P m m' _ c hle - ⟨rfl, hlast, hflag⟩ m₂ c₂ ⟨rfl, hx⟩ hle₂ - m₁ c₁ ⟨rfl, rfl⟩ - -
    m₀ c₀ ⟨hbody, hflag₀⟩ - hle₀
  have hskip := ends_skip (t := t) hflag₀ (.refl _)
  refine ⟨fun lo decls stop hlt hid hdecls hstop => ?_,
    (hflag₀.mono hle₀).append (hskip.flagged.append hflag)⟩
  simp only [List.nil_append, ← List.append_assoc] at hstop ⊢
  exact .doLoop hkind ht.eq hlt hid hbody (hle₂.trans hle).last hx hdecls hskip hstop

end Loops

section For

def renewal (name : String) : C.Expr :=
  .set (.var name) (.callEnv Engine.newCell [.var ("*" ++ name)])

def IsEffects (list : List C.Stmt) : Prop :=
  ∃ names : List String, (∀ name ∈ names, ∃ last, CNames.IsName last name) ∧
    list = names.map fun name => .expr (renewal name)

theorem IsEffects.coreList {list : List C.Stmt} (hlist : IsEffects list) :
    Stmt.coreList list = list := by
  obtain ⟨es, -, rfl⟩ := hlist
  induction es with
  | nil => rfl
  | cons e es ih => simpa [Stmt.coreList, Stmt.core] using ih

theorem IsEffects.flagged {list : List C.Stmt} {m : Marks} (hlist : IsEffects list) :
    Flagged m list := by
  obtain ⟨es, -, rfl⟩ := hlist
  apply Flagged.of_eq_nil
  induction es with
  | nil => rfl
  | cons e es ih => simpa [Stmt.jumps_cons, Stmt.escapes] using ih

theorem yields_renewCells (list : List Nat) : Yields S (renewCells list) IsEffects := by
  induction list with
  | nil => exact .pureOf ⟨[], by simp, rfl⟩ fun _ => trivial
  | cons d rest ih =>
    unfold renewCells
    refine .bindings ?_
    split
    . refine (writes_nameOf d).andThen fun name hname => ?_
      refine ih.andThen ?_
      rintro _ ⟨names, hnames, rfl⟩
      exact .pureOf ⟨name :: names, List.forall_mem_cons.2 ⟨hname.1, hnames⟩, rfl⟩ fun _ => trivial
    . exact ih

theorem yields_headCopies (n : Node) : Yields S (headCopies n) IsEffects := by
  unfold headCopies scopeDecls
  refine .bindings ?_
  split
  . exact .pureOf ⟨[], by simp, rfl⟩ fun _ => trivial
  . refine (yields_declareNames _).andThen fun _ _ => ?_
    simp only [bind_assoc, pure_bind]
    exact .bindings (.function (yields_renewCells _))

theorem Sound.lays_forInit (hE : Sound S E) {o : Option Node} (ho : S.FitsOption o) :
    LaysHere S X T L (forInit E o) fun _ _ m' _ c => Begins S E o c ∧ Flagged m' c := by
  cases o with
  | none => exact .pure trivial fun _ _ => ⟨rfl, .of_eq_nil rfl⟩
  | some init =>
    have hinit := ho init rfl
    unfold forInit
    dsimp only
    split
    . next binds hlabel =>
      refine (hE.lays_declarators _ hinit.item).mono ?_
      rintro P m m' _ c - - ⟨-, codes, hcodes, rfl⟩
      refine ⟨?_, flagged_effects⟩
      simp only [Begins, hlabel]
      exact ⟨codes, hcodes, rfl⟩
    . next hlabel =>
      refine (Lays.leaf (hE.writesDiscard hinit)).bind fun x _ => (lays_effect x).mono ?_
      rintro P m m' _ c - - ⟨rfl, rfl⟩ m₀ c₀ ⟨rfl, hx⟩ - -
      refine ⟨?_, flagged_effectCode x⟩
      unfold Begins
      dsimp only
      split
      . next binds hbinds => exact absurd hbinds (hlabel binds)
      . exact ⟨x, hx, rfl⟩

theorem Sound.lays_leaveUnlessOption (hE : Sound S E) {o : Option Node} (ho : S.FitsOption o) :
    LaysHere S X T L (leaveUnlessOption E t o) fun _ _ m' _ c =>
      Continues S E t o c ∧ Flagged m' c := by
  cases o with
  | none => exact .pure trivial fun _ _ => ⟨rfl, .of_eq_nil rfl⟩
  | some test =>
    refine (Lays.leaf (hE.writesTest ho)).bind fun x _ => (lays_leaveUnless x t).mono ?_
    rintro P m m' _ c - - ⟨rfl, -, hflag⟩ m₀ c₀ ⟨rfl, hx⟩ - -
    exact ⟨⟨x, hx, rfl⟩, hflag⟩

theorem Sound.lays_discardOption (hE : Sound S E) {o : Option Node} (ho : S.FitsOption o) :
    LaysHere S X T L (discardOption E o) fun _ _ m' _ c => Updates S E o c ∧ Flagged m' c := by
  cases o with
  | none => exact .pure trivial fun _ _ => ⟨rfl, .of_eq_nil rfl⟩
  | some update =>
    refine (Lays.leaf (hE.writesDiscard (ho update rfl))).bind fun x _ =>
      (lays_effect x).mono ?_
    rintro P m m' _ c - - ⟨rfl, rfl⟩ m₀ c₀ ⟨rfl, hx⟩ - -
    exact ⟨⟨x, hx, rfl⟩, flagged_effectCode x⟩

variable (hb : LaysUpTo S E h below) (hE : Sound S E) (hn : S.Low (h + 1) n)
include hb hE hn

theorem lays_forLoop (hkind : n.kind = .forStatement) :
    LaysItem S E X T L (forLoop E below n) (.statement L n) := by
  refine lays_labelledBlock ?_
  refine (Lays.leaf (yields_headCopies n)).bind fun copies hcopies => ?_
  refine (hE.lays_forInit (hn.fitsPart rfl)).bind fun _ _ => ?_
  refine (lays_emit copies).bind fun _ _ => ?_
  refine (lays_giveLabels L).bind fun _ _ => ?_
  refine (lays_emitLoop (G := fun P lo hi c => ∀ lo' begins decls, lo' ≤ lo →
    Given S (headCopies n) copies → Begins S E (n.part? .init) begins → (∀ d ∈ decls, S.Silent d) →
    Laid S E ⟨X, T, P⟩ lo' hi (.statement L n) [.block decls (begins ++ copies ++ c)])
    fun t ht => ?_).mono ?_
  . refine (hE.lays_leaveUnlessOption (hn.fitsPart rfl)).bind fun _ _ => ?_
    refine (hb.option fun _ hc => hn.part? hc rfl).bind fun _ _ => ?_
    refine (lays_continueLabel t).bind fun _ _ => ?_
    refine (lays_emit copies).bind fun _ _ => ?_
    refine (hE.lays_discardOption (hn.fitsPart rfl)).mono ?_
    rintro P m m' _ c hle - ⟨hupdates, hflag⟩ m₃ c₃ ⟨rfl, rfl⟩ - - m₂ c₂ ⟨rfl, rfl⟩ - -
      m₁ c₁ ⟨hbody, hflag₁⟩ hle₁ - m₀ c₀ ⟨hgoes, hflag₀⟩ hle₀ -
    have hskip := ends_skip (t := t) hflag₁ (.refl _)
    rw [hcopies.coreList]
    refine ⟨fun lo decls stop hlt hid hdecls hstop lo' begins decls' hlo hgiven
      hbegins hdecls' => ?_,
      (hflag₀.mono (hle₁.trans hle)).append
        ((hflag₁.mono hle).append (hskip.flagged.append (hcopies.flagged.append hflag)))⟩
    simp only [← List.append_assoc] at hstop ⊢
    exact .forLoop hkind hgiven hbegins ht.eq (Nat.lt_of_le_of_lt hlo hlt)
      (Nat.le_trans hid hle₀.last) hgoes hbody hle.last hskip hupdates hdecls' hdecls hstop
  . rintro P m m' _ c - - ⟨hlaid, hflag⟩ m₃ c₃ ⟨rfl, rfl⟩ - - m₂ c₂ ⟨rfl, rfl⟩ - -
      m₁ c₁ ⟨hbegins, hflag₁⟩ hle₁ hle₁' m₀ c₀ ⟨rfl, hgiven⟩ hle₀ -
    rw [hcopies.coreList]
    refine ⟨fun decls hdecls => ?_, (hflag₁.mono hle₁').append (hcopies.flagged.append hflag)⟩
    simpa using hlaid _ c₁ decls (hle₀.trans hle₁).last hgiven hbegins hdecls

end For

section Iteration

theorem ite_bind {α β : Type} {p : Prop} [Decidable p] (x y : Lower α) (g : α → Lower β) :
    (if p then x >>= g else y >>= g) = (if p then x else y) >>= g := by
  split <;> rfl

theorem Sound.currentCode (hE : Sound S E) {o : Option Node} (v : C.Expr) (ho : S.FitsOption o) :
    Writes S (S.Part v) (currentCode E o v) S.Step := by
  unfold Lower.currentCode
  split
  . exact .pure fun _ => .inl rfl
  . next l =>
    have hl := ho l rfl
    split
    . refine (hE.destructureOption v _ ?_).mono id fun _ h => h.part.step
      intro c hc
      obtain ⟨d, hd, hc⟩ := Option.bind_eq_some_iff.1 hc
      exact ((hl.item d (List.mem_of_head? hd)).part? .name rfl) c hc
    . exact (hE.destructure v _ hl).mono id fun _ h => h.part.step

theorem lays_iterationEnd (isOf : Bool) (it : C.Expr) (t : Target) :
    LaysHere S X T L (iterationEnd isOf it t) fun _ m m' _ c => m' = m ∧
      c = if t.id ∈ m.breaks then
        .label t.breakLabel :: (if isOf then [.expr (.callEnv Engine.closeIterator [it])] else [])
      else [] := by
  refine .getAt fun w _ => ?_
  by_cases hid : t.id ∈ w.breaks
  . rw [if_pos (by simpa using hid)]
    refine (lays_emit _).bind fun _ _ => ?_
    cases isOf with
    | false =>
      refine .pure trivial ?_
      rintro P m m₀ c ⟨rfl, rfl⟩ - - rfl
      exact ⟨rfl, (if_pos hid).symm⟩
    | true =>
      rw [if_pos rfl]
      refine (lays_effect _).mono ?_
      rintro P m m' _ c - - ⟨rfl, rfl⟩ m₀ c₀ ⟨rfl, rfl⟩ - - rfl
      exact ⟨rfl, (if_pos hid).symm⟩
  . rw [if_neg (by simpa using hid)]
    refine .pure trivial ?_
    rintro P m rfl
    exact ⟨rfl, (if_neg hid).symm⟩

variable (hb : LaysUpTo S E h below) (hE : Sound S E) (hn : S.Low (h + 1) n)
include hb hE hn

def passesForm (S : Setting) (E : Eval) (n : Node) (it : String) (X : List Exit) (T : List Target) :
    Form (String × Target) := fun P m m' r c => ∃ id mid decls y body skip,
  c = [passesCode it r.1 decls y body skip] ∧ r.1 = (Spot.done id).name ∧ m.last < id ∧
  id < r.2.id ∧ r.2.id ≤ mid ∧ Given S (currentCode E (n.part? .left) (.var (it ++ "[2]"))) y ∧
  Laid S E ⟨X, r.2 :: T, P⟩ mid m'.last (.option (n.part? .body)) body ∧
  Ends r.2.continueLabel body skip ∧ (∀ d ∈ decls, S.Silent d) ∧ Flagged m' c

theorem lays_iterationPasses (it : String) (L : List String) :
    Lays S X T [] (iterationPasses E below n (.var it) L) (fun _ => T) (fun _ => [])
      (fun r => IsTarget X L true true r.2) (passesForm S E n it X T) := by
  refine lays_freshName.bind fun id _ => ?_
  refine (lays_giveLabels L).bind fun _ _ => ?_
  refine (lays_openTarget true true).bind fun t ht => ?_
  refine (lays_loop (F := fun P m m' _ c => ∃ mid y body skip,
    c = .branch (.not (.callEnv Engine.nextIterator [.var it]))
      (.goto (Spot.done id).name) .missing ::
      (effectCode y ++ body ++ skip) ∧ m.last ≤ mid ∧
    Given S (currentCode E (n.part? .left) (.var (it ++ "[2]"))) y ∧
    Laid S E ⟨X, t :: T, P⟩ mid m'.last (.option (n.part? .body)) body ∧
    Ends t.continueLabel body skip ∧ Flagged m' c) ?_).bind ?_
  . refine (Lays.leaf (yields_declareOpened n)).bind fun _ _ => ?_
    refine (lays_emit _).bind fun _ _ => ?_
    refine (Lays.leaf (hE.currentCode (.var (it ++ "[2]")) (hn.fitsPart rfl))).bind fun y _ => ?_
    refine (lays_effect y).bind fun _ _ => ?_
    refine (hb.option fun _ hc => hn.part? hc rfl).bind fun _ _ => ?_
    refine (lays_continueLabel t).mono ?_
    rintro P m m' _ c - - ⟨rfl, rfl⟩ m₄ c₄ ⟨hbody, hflag⟩ hle₄ - m₃ c₃ ⟨rfl, rfl⟩ - -
      m₂ c₂ ⟨rfl, hy⟩ hle₂ - m₁ c₁ ⟨rfl, rfl⟩ - - m₀ c₀ ⟨rfl, -⟩ hle₀ -
    have hskip := ends_skip (t := t) hflag (.refl _)
    refine ⟨_, y, c₄, _, ?_, (hle₀.trans hle₂).last, hy, hbody, hskip, ?_⟩
    . simp [Stmt.coreList, Stmt.core, Spot.name]
    . refine .append (.of_eq_nil rfl) (.append ?_ ?_)
      . exact .branch (.goto (p := .done id) (by simp) (by simp)) (.of_eq_nil rfl)
      . exact .append (.of_eq_nil rfl) ((flagged_effectCode y).append (hflag.append hskip.flagged))
  . rintro _ ⟨decls, body, rfl, hdecls⟩
    refine (lays_emit _).bind fun _ _ => ?_
    refine (lays_closeTarget ht.depth).bind fun _ _ => ?_
    refine .pure ht ?_
    rintro P m m₅ c₅ ⟨rfl, rfl⟩ - - m₄ c₄ ⟨rfl, rfl⟩ - - m₃ c₃ ⟨rfl, hbody⟩ - -
      m₂ c₂ ⟨rfl, hlt, hle⟩ - - m₁ c₁ ⟨rfl, rfl⟩ - - m₀ c₀ ⟨rfl, hid, hid'⟩ - -
    obtain ⟨mid, y, b, skip, hcode, hmid, hy, hlaid, hskip, hflag⟩ := hbody decls body rfl
    refine ⟨id, mid, decls, y, b, skip, ?_, rfl, hid, Nat.lt_of_le_of_lt hid' hlt,
      Nat.le_trans hle hmid, hy, hlaid, hskip, hdecls, ?_⟩
    . change [Stmt.loop decls (Stmt.coreList body)] = _
      rw [hcode]
      rfl
    . exact hflag.loop

theorem lays_iterationLoop (hkind : n.kind = .forInStatement ∨ n.kind = .forOfStatement) :
    LaysItem S E X T L (iterationLoop E below n) (.statement L n) := by
  refine lays_labelledBlock ?_
  refine lays_tempIterator.bind ?_
  rintro _ ⟨k, rfl⟩
  refine (Lays.leaf (hE.writesExpr (hn.fitsPart rfl))).bind fun x _ => ?_
  refine (lays_effect _).bind fun _ _ => ?_
  -- Whether the iterator has to be closed does not depend on the exits of `finally` blocks.
  generalize hX : (Scene.iterating ⟨X, T, fun _ => {}⟩ n (temporaryName "it" k)).exits = X'
  have hscene P : Scene.iterating ⟨X, T, P⟩ n (temporaryName "it" k) = ⟨X', T, P⟩ := by
    rw [← hX, Scene.iterating, Scene.iterating]
  have hpasses : Lays S X T []
      (if n.kind == .forOfStatement then
        withExit (.iterator (C.Expr.var (temporaryName "it" k)).render)
          (iterationPasses E below n (.var (temporaryName "it" k)) L)
      else iterationPasses E below n (.var (temporaryName "it" k)) L)
      (fun _ => T) (fun _ => []) (fun r => IsTarget X' L true true r.2)
      (passesForm S E n (temporaryName "it" k) X' T) := by
    rw [← hX, Scene.iterating]
    by_cases hof : n.kind = .forOfStatement
    . simp only [hof, beq_self_eq_true, if_true]
      exact lays_withExit rfl (lays_iterationPasses hb hE hn _ L)
    . simp only [beq_iff_eq, hof, if_false]
      exact lays_iterationPasses hb hE hn _ L
  dsimp only
  rw [ite_bind]
  refine hpasses.bind fun r ht => ?_
  refine (lays_iterationEnd _ _ _).bind fun _ _ => ?_
  refine (lays_emit _).mono ?_
  rintro P m m' _ c - - ⟨rfl, rfl⟩ m₅ c₅ ⟨rfl, rfl⟩ - -
    m₄ c₄ ⟨id, mid, decls, y, body, skip, rfl, hdone, hid, hid', hmid, hy, hlaid, hskip, hdecls,
      hflag⟩ hle₄ - m₃ c₃ ⟨rfl, rfl⟩ - - m₂ c₂ ⟨rfl, hx⟩ hle₂ - m₁ c₁ ⟨rfl, hk⟩ hle₁ -
  obtain ⟨hlt, hle⟩ := hk k rfl
  have hstop := ends_stop (t := r.2) hflag (.refl _)
  refine ⟨fun decls' hdecls' => ?_, ?_⟩
  . have hlaid : Laid S E ((Scene.iterating ⟨X, T, P⟩ n (temporaryName "it" k)).opening r.2) mid
        m'.last (.option (n.part? .body)) body := hscene P ▸ hlaid
    have ht : IsTarget (Scene.iterating ⟨X, T, P⟩ n (temporaryName "it" k)).exits L true true r.2 :=
      hscene P ▸ ht
    have hiteration := Laid.iteration hkind rfl hdone hlt hx
      (Nat.lt_of_le_of_lt (Nat.le_trans hle hle₂.last) hid) hid' ht.eq hmid hy hlaid hskip hdecls'
      hdecls hstop
    rw [effectCode_callEnv (by split <;> decide)]
    by_cases hused : r.2.id ∈ m'.breaks <;> by_cases hof : n.kind = .forOfStatement <;>
      simpa [hused, hof, Stmt.coreList, Stmt.core] using hiteration
  . refine .append (.of_eq_nil rfl) (.append (.of_eq_nil rfl) ?_)
    refine (flagged_effectCode _).append (hflag.append (.append (.of_eq_nil ?_) (.of_eq_nil rfl)))
    by_cases hused : r.2.id ∈ m'.breaks <;> by_cases hof : n.kind = .forOfStatement <;>
      simp [hused, hof, Stmt.jumps_cons, Stmt.escapes]

end Iteration

section Switch

theorem lays_caseFunctions {list : List Node} (hlist : ∀ c ∈ list, S.Fits c) :
    LaysHere S X T L (caseFunctions list) fun _ _ m' _ c => (∃ functions,
      List.Forall₂ (Stores S) (list.filter fun m => m.kind == .functionDeclaration) functions ∧
        c = functions.flatten) ∧ Flagged m' c := by
  induction list with
  | nil => exact .pure trivial fun _ _ => ⟨⟨[], .nil, rfl⟩, .of_eq_nil rfl⟩
  | cons n rest ih =>
    rw [List.forall_mem_cons] at hlist
    unfold caseFunctions
    by_cases hk : n.kind = .functionDeclaration
    . rw [if_pos (by simpa using hk)]
      refine (lays_storeFunction hlist.1 hk).bind fun _ _ => (ih hlist.2).mono ?_
      rintro P m m' _ c - - ⟨⟨functions, hfunctions, rfl⟩, hflag⟩ m₀ c₀ hstores - -
      refine ⟨⟨c₀ :: functions, ?_, rfl⟩, hstores.flagged.append hflag⟩
      rw [List.filter_cons_of_pos (by simpa using hk)]
      exact .cons hstores hfunctions
    . rw [if_neg (by simpa using hk)]
      refine (ih hlist.2).mono ?_
      rintro P m m' _ c - - ⟨⟨functions, hfunctions, rfl⟩, hflag⟩
      refine ⟨⟨functions, ?_, rfl⟩, hflag⟩
      rwa [List.filter_cons_of_neg (by simpa using hk)]

theorem Sound.lays_caseTests (hE : Sound S E) (id : Nat) (d : C.Expr) {list : List Node}
    (hlist : ∀ c ∈ list, S.Fits c) (i : Nat) (dflt : Option String) :
    Lays S X T L (caseTests E id d i list dflt) (fun _ => T) (fun _ => L)
      (fun out => ∀ l, out = some l → dflt = some l ∨ ∃ j, l = (Spot.case id j).name)
      fun _ _ m' out c => Tests S E id d i list dflt out c ∧ Flagged m' c := by
  induction list generalizing i dflt with
  | nil => exact .pure (fun l h => .inl h) fun _ _ => ⟨.nil, .of_eq_nil rfl⟩
  | cons n rest ih =>
    rw [List.forall_mem_cons] at hlist
    unfold caseTests
    split
    . next htest =>
      refine ((ih hlist.2 (i + 1) _).mono ?_).weakenYield ?_
      . rintro P m m' out c - - ⟨hc, hflag⟩
        exact ⟨.default htest hc, hflag⟩
      . intro out hout l hl
        rcases hout l hl with h | h
        . cases h
          exact .inr ⟨i, rfl⟩
        . exact .inr h
    . next m htest =>
      refine (Lays.leaf (hE.writesExpr (htest ▸ hlist.1.part? _ rfl))).bind fun v _ => ?_
      refine (Lays.leaf (writes_equal (by decide) d v)).bind fun x _ => ?_
      refine (lays_emit _).bind fun _ _ => (ih hlist.2 (i + 1) dflt).mono ?_
      rintro P m m' out c - - ⟨hc, hflag⟩ m₂ c₂ ⟨rfl, rfl⟩ - - m₁ c₁ ⟨rfl, hx⟩ - -
        m₀ c₀ ⟨rfl, hv⟩ - -
      refine ⟨.test htest hv hx hc, ?_⟩
      exact .append (.of_eq_nil rfl) (.append (.of_eq_nil rfl) (.append
        (.branch (.goto (p := .case id i) (by simp) (by simp)) (.of_eq_nil rfl)) hflag))

theorem LaysUpTo.caseBodies (hb : LaysUpTo S E h below) (id : Nat) {list : List Node}
    (hlist : ∀ c ∈ list, S.Low h c) (i : Nat) :
    LaysItem S E X T [] (caseBodies below id i list) (.cases id i list) := by
  induction list generalizing i with
  | nil => exact .pure trivial fun _ _ => ⟨.noCase (Nat.le_refl _), .of_eq_nil rfl⟩
  | cons n rest ih =>
    rw [List.forall_mem_cons] at hlist
    refine (lays_emit _).bind fun _ _ => ?_
    refine (hb.statements fun c hc => hlist.1.items c (List.mem_of_mem_filter hc)).bind fun _ _ =>
      (ih hlist.2 (i + 1)).mono ?_
    rintro P m m' _ c - - ⟨hrest, hflag⟩ m₁ c₁ ⟨hbody, hflag₁⟩ - hle m₀ c₀ ⟨rfl, rfl⟩ - -
    exact ⟨.case (a := c₁) (b := c) hbody hrest, .append (.of_eq_nil rfl)
      ((hflag₁.mono hle).append hflag)⟩

variable (hb : LaysUpTo S E h below) (hE : Sound S E) (hn : S.Low (h + 1) n)
include hb hE hn

theorem lays_switchCases (hkind : n.kind = .switchStatement) :
    LaysItem S E X T L (switchCases E below n) (.statement L n) := by
  refine lays_labelledBlock ?_
  refine (lays_tempOf _ (by decide)).bind ?_
  rintro _ ⟨d, rfl⟩
  refine (Lays.leaf (hE.writesExpr (hn.fitsPart rfl))).bind fun x _ => ?_
  refine (lays_effect _).bind fun _ _ => ?_
  refine (Lays.leaf (yields_declareOpened n)).bind fun _ _ => ?_
  refine (lays_caseFunctions ?_).bind fun _ _ => ?_
  . intro c hc
    obtain ⟨m, hm, hc⟩ := List.mem_flatMap.1 hc
    exact ((hn.item m hm).items c hc).fits
  refine (lays_giveLabels L).bind fun _ _ => ?_
  refine (lays_openTarget false true).bind fun t ht => ?_
  refine lays_freshName.bind fun id _ => ?_
  refine (hE.lays_caseTests id _ (fun c hc => (hn.item c hc).fits) 0 none).bind fun dflt hdflt => ?_
  have hbodies : Lays S X (t :: T) [] (do caseBodies below id 0 n.items; closeTarget; breakLabel t)
      (fun _ => T) (fun _ => []) (fun _ => True) fun P m m' _ c => ∃ bodies,
        c = bodies ++ (if t.id ∈ m'.breaks then [.label t.breakLabel] else []) ∧
        Laid S E ⟨X, t :: T, P⟩ m.last m'.last (.cases id 0 n.items) bodies ∧
        Flagged m' bodies := by
    refine (hb.caseBodies id hn.item 0).bind fun _ _ => (lays_endTarget ht.depth).mono ?_
    rintro P m m' _ c - - ⟨rfl, rfl⟩ m₀ c₀ ⟨hlaid, hflag⟩ - -
    exact ⟨c₀, rfl, hlaid, hflag⟩
  refine Lays.mono (F := fun P m m' _ c => ∃ bodies stop,
    c = .goto (dflt.getD t.breakLabel) :: (bodies ++ stop) ∧
    Laid S E ⟨X, t :: T, P⟩ m.last m'.last (.cases id 0 n.items) bodies ∧
    Ends t.breakLabel (.goto (dflt.getD t.breakLabel) :: bodies) stop ∧ Flagged m' c) ?_ ?_
  . cases dflt with
    | some l =>
      obtain ⟨j, rfl⟩ := (hdflt l rfl).resolve_left (by simp)
      refine (lays_emit _).bind fun _ _ => hbodies.mono ?_
      rintro P m m' _ c - - ⟨bodies, rfl, hlaid, hflag⟩ m₀ c₀ ⟨rfl, rfl⟩ - -
      have hall : Flagged m' (.goto (Spot.case id j).name :: bodies) :=
        .cons (.goto (by simp) (by simp)) hflag
      have hstop := ends_stop (t := t) hall (.refl _)
      exact ⟨bodies, _, rfl, hlaid, hstop, hall.append hstop.flagged⟩
    | none =>
      refine (lays_jumpToEnd t).bind ?_
      rintro _ rfl
      refine (lays_emit _).bind fun _ _ => hbodies.mono ?_
      rintro P m m' _ c hle - ⟨bodies, rfl, hlaid, hflag⟩ m₁ c₁ ⟨rfl, rfl⟩ - -
        m₀ c₀ ⟨rfl, hlast, hid⟩ - -
      have hgoto : Flagged m' [.goto t.breakLabel] := .goto (p := .stop t.id) (by
        rintro _ ⟨⟩
        exact hle.breaks hid) (by simp)
      have hall : Flagged m' (.goto t.breakLabel :: bodies) := .cons hgoto hflag
      have hstop := ends_stop (t := t) hall (.refl _)
      exact ⟨bodies, _, rfl, hlast ▸ hlaid, hstop, hall.append hstop.flagged⟩
  . rintro P m m' _ c hle - ⟨bodies, stop, rfl, hlaid, hstop, hflag⟩ m₈ c₈ ⟨htests, hflag₈⟩ hle₈ -
      m₇ c₇ ⟨rfl, hid, hid'⟩ - - m₆ c₆ ⟨rfl, ht₁, ht₂⟩ - - m₅ c₅ ⟨rfl, rfl⟩ - -
      m₄ c₄ ⟨⟨functions, hfunctions, rfl⟩, hflag₄⟩ hle₄ hle₄' m₃ c₃ ⟨rfl, -⟩ hle₃ -
      m₂ c₂ ⟨rfl, rfl⟩ - - m₁ c₁ ⟨rfl, hx⟩ hle₁ - m₀ c₀ ⟨rfl, hd⟩ - -
    obtain ⟨hlt, hd⟩ := hd d rfl
    refine ⟨fun decls hdecls => ?_, ?_⟩
    . simpa using Laid.switch (K := ⟨X, T, P⟩) hkind hlt hx hfunctions
        (Nat.lt_of_le_of_lt (Nat.le_trans hd (hle₁.trans (hle₃.trans hle₄)).last) ht₁) ht.eq
        (Nat.lt_of_le_of_lt ht₂ hid) (Nat.le_trans hid' hle₈.last) htests hlaid hdecls hstop
    . simp only [List.nil_append]
      exact .append (flagged_effectCode _)
        (.append (hflag₄.mono hle₄') (.append (hflag₈.mono hle) hflag))

end Switch

section Labels

theorem lays_jumpStatement (name : String) (continues : Bool)
    (hlabel : n.label = if continues then .continueStatement name else .breakStatement name) :
    LaysItem S E X T [] (jumpStatement n name continues) (.statement L n) := by
  refine .get fun w hw => ?_
  obtain rfl := hw.targets
  refine (lays_targetFor n name continues _).bind fun t ht => ?_
  refine (lays_jump (admits_of_findTarget? ht)).mono ?_
  rintro P m m' _ c hle - ⟨hjump, hflag, -⟩ m₀ c₀ ⟨rfl, rfl⟩ - -
  exact ⟨.jump hlabel hle.last ht hjump, hflag⟩

theorem LaysUpTo.labelled (hb : LaysUpTo S E h below) (hn : S.Low (h + 1) n)
    (hkind : n.kind = .labeled) :
    LaysItem S E X T L (labelled below n) (.statement L n) := by
  refine (lays_addLabel n.name).bind fun _ _ => ?_
  dsimp only
  cases hbody : n.part? .body with
  | none =>
    rw [if_neg (by simp [takesLabels, Node.kind]; decide)]
    refine (lays_openTarget false false).bind fun t ht => ?_
    refine hb.default.bind fun _ _ => (lays_endTarget ht.depth).mono ?_
    rintro P m m' _ c hle - ⟨rfl, rfl⟩ m₂ c₂ rfl hle₂ - m₁ c₁ ⟨rfl, hlt, hle₁⟩ - - m₀
      c₀ ⟨rfl, rfl⟩ - -
    have hstop := ends_stop (t := t) (m := m') (c := []) (.of_eq_nil rfl) (.refl _)
    refine ⟨?_, hstop.flagged⟩
    refine .target hkind (by rw [hbody]; rfl) ht.eq hlt hle₁ ?_ hstop
    rw [hbody]
    exact .absent hle₂.last
  | some m =>
    have hm := hn.part? hbody rfl
    rw [Option.getD_some]
    by_cases htakes : takesLabels m = true
    . rw [if_pos htakes]
      refine (hb.node hm.height hm.fits).mono ?_
      rintro P m m' _ c - - ⟨hlaid, hflag⟩ m₀ c₀ ⟨rfl, rfl⟩ - -
      exact ⟨.labelled hkind hbody htakes hlaid, hflag⟩
    . rw [if_neg htakes]
      refine (lays_openTarget false false).bind fun t ht => ?_
      refine (hb.node hm.height hm.fits).bind fun _ _ => (lays_endTarget ht.depth).mono ?_
      rintro P m m' _ c - - ⟨rfl, rfl⟩ m₂ c₂ ⟨hlaid, hflag⟩ - - m₁ c₁ ⟨rfl, hlt, hle⟩ - -
        m₀ c₀ ⟨rfl, rfl⟩ - -
      have hstop := ends_stop (t := t) hflag (.refl _)
      refine ⟨.target (c := c₂) hkind ?_ ht.eq hlt hle ?_ hstop, hflag.append hstop.flagged⟩
      . simpa [hbody] using htakes
      . rw [hbody]
        exact .present hlaid

end Labels

section Regions

open scoped C.Expr in
theorem Sound.caughtCode (hE : Sound S E) (caught : C.Expr) (hn : S.Fits n) :
    Writes S (S.Part caught) (caughtCode E n caught) S.Part := by
  unfold Lower.caughtCode
  split
  . exact .pure id
  . next param hparam =>
    have hparam := hn.part? .caught rfl param hparam
    split
    . exact (hE.destructure caught _ hparam).mono id fun _ h => h.part
    . refine writes_temp.bind fun t _ => ?_
      refine (hE.destructure _ _ hparam).bindOf (fun h => h.2.part) fun x _ => .pure ?_
      rintro ⟨⟨hcaught, ht⟩, hx⟩
      exact Setting.part_pair (by simp [ht.part, ht.targets, hcaught]) hx.part

variable (hb : LaysUpTo S E h below) (hE : Sound S E)
include hb hE

theorem lays_withBlock (hn : S.Low (h + 1) n) (hkind : n.kind = .withStatement) :
    LaysItem S E X T [] (withBlock E below n) (.statement L n) := by
  refine (Lays.leaf (hE.writesExpr (hn.fitsPart rfl))).bind fun x _ => ?_
  refine (lays_effect _).bind fun _ _ => ?_
  refine (lays_withExit rfl (hb.blockOption fun _ hc => hn.part? hc rfl)).bind fun st hst => ?_
  refine (lays_emit _).bind fun _ _ => (lays_effect _).mono ?_
  rintro P m m' _ c - - ⟨rfl, rfl⟩ m₃ c₃ ⟨rfl, rfl⟩ - - m₂ c₂ ⟨rfl, hbody, hflag⟩ - -
    m₁ c₁ ⟨rfl, rfl⟩ - - m₀ c₀ ⟨rfl, hx⟩ hle₀ -
  rw [hst]
  exact ⟨.withBlock hkind hle₀.last hx hbody, .append (.of_eq_nil rfl)
    ((flagged_effectCode _).append (.append (.of_eq_nil rfl)
      (hflag.append (flagged_effectCode _))))⟩

theorem lays_handlerBlock (hn : S.Low h n) (caught : C.Expr) :
    Lays S X T [] (handlerBlock E below n caught) (fun _ => T) (fun _ => []) (IsBlock S)
      fun P m m' st c => c = [] ∧ ∃ decls x body mid, st.core = .block decls
        (effectCode x ++ body) ∧
        (∀ d ∈ decls, S.Silent d) ∧ m.last ≤ mid ∧ Given S (caughtCode E n caught) x ∧
        Laid S E ⟨X, T, P⟩ mid m'.last (.list (((n.part? .body).map (·.items)).getD [])) body ∧
        Flagged m' [st.core] := by
  refine (lays_block (F := fun P m m' _ c => ∃ x body mid, c = effectCode x ++ body ∧
    m.last ≤ mid ∧ Given S (caughtCode E n caught) x ∧
    Laid S E ⟨X, T, P⟩ mid m'.last (.list (((n.part? .body).map (·.items)).getD [])) body ∧
    Flagged m' c) ?_).mono ?_
  . refine (Lays.leaf (yields_declareOpened n)).bind fun _ _ => ?_
    refine (Lays.leaf (hE.caughtCode caught hn.fits)).bind fun x _ => ?_
    refine (lays_effect x).bind fun _ _ => (hb.statements ?_).mono ?_
    . cases hbody : n.part? .body with
      | none => simp
      | some body =>
        have hfits := hn.fitsPart rfl body hbody
        have hheight := Node.height_lt (Node.holds_of_part? hbody)
        exact Setting.Low.items ⟨Nat.le_trans (Nat.le_of_lt hheight) hn.height, hfits⟩
    . rintro P m m' _ c - - ⟨hlaid, hflag⟩ m₂ c₂ ⟨rfl, rfl⟩ - - m₁ c₁ ⟨rfl, hx⟩ hle₁ -
        m₀ c₀ ⟨rfl, -⟩ hle₀ -
      exact ⟨x, c, _, rfl, (hle₀.trans hle₁).last, hx, hlaid, (flagged_effectCode x).append hflag⟩
  . rintro P m m' _ c - ⟨decls, body, rfl, hdecls⟩ ⟨rfl, hbody⟩
    obtain ⟨x, b, mid, hcode, hmid, hx, hlaid, hflag⟩ := hbody decls body rfl
    refine ⟨rfl, decls, x, b, mid, ?_, hdecls, hmid, hx, hlaid, hflag.block⟩
    rw [← hcode]
    rfl

theorem lays_catching (hn : S.Low (h + 1) n) :
    LaysItem S E X T [] (catching E below n) (.catching n) := by
  unfold Lower.catching
  split
  . next hnone =>
    refine (hb.option fun _ hc => hn.part? hc rfl).mono ?_
    rintro P m m' _ c - - ⟨hlaid, hflag⟩
    exact ⟨.noHandler hnone hlaid, hflag⟩
  . next handler hhandler =>
    refine lays_emitBlock ?_
    refine (lays_tempOf _ (by decide)).bind ?_
    rintro _ ⟨k, rfl⟩
    refine (lays_withExit rfl (lays_block (F := fun P m m' _ c => ∃ b,
      c = b ++ [unregister (temporaryName "try" k)] ∧
      Laid S E (Scene.within ⟨X, T, P⟩ (.handler (temporaryName "try" k))) m.last m'.last
        (.option (n.part? .block)) b ∧ Flagged m' c) ?_)).bind ?_
    . refine (hb.option fun _ hc => hn.part? hc rfl).bind fun _ _ => (lays_emit _).mono ?_
      rintro P m m' _ c - - ⟨rfl, rfl⟩ m₀ c₀ ⟨hlaid, hflag⟩ - -
      exact ⟨c₀, rfl, hlaid, hflag.append (.of_eq_nil rfl)⟩
    . rintro _ ⟨decls, b, rfl, hdecls⟩
      refine (lays_handlerBlock hb hE (hn.part? hhandler rfl) _).bind fun st _ =>
        (lays_emit _).mono ?_
      rintro P m m' _ c - - ⟨rfl, rfl⟩
        m₂ c₂ ⟨rfl, decls', x, body, mid, hst, hdecls', hmid, hx, hbody, hflag⟩ - -
        m₁ c₁ ⟨rfl, hprotected⟩ - hle₁ m₀ c₀ ⟨rfl, hk⟩ - -
      obtain ⟨hlt, hle⟩ := hk k rfl
      obtain ⟨b', hcode, hlaid, hflag'⟩ := hprotected decls b rfl
      refine ⟨fun decls'' hdecls'' => ?_, .branch (hflag'.mono hle₁).block hflag⟩
      have hcatching := Laid.handler (K := ⟨X, T, P⟩) hhandler rfl hlt hle hlaid hmid hx hbody
        hdecls'' hdecls hdecls'
      rw [← hcode, ← hst] at hcatching
      exact hcatching

end Regions

section Finally

variable {f : Finalizer} {p : Pending} {w : Writer}

theorem lays_resumeJumps (i : Nat) {list : List (Target × Bool)}
    (hlist : ∀ j ∈ list, Admits T j.1 j.2) :
    LaysHere S X T L (resumeJumps f i list) fun P m m' _ c =>
      ResumesJumps S ⟨X, T, P⟩ f i list c ∧ Flagged m' c ∧ m'.last = m.last := by
  induction list generalizing i with
  | nil => exact .pure trivial fun _ _ => ⟨.nil, .of_eq_nil rfl, rfl⟩
  | cons j rest ih =>
    obtain ⟨t, continues⟩ := j
    rw [List.forall_mem_cons] at hlist
    refine (lays_block (lays_jump hlist.1)).bind ?_
    rintro _ ⟨decls, body, rfl, hdecls⟩
    refine (lays_emit _).bind fun _ _ => (ih (i + 1) hlist.2).mono ?_
    rintro P m m' _ c hle - ⟨hrest, hflag, hlast⟩ m₁ c₁ ⟨rfl, rfl⟩ - - m₀ c₀ ⟨rfl, hbody⟩ - -
    obtain ⟨hjump, hflag₀, hlast₀⟩ := hbody decls body rfl
    refine ⟨.cons hlist.1 hdecls hjump hrest, ?_, hlast.trans hlast₀⟩
    exact .append (.of_eq_nil rfl)
      (.append (.branch (hflag₀.mono hle).block (.of_eq_nil rfl)) hflag)

theorem lays_resumeReturn (hS : S.Whole) :
    LaysHere S X T L (resumeReturn f p) fun P m m' _ c =>
      ResumesReturn S ⟨X, T, P⟩ m.last m'.last f p.returns c ∧ Flagged m' c := by
  unfold resumeReturn
  cases p.returns with
  | false => exact .pure trivial fun _ _ => ⟨.none (Nat.le_refl _), .of_eq_nil rfl⟩
  | true =>
    rw [if_pos rfl]
    refine (lays_block (lays_returnFrom hS _)).bind ?_
    rintro _ ⟨decls, body, rfl, hdecls⟩
    refine (lays_emit _).mono ?_
    rintro P m m' _ c - - ⟨rfl, rfl⟩ m₀ c₀ ⟨rfl, hbody⟩ - -
    obtain ⟨hreturns, hflag⟩ := hbody decls body rfl
    exact ⟨.some hdecls hreturns, .branch hflag.block (.of_eq_nil rfl)⟩

theorem laysFrom_resume (hS : S.Whole) (hw : Stage S X T L w) (hold : f.id ≤ w.lastName)
    (hid : f.id ∉ finalizerIds X) (hp : w.pendingAt f.id = p)
    (hjumps : ∀ j ∈ p.jumps, Admits T j.1 j.2) :
    LaysFrom S X w (resume f) (fun _ => T) (fun _ => L) (fun _ => True) fun P m m' _ c =>
      ∃ returns jumps, c = .branch (isLeft f Pending.throwCode)
          (.expr (.callEnv Engine.throwValue [.var f.value])) .missing :: (returns ++ jumps) ∧
        ResumesReturn S ⟨X, T, P⟩ m.last m'.last f p.returns returns ∧
        ResumesJumps S ⟨X, T, P⟩ f 0 p.jumps jumps ∧ Flagged m' c := by
  refine Lays.bindFrom hw (lays_emit _) fun _ v c hrun hstep hv _ => ?_
  have hpending : v.pendingAt f.id = p := ((hstep.pending f.id hold).2 hid).trans hp
  have hrest : Lays S X T L (do resumeReturn f p; resumeJumps f 0 p.jumps) (fun _ => T)
      (fun _ => L) (fun _ => True) fun P m m' _ c => ∃ returns jumps, c = returns ++ jumps ∧
        ResumesReturn S ⟨X, T, P⟩ m.last m'.last f p.returns returns ∧
        ResumesJumps S ⟨X, T, P⟩ f 0 p.jumps jumps ∧ Flagged m' c := by
    refine (lays_resumeReturn hS).bind fun _ _ => (lays_resumeJumps 0 hjumps).mono ?_
    rintro P m m' _ c - - ⟨hjumps, hflag, hlast⟩ m₀ c₀ ⟨hreturns, hflag₀⟩ - hle
    exact ⟨c₀, c, rfl, hlast ▸ hreturns, hjumps, (hflag₀.mono hle).append hflag⟩
  obtain ⟨hruns, hfails⟩ := hrest v hv
  constructor
  . intro a w' hr
    obtain ⟨q, u, hq, hr⟩ := runs_bind.1 hr
    obtain ⟨rfl, rfl⟩ := runs_pendingOf.1 hq
    rw [hpending] at hr
    obtain ⟨hw', -, d, hstep', hF⟩ := hruns a w' hr
    refine ⟨hw', trivial, d, hstep', ?_⟩
    intro hfinal P hP
    rintro ⟨rfl, hmarks⟩ -
    obtain ⟨returns, jumps, rfl, hreturns, hjumps, hflag⟩ := hF hfinal P hP
    rw [hmarks] at hreturns
    exact ⟨returns, jumps, rfl, hreturns, hjumps, .append (.of_eq_nil rfl) hflag⟩
  . intro g hg
    rcases fails_bind.1 hg with hg | ⟨q, u, hq, hg⟩
    . exact absurd hg not_fails_pendingOf
    . obtain ⟨rfl, rfl⟩ := runs_pendingOf.1 hq
      rw [hpending] at hg
      exact hfails g hg

def finalCode (f : Finalizer) (final : C.Stmt) (returns jumps : List C.Stmt) : List C.Stmt :=
  .label f.label :: final :: .branch (isLeft f Pending.throwCode)
    (.expr (.callEnv Engine.throwValue [.var f.value])) .missing :: (returns ++ jumps)

def RegionCode (S : Setting) (E : Eval) (K : Scene) (n m : Node) (f : Finalizer) (x : C.Expr)
    (lo hi : Nat) (code : List C.Stmt) : Prop :=
  ∃ p mid mid' c decls final returns jumps,
    code = .branch x (.block decls (c ++ [unregister f.handler])) (catchFor f) ::
      finalCode f final returns jumps ∧ (∀ d ∈ decls, S.Silent d) ∧
    Laid S E (K.finalizing f p) lo mid (.catching n) c ∧ Laid S E K mid mid' (.block m) [final] ∧
    ResumesReturn S K mid' hi f p.returns returns ∧ ResumesJumps S K f 0 p.jumps jumps

variable (hb : LaysUpTo S E h below)
include hb

theorem laysFrom_final (hS : S.Whole) (hn : S.Low h n) (hw : Stage S X T [] w)
    (hold : f.id ≤ w.lastName) (hid : f.id ∉ finalizerIds X) (hp : w.pendingAt f.id = p)
    (hjumps : ∀ j ∈ p.jumps, Admits T j.1 j.2) (x : C.Expr) (a b : C.Stmt) :
    LaysFrom S X w (do
        emit [.branch x a b, .label f.label]
        emit [← blockOf below n]
        resume f) (fun _ => T) (fun _ => []) (fun _ => True) fun P m m' _ c =>
      ∃ final returns jumps mid, c = .branch x a.core b.core :: finalCode f final returns jumps ∧
        Laid S E ⟨X, T, P⟩ m.last mid (.block n) [final] ∧
        ResumesReturn S ⟨X, T, P⟩ mid m'.last f p.returns returns ∧
        ResumesJumps S ⟨X, T, P⟩ f 0 p.jumps jumps ∧
        Flagged m' (finalCode f final returns jumps) := by
  refine Lays.bindFrom hw (lays_emit _) fun _ w₁ c₁ hrun₁ hstep₁ hw₁ _ => ?_
  refine Lays.bindFrom hw₁ (hb.blockOf (fun _ => hn.items) fun _ => hn) fun st w₂ c₂ hrun₂
    hstep₂ hw₂ hst => ?_
  refine Lays.bindFrom hw₂ (lays_emit _) fun _ w₃ c₃ hrun₃ hstep₃ hw₃ _ => ?_
  have hstep := (hstep₁.trans hstep₂).trans hstep₃
  have hresume := laysFrom_resume (f := f) hS hw₃ (Nat.le_trans hold hstep.marks.last) hid
    (((hstep.pending f.id hold).2 hid).trans hp) hjumps
  refine ⟨fun a w' hr => ?_, hresume.2⟩
  obtain ⟨hw', -, d, hstep', hF⟩ := hresume.1 a w' hr
  refine ⟨hw', trivial, d, hstep', ?_⟩
  intro hfinal P hP
  rintro ⟨rfl, hmarks₃⟩ - ⟨rfl, hlaid, hflag⟩ hle ⟨rfl, hmarks₁⟩ -
  obtain ⟨returns, jumps, rfl, hreturns, hjumps, hflag'⟩ := hF hfinal P hP
  obtain ⟨decls, body, rfl, -⟩ := hst
  rw [hmarks₃] at hreturns
  rw [hmarks₁] at hlaid
  refine ⟨_, returns, jumps, _, rfl, hlaid, hreturns, hjumps, ?_⟩
  exact .cons (.of_eq_nil rfl) (.cons (hflag.mono hle) hflag')

variable (hE : Sound S E)
include hE

theorem lays_protected (hn : S.Low (h + 1) n) (name : String) :
    LaysHere S X T [] (do catching E below n; emit [unregister name]) fun P m m' _ c => ∃ d,
      c = d ++ [unregister name] ∧ Laid S E ⟨X, T, P⟩ m.last m'.last (.catching n) d ∧
        Flagged m' c := by
  refine (lays_catching hb hE hn).bind fun _ _ => (lays_emit _).mono ?_
  rintro P m m' _ c - - ⟨rfl, rfl⟩ m₀ c₀ ⟨hlaid, hflag⟩ - -
  exact ⟨c₀, rfl, hlaid, hflag.append (.of_eq_nil rfl)⟩

-- The exits of the `finally` block itself are new here, so the step is one with the block open.
theorem finalizing_region (hS : S.Whole) {m : Node} (hn : S.Low (h + 1) n) (hm : S.Low h m)
    (hw : Stage S X T [] w) (hold : f.id ≤ w.lastName) (hid : f.id ∉ finalizerIds X)
    (hnone : w.pendingAt f.id = {}) (x : C.Expr) {act : Lower Unit}
    (hact : act = do
      let a ← withExit (.finalizer f) (block do
        catching E below n
        emit [unregister f.handler])
      emit [.branch x a (catchFor f), .label f.label]
      emit [← blockOf below m]
      resume f) :
    (∀ a w', Runs S.plan act w a w' → Stage S X T [] w' ∧ ∃ code,
      Step S (.finalizer f :: X) w w' code ∧ (S.final w'.names → ∀ P, Agrees X w' P →
        RegionCode S E ⟨X, T, P⟩ n m f x w.lastName w'.lastName code ∧ Flagged w'.marks code)) ∧
    ∀ g, Fails S.plan act w g → S.faults g := by
  subst hact
  obtain ⟨hruns, hfails⟩ := lays_block (lays_protected hb hE hn f.handler) _
    (hw.finalizing hid hold hnone)
  -- The state behind the region, and the exits that have been noted by then.
  have hbehind : ∀ st v, Runs S.plan (withExit (.finalizer f) (block do
      catching E below n
      emit [unregister f.handler])) w st v → ∃ v', v = { v' with exits := w.exits } ∧
        Runs S.plan (block do
          catching E below n
          emit [unregister f.handler]) { w with exits := .finalizer f :: w.exits } st v' ∧
        Stage S X T [] v ∧ w.lastName ≤ v.lastName ∧
        ∀ j ∈ (v.pendingAt f.id).jumps, Admits T j.1 j.2 := by
    intro st v hv
    obtain ⟨v', hv', rfl⟩ := runs_withExit.1 hv
    obtain ⟨hstage, -, c, hstep, -⟩ := hruns st v' hv'
    refine ⟨v', rfl, hv', ?_, hstep.marks.last, fun j hj => (hstage.routed [] f X rfl j hj).1⟩
    rw [hw.exits]
    exact hstage.without
  constructor
  . intro a w' hr
    obtain ⟨st, v, hv, hr⟩ := runs_bind.1 hr
    obtain ⟨v', rfl, hv', hstage, hlast, hjumps⟩ := hbehind st v hv
    obtain ⟨hstage', ⟨decls, body, rfl, hdecls⟩, c, hstep, hF⟩ := hruns st v' hv'
    obtain ⟨hw', -, d, hstep', hG⟩ := (laysFrom_final hb hS hm hstage (Nat.le_trans hold hlast) hid
      rfl hjumps x _ (catchFor f)).1 a w' hr
    have hstep : Step S (.finalizer f :: X) w { v' with exits := w.exits } c :=
      { hstep with body := hstep.body }
    refine ⟨hw', c ++ d, hstep.trans (hstep'.mono (List.subset_cons_self _ _)), ?_⟩
    intro hfinal P hP
    obtain ⟨final, returns, jumps, mid', rfl, hfinal', hreturns, hjumps', hflag'⟩ := hG hfinal P hP
    have hagrees : Agrees (.finalizer f :: X) v'
        (Function.update P f.id (v'.pendingAt f.id)) := by
      refine List.forall_mem_cons.2 ⟨?_, ?_⟩
      . rw [Function.update_self]
        exact .refl _
      . intro id hmem
        have hne : id ≠ f.id := by
          rintro rfl
          exact hid hmem
        rw [Function.update_of_ne hne]
        exact hP.before hstage.old hstep' id hmem
    obtain ⟨rfl, hbody⟩ := hF (S.final_of_le hstep'.names hfinal) _ hagrees
    obtain ⟨c, hcode, hlaid, hflag⟩ := hbody decls body rfl
    refine ⟨⟨v'.pendingAt f.id, _, mid', c, decls, final, returns, jumps, ?_, hdecls,
      hlaid, hfinal',
      hreturns, hjumps'⟩, ?_⟩
    . rw [← hcode]
      rfl
    . exact .cons (.branch (hflag.mono hstep'.marks).block (.of_eq_nil rfl)) hflag'
  . intro g hg
    rcases fails_bind.1 hg with hg | ⟨st, v, hv, hg⟩
    . exact hfails g (fails_withExit hg)
    . obtain ⟨v', rfl, -, hstage, hlast, hjumps⟩ := hbehind st v hv
      exact (laysFrom_final hb hS hm hstage (Nat.le_trans hold hlast) hid rfl hjumps x st
        (catchFor f)).2 g hg

omit hb hE

theorem not_fails_declareC {plan : Plan} {d : C.Decl} {g : Fault} {decls : List C.Decl}
    {outer : List (List C.Decl)} (hblocks : w.frames.blocks = decls :: outer) :
    ¬Fails plan (declareC d) w g := by
  intro hg
  obtain ⟨e, he⟩ := fails_withFrames hg
  simp [Frames.declare, hblocks, bind, Except.bind, pure, Except.pure] at he

theorem runs_tryHandler {e : C.Expr} {v : Writer} (hw : Stage S X T [] w)
    (hv : Runs S.plan (tempOf Engine.typeTry "try")
      { w with frames := w.frames.push, body := [] } e v) :
    ∃ (k : Nat) (more : List C.Decl) (c : List C.Stmt), e = .var (temporaryName "try" k) ∧
      v.frames.blocks = more :: w.frames.blocks ∧ (∀ d ∈ more, S.Silent d) ∧
      Stage S X T [] v ∧ Step S X { w with frames := w.frames.push, body := [] } v c ∧
      (S.final v.names → c = [] ∧ w.lastName < k ∧ k ≤ v.lastName) := by
  obtain ⟨hstage, ⟨k, rfl⟩, c, hstep, hF⟩ :=
    (lays_tempOf (S := S) Engine.typeTry (by decide : "try" ∈ C.stems) _ hw.inBlock).1 e v hv
  obtain ⟨more, hmore, hadded⟩ := hstep.frames
  refine ⟨k, more, c, rfl, hmore, hadded.silent, hstage, hstep, fun hfinal => ?_⟩
  obtain ⟨hc, hk⟩ := hF hfinal v.pendingAt fun _ _ => .refl _
  exact ⟨hc, hk k rfl⟩

theorem finalizing_block (hb : LaysUpTo S E h below) (hE : Sound S E) (hS : S.Whole)
    {m : Node} (hn : S.Low (h + 1) n) (hm : S.Low h m) {id : Nat} (hw : Stage S X T [] w)
    (hold : id ≤ w.lastName) (hid : id ∉ finalizerIds X) (hnone : w.pendingAt id = {})
    {act : Lower Unit} (hact : act = do
      let handler := (← tempOf Engine.typeTry "try").render
      let f : Finalizer := { id, handler }
      declareC { type := "int", name := f.code, init := .lit "0", isVolatile := true }
      declareC { type := Engine.typeValue, name := f.value, isVolatile := true }
      let isProtected ← withExit (.finalizer f) (block do
        catching E below n
        emit [unregister handler])
      emit [.branch (.not (register handler)) isProtected (catchFor f), .label f.label]
      emit [← blockOf below m]
      resume f) :
    (∀ st w', Runs S.plan (block act) w st w' → Stage S X T [] w' ∧
      Step S (.finalizer ⟨id, ""⟩ :: X) w w' [] ∧ Stmt.coreList [st] = [st.core] ∧
      (S.final w'.names → ∀ P, Agrees X w' P → ∃ (k lo : Nat) (decls : List C.Decl)
        (code : List C.Stmt), st.core = .block decls code ∧ w.lastName < k ∧ k ≤ lo ∧
        RegionCode S E ⟨X, T, P⟩ n m ⟨id, temporaryName "try" k⟩
          (.not (register (temporaryName "try" k))) lo w'.lastName code ∧
        Finalizes S ⟨id, temporaryName "try" k⟩ decls ∧ Flagged w'.marks [st.core])) ∧
    ∀ g, Fails S.plan (block act) w g → S.faults g := by
  have hfront := fun e v₁ => @runs_tryHandler S X T w e v₁ hw
  -- Behind the declarations the region can be opened.
  have hregion : ∀ (k : Nat) more c v₁, v₁.frames.blocks = more :: w.frames.blocks →
      Stage S X T [] v₁ → Step S X { w with frames := w.frames.push, body := [] } v₁ c → _ :=
    fun k more c v₁ hblocks hstage hstep =>
      finalizing_region hb hE (f := ⟨id, temporaryName "try" k⟩) (w := { v₁ with frames :=
        { v₁.frames with blocks := (more ++ ownDecls ⟨id, temporaryName "try" k⟩) ::
          w.frames.blocks } }) hS hn hm
        { hstage with
          ready := ⟨hstage.ready.fn, hstage.ready.stack,
            hstage.ready.names, by simp [hstage.chain], by simp⟩ }
        (Nat.le_trans hold hstep.marks.last) hid
        (((hstep.pending id hold).2 hid).trans hnone)
        (.not (register (temporaryName "try" k))) rfl
  have hinner : ∀ z, Runs S.plan act { w with frames := w.frames.push, body := [] } () z →
      ∃ (k : Nat) (decls : List C.Decl) (c code : List C.Stmt),
        z.frames.blocks = decls :: w.frames.blocks ∧
        Finalizes S ⟨id, temporaryName "try" k⟩ decls ∧ Stage S X T [] z ∧ w.marks.Le z.marks ∧
        w.names.Le z.names ∧ (∀ i ≤ w.lastName, (w.pendingAt i).Le (z.pendingAt i) ∧
          (i ∉ finalizerIds (.finalizer ⟨id, ""⟩ :: X) → z.pendingAt i = w.pendingAt i)) ∧
        Stmt.coreList z.body = c ++ code ∧ (S.final z.names → ∀ P, Agrees X z P →
          c = [] ∧ w.lastName < k ∧ ∃ lo, k ≤ lo ∧
            RegionCode S E ⟨X, T, P⟩ n m ⟨id, temporaryName "try" k⟩
              (.not (register (temporaryName "try" k))) lo z.lastName code ∧
            Flagged z.marks code) := by
    intro z hz
    rw [hact] at hz
    obtain ⟨e, v₁, htemp, hz⟩ := runs_bind.1 hz
    obtain ⟨k, more, c, rfl, hblocks, hsilent, hstage, hstep, hk⟩ := hfront e v₁ htemp
    obtain ⟨_, v₂, hv₂, hz⟩ := runs_bind.1 hz
    obtain ⟨_, _, hblocks₂, rfl⟩ := runs_declareC.1 hv₂
    obtain ⟨rfl, rfl⟩ := List.cons.inj (hblocks.symm.trans hblocks₂)
    obtain ⟨_, v₃, hv₃, hz⟩ := runs_bind.1 hz
    obtain ⟨_, _, hblocks₃, rfl⟩ := runs_declareC.1 hv₃
    obtain ⟨rfl, rfl⟩ := List.cons.inj hblocks₃
    rw [List.append_assoc] at hz
    obtain ⟨hstage', code, hstep', hF⟩ := (hregion k more c v₁ hblocks hstage hstep).1 () z hz
    obtain ⟨more', hmore', hadded'⟩ := hstep'.frames
    refine ⟨k, _, c, code, hmore', ⟨more, more', rfl, hsilent, hadded'.silent⟩, hstage',
      hstep.marks.trans hstep'.marks, hstep.names.trans hstep'.names, ?_, ?_, ?_⟩
    . intro i hi
      have h₁ := hstep.pending i hi
      have h₂ := hstep'.pending i (Nat.le_trans hi hstep.marks.last)
      refine ⟨h₁.1.trans h₂.1, fun hn => (h₂.2 hn).trans (h₁.2 fun hX => hn ?_)⟩
      exact List.mem_cons_of_mem _ hX
    . obtain ⟨list, hlist, rfl⟩ := hstep.body
      obtain ⟨list', hlist', rfl⟩ := hstep'.body
      have hlist : v₁.body = list := hlist
      rw [hlist', Stmt.coreList_append, ← hlist]
    . intro hfinal P hP
      obtain ⟨hc, hlt, hle⟩ := hk (S.final_of_le hstep'.names hfinal)
      obtain ⟨hregion, hflag⟩ := hF hfinal P hP
      exact ⟨hc, hlt, v₁.lastName, hle, hregion, hflag⟩
  constructor
  . intro st w' hr
    obtain ⟨r, v, hr, hst⟩ := runs_bind.1 hr
    obtain ⟨rfl, rfl⟩ := runs_pure.1 hst
    obtain ⟨z, frames, hz, hpop, hbody, rfl⟩ := runs_inBlock.1 hr
    obtain ⟨k, decls, c, code, hblocks, hdecls, hstage, hmarks, hnames, hpending, hcode, hF⟩ :=
      hinner z hz
    rw [Frames.pop, hblocks] at hpop
    injection hpop with hpop
    obtain ⟨hr₁, rfl⟩ := Prod.mk.inj hpop
    refine ⟨?_, ?_, rfl, ?_⟩
    . exact { hstage with
        ready := ⟨hstage.ready.fn, hstage.ready.stack, hstage.ready.names, by simp [hstage.chain],
          hw.ready.frames⟩ }
    . exact ⟨hmarks, hnames, .refl _, hpending, [], by simp, rfl⟩
    . intro hfinal P hP
      obtain ⟨rfl, hlt, lo, hle, hregion, hflag⟩ := hF hfinal P hP
      have hcore : (C.Stmt.block r.1 r.2).core = .block decls (Stmt.coreList z.body) := by
        rw [← hr₁, ← hbody]
        rfl
      rw [hcode] at hcore
      refine ⟨k, lo, decls, code, hcore, hlt, hle, hregion, hdecls, ?_⟩
      rw [hcore]
      exact hflag.block
  . intro g hg
    rcases fails_bind.1 hg with hg | ⟨r, v, -, hg⟩
    . rcases fails_inBlock hg with hg | ⟨z, e, hz, he⟩
      . rw [hact] at hg
        rcases fails_bind.1 hg with hg | ⟨e, v₁, htemp, hg⟩
        . exact (lays_tempOf (S := S) Engine.typeTry (by decide : "try" ∈ C.stems) _
            hw.inBlock).2 g hg
        obtain ⟨k, more, c, rfl, hblocks, hsilent, hstage, hstep, hk⟩ := hfront e v₁ htemp
        rcases fails_bind.1 hg with hg | ⟨_, v₂, hv₂, hg⟩
        . exact absurd hg (not_fails_declareC hblocks)
        obtain ⟨_, _, hblocks₂, rfl⟩ := runs_declareC.1 hv₂
        obtain ⟨rfl, rfl⟩ := List.cons.inj (hblocks.symm.trans hblocks₂)
        rcases fails_bind.1 hg with hg | ⟨_, v₃, hv₃, hg⟩
        . exact absurd hg (not_fails_declareC rfl)
        obtain ⟨_, _, hblocks₃, rfl⟩ := runs_declareC.1 hv₃
        obtain ⟨rfl, rfl⟩ := List.cons.inj hblocks₃
        rw [List.append_assoc] at hg
        exact (hregion k more c v₁ hblocks hstage hstep).2 g hg
      . obtain ⟨k, decls, c, code, hblocks, -⟩ := hinner z hz
        rw [Frames.pop, hblocks] at he
        cases he
    . exact absurd hg not_fails_pure

theorem lays_finalizing (hb : LaysUpTo S E h below) (hE : Sound S E) (hS : S.Whole) {m : Node}
    (hn : S.Low (h + 1) n) (hkind : n.kind = .tryStatement) (hm : n.part? .finalizer = some m) :
    LaysItem S E X T [] (finalizing E below n m) (.statement L n) := by
  intro w hw
  obtain ⟨hfresh, hfreshFails⟩ := lays_freshName w hw
  have hnew : ∀ id v, Runs S.plan freshName w id v → w.lastName < id ∧ id ≤ v.lastName ∧
      id ∉ finalizerIds X ∧ v.pendingAt id = {} := by
    intro id v hv
    simp only [freshName, runs_bind, runs_get, runs_modify, runs_pure] at hv
    obtain ⟨_, _, ⟨rfl, rfl⟩, _, _, rfl, rfl, rfl⟩ := hv
    refine ⟨Nat.lt_succ_self _, Nat.le_refl _, fun hX => ?_, hw.fresh _ (Nat.lt_succ_self _)⟩
    exact absurd (hw.old _ hX) (Nat.not_succ_le_self _)
  constructor
  . intro a w' hr
    obtain ⟨id, v, hv, hr⟩ := runs_bind.1 hr
    obtain ⟨st, v', hst, hr⟩ := runs_bind.1 hr
    obtain ⟨hstage, -, c, hstep, hfreshForm⟩ := hfresh id v hv
    obtain ⟨hlt, hle, hid, hnone⟩ := hnew id v hv
    obtain ⟨hstage', hstep', hcore, hF⟩ :=
      (finalizing_block hb hE hS hn (hn.part? hm rfl) hstage hle hid hnone rfl).1 st v' hst
    obtain ⟨hw', -, d, hstep'', hG⟩ := (lays_emit [st] v' hstage').1 a w' hr
    have hall := ((hstep.mono (List.subset_cons_self id _)).trans hstep').trans
      (hstep''.mono (List.subset_cons_self id _))
    refine ⟨hw', trivial, c ++ [] ++ d, ?_, ?_⟩
    . refine { hall with pending := fun i hi => ⟨(hall.pending i hi).1, fun hX => ?_⟩ }
      refine (hall.pending i hi).2 fun hmem => ?_
      rcases List.mem_cons.1 hmem with rfl | hmem
      . exact absurd hi (Nat.not_le.2 hlt)
      . exact hX hmem
    . intro hfinal P hP
      obtain ⟨rfl, hmarks⟩ := hG hfinal P hP
      have hP' := hP.before hstage'.old hstep''
      obtain ⟨k, lo, decls, code, hst', hk, hlo, ⟨p, mid, mid', c', decls', final,
        returns, jumps, rfl,
        hdecls', hlaid, hfinal', hreturns, hjumps⟩, hdecls, hflag⟩ :=
        hF (S.final_of_le hstep''.names hfinal) P hP'
      obtain ⟨rfl, -⟩ := hfreshForm (S.final_of_le (hstep'.names.trans hstep''.names) hfinal)
        v.pendingAt fun _ _ => .refl _
      rw [List.append_nil, List.nil_append, hcore, hst']
      refine ⟨?_, ?_⟩
      . rw [hmarks]
        exact .tryFinally hkind hm rfl hlt (Nat.lt_of_le_of_lt hle hk) hlo hlaid hfinal' hreturns
          hjumps hdecls hdecls'
      . rw [hmarks, ← hst']
        exact hflag
  . intro g hg
    rcases fails_bind.1 hg with hg | ⟨id, v, hv, hg⟩
    . exact hfreshFails g hg
    obtain ⟨hstage, -, c, hstep, -⟩ := hfresh id v hv
    obtain ⟨hlt, hle, hid, hnone⟩ := hnew id v hv
    rcases fails_bind.1 hg with hg | ⟨st, v', -, hg⟩
    . exact (finalizing_block hb hE hS hn (hn.part? hm rfl) hstage hle hid hnone rfl).2 g hg
    . exact absurd hg not_fails_modify

end Finally

/-! Statements of every kind -/

section Statements

variable (hb : LaysUpTo S E h below) (hE : Sound S E) (hS : S.Whole) (hn : S.Low (h + 1) n)
include hb hE hS hn

theorem lays_tryBlock (hkind : n.kind = .tryStatement) :
    LaysItem S E X T [] (tryBlock E below n) (.statement L n) := by
  unfold tryBlock
  split
  . next hnone =>
    refine (lays_catching hb hE hn).mono ?_
    rintro P m m' _ c - - ⟨hlaid, hflag⟩
    exact ⟨.tryCatch hkind hnone hlaid, hflag⟩
  . next m hm => exact lays_finalizing hb hE hS hn hkind hm

omit hb hE hS hn in
theorem lays_noted {act : Lower Unit} {item : Item} (h : LaysItem S E X T L act item) :
    LaysItem S E X T L (do noteLine n; act) item := by
  refine (lays_noteLine n).bind fun _ _ => h.mono ?_
  rintro P m m' _ c - - ⟨hlaid, hflag⟩ m₀ c₀ ⟨rfl, rfl⟩ - -
  exact ⟨hlaid, hflag⟩

omit hb hE hS hn in
theorem lays_row {α : Type} {x : Lower α} {pre : Prop} {P₀ P : α → Prop} {code : α → C.Expr}
    (hx : Meets S pre x P₀ P) (hrow : ∀ a, Given S x a → Row S E n (effectCode (code a))) :
    LaysItem S E X T [] (do effect (code (← x))) (.statement L n) := by
  refine (Lays.leaf hx).bind fun a _ => (lays_effect _).mono ?_
  rintro P m m' _ c hle - ⟨rfl, rfl⟩ m₀ c₀ ⟨rfl, ha⟩ hle₀ -
  exact ⟨.row hle₀.last (hrow a ha), flagged_effectCode _⟩

-- Labels wait only for statements that take them.
theorem lays_statementOf {L₀ : List String} (htakes : takesLabels n = true → L₀ = L)
    (hnot : takesLabels n = false → L₀ = []) :
    LaysItem S E X T L₀ (statementOf E below n) (.statement L n) := by
  have hkind : ∀ {l : Label}, n.label = l → n.kind = l.kind := fun hl => by rw [Node.kind, hl]
  have htake : ∀ {l : Label}, n.label = l → (l.kind == .labeled || l.kind.isLoop ||
      l.kind == .switchStatement) = true → L₀ = L := fun hl h =>
    htakes (by rw [takesLabels, hkind hl]; exact h)
  have hplain : ∀ {l : Label}, n.label = l → (l.kind == .labeled || l.kind.isLoop ||
      l.kind == .switchStatement) = false → L₀ = [] := fun hl h =>
    hnot (by rw [takesLabels, hkind hl]; exact h)
  have hidle : ∀ {l : Label}, n.label = l → Row S E n [] → L₀ = [] →
      LaysItem S E X T L₀ (pure ()) (.statement L n) := by
    rintro l hl hrow rfl
    exact .pure trivial fun _ _ => ⟨.row (Nat.le_refl _) hrow, .of_eq_nil rfl⟩
  unfold statementOf
  split
  . next hl => exact hidle hl (by simp only [Row, hl]) (hplain hl rfl)
  . next hl => exact hidle hl (by simp only [Row, hl]) (hplain hl rfl)
  . next hl =>
    obtain rfl := hplain hl rfl
    apply lays_noted
    split
    . next e he =>
      refine lays_row (hE.writesDiscard (hn.fitsPart rfl e he)) fun x hx => ?_
      simp only [Row, hl, he]
      exact ⟨x, hx, rfl⟩
    . next he =>
      exact hidle hl (by simp only [Row, hl, he]) rfl
  . next binds hl =>
    obtain rfl := hplain hl rfl
    refine lays_noted ((hE.lays_declarators binds hn.fits.item).mono ?_)
    rintro P m m' _ c - - ⟨hle, codes, hcodes, rfl⟩
    refine ⟨.row hle ?_, flagged_effects⟩
    simp only [Row, hl]
    exact ⟨codes, hcodes, rfl⟩
  . next hl =>
    obtain rfl := hplain hl rfl
    refine (lays_storeFunction hn.fits (hkind hl)).mono ?_
    rintro P m m' _ c hle - hstores
    refine ⟨.row hle.last ?_, hstores.flagged⟩
    simpa only [Row, hl] using hstores
  . next hl =>
    obtain rfl := hplain hl rfl
    apply lays_noted
    refine lays_row (hE.classCode hn.fits (hkind hl)) fun x hx => ?_
    simp only [Row, hl]
    exact ⟨x, hx, rfl⟩
  . next hl =>
    obtain rfl := hplain hl rfl
    refine (hb.blockOf (fun _ => hn.item) fun hk => absurd (hkind hl) hk).bind ?_
    rintro _ ⟨decls, body, rfl, -⟩
    refine (lays_emit _).mono ?_
    rintro P m m' _ c - - ⟨rfl, rfl⟩ m₀ c₀ ⟨rfl, hlaid, hflag⟩ - -
    exact ⟨.block (hkind hl) hlaid, hflag⟩
  . next hl =>
    obtain rfl := hplain hl rfl
    exact lays_noted (lays_ifElse hb hE hn (hkind hl))
  . next hl =>
    obtain rfl := htake hl rfl
    exact lays_noted (lays_whileLoop hb hE hn (hkind hl))
  . next hl =>
    obtain rfl := htake hl rfl
    exact lays_noted (lays_doLoop hb hE hn (hkind hl))
  . next hl =>
    obtain rfl := htake hl rfl
    exact lays_noted (lays_forLoop hb hE hn (hkind hl))
  . next hl =>
    obtain rfl := htake hl rfl
    exact lays_noted (lays_iterationLoop hb hE hn (.inl (hkind hl)))
  . next hl =>
    obtain rfl := htake hl rfl
    exact lays_noted (lays_iterationLoop hb hE hn (.inr (hkind hl)))
  . next hl =>
    obtain rfl := htake hl rfl
    exact lays_noted (lays_switchCases hb hE hn (hkind hl))
  . next hl =>
    obtain rfl := htake hl rfl
    exact hb.labelled hn (hkind hl)
  . next name hl =>
    obtain rfl := hplain hl rfl
    exact lays_noted (lays_jumpStatement name false hl)
  . next name hl =>
    obtain rfl := hplain hl rfl
    exact lays_noted (lays_jumpStatement name true hl)
  . next hl =>
    obtain rfl := hplain hl rfl
    apply lays_noted
    refine (Lays.leaf (hE.writesExpr (hn.fits.argument (hkind hl) rfl))).bind fun x _ =>
      (lays_returnFrom hS x).mono ?_
    rintro P m m' _ c - - ⟨hreturns, hflag⟩ m₀ c₀ ⟨rfl, hx⟩ hle -
    exact ⟨.return_ (hkind hl) hle.last hx hreturns, hflag⟩
  . next hl =>
    obtain rfl := hplain hl rfl
    apply lays_noted
    refine lays_row (hE.writesExpr (hn.fits.argument (hkind hl) rfl)) fun x hx => ?_
    rw [effectCode_callEnv (by decide)]
    simp only [Row, hl]
    exact ⟨x, hx, rfl⟩
  . next hl =>
    obtain rfl := hplain hl rfl
    exact lays_noted (lays_tryBlock hb hE hS hn (hkind hl))
  . next hl =>
    obtain rfl := hplain hl rfl
    exact lays_noted (lays_withBlock hb hE hn (hkind hl))
  . exact .fail (by simp)

end Statements

theorem LaysUpTo.step (hb : LaysUpTo S E h below) (hE : Sound S E) (hS : S.Whole) :
    LaysUpTo S E (h + 1) (statementStep E below) where
  node := by
    intro c X T L hheight hfits
    have hn : S.Low (h + 1) c := ⟨hheight, hfits⟩
    unfold statementStep
    split
    . next htakes =>
      exact lays_statementOf hb hE hS hn (fun _ => rfl) fun h =>
        absurd (h.symm.trans htakes) (by simp)
    . next htakes =>
      refine (lays_giveLabels []).bind fun _ _ =>
        (lays_statementOf (L := L) hb hE hS hn (fun h => absurd h htakes) fun _ => rfl).mono ?_
      rintro P m m' _ c - - ⟨hlaid, hflag⟩ m₀ c₀ ⟨rfl, rfl⟩ - -
      exact ⟨hlaid, hflag⟩
  default := by
    intro X T
    unfold statementStep
    rw [if_neg (by decide)]
    exact (lays_giveLabels []).bind fun _ _ => .fail (by simp)

theorem laysUpTo_unroll (hE : Sound S E) (hS : S.Whole) (depth : Nat) :
    LaysUpTo S E depth (Node.unroll (statementStep E) (fun _ => pure ()) depth) := by
  induction depth with
  | zero =>
    refine ⟨fun {c} _ _ _ hheight => ?_, .pure trivial fun _ _ => rfl⟩
    cases c
    cases hheight
  | succ depth ih => exact ih.step hE hS

theorem laysUpTo_statement (hE : Sound S E) (hS : S.Whole) (h : Nat) :
    LaysUpTo S E h (statement E) where
  node := fun _ hfits => (laysUpTo_unroll hE hS _).node (Nat.le_refl _) hfits
  default := (laysUpTo_unroll hE hS _).default

end ScriptC.Lower
