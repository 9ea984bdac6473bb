import ScriptC.Proofs.Lower.Assign

/-!
Literals, function objects, classes and calls keep to a setting, and so do expressions of all kinds.
-/

namespace ScriptC.Lower

open scoped C.Expr

variable {S : Setting} {pre : Prop} {n : Node} {E : Eval}

theorem writes_literal (value : Literal) : Writes S pre (literal value) S.Code := by
  cases value with
  | string s => exact (yields_string _ _).writes fun _ h => h.code
  | bigint digits => exact (yields_bigint _).writes fun _ h => h.code
  | regexp pattern flags =>
    refine .string fun p => ?_
    refine .string fun f => ?_
    exact .pure fun _ => by simp +decide [Setting.Code]
  | _ => exact .pure fun _ => by simp +decide [Setting.Code]

theorem writes_templateText (text : String) : Writes S pre (templateText text) S.Parts := by
  unfold templateText
  split
  . exact .pure fun _ => trivial
  . refine .string fun t => ?_
    exact .pure fun _ => by simp

theorem Sound.substitution (hE : Sound S E) {subs : List (Option Node)}
    (h : ∀ o ∈ subs, S.FitsOption o) : Meets S pre (substitution E subs)
      (fun r => ∀ o ∈ r.2, S.FitsOption o) fun r => S.Parts r.1 := by
  cases subs with
  | nil => exact .pureOf (by simp) fun _ => trivial
  | cons s rest =>
    rw [List.forall_mem_cons] at h
    refine (hE.expr h.1).bind fun e _ => ?_
    refine .pureOf h.2 ?_
    rintro ⟨_, he⟩
    simp +decide [he.1]

theorem Sound.templateParts (hE : Sound S E) (texts : List String) {subs : List (Option Node)}
    (h : ∀ o ∈ subs, S.FitsOption o) : Writes S pre (templateParts E texts subs) S.Parts := by
  induction texts generalizing pre subs with
  | nil => exact .pure fun _ => trivial
  | cons text texts ih =>
    refine (writes_templateText text).bind fun here _ => ?_
    refine (hE.substitution h).bind fun r hr => ?_
    refine (ih hr).bind fun es _ => ?_
    refine .pure ?_
    rintro ⟨⟨⟨_, hhere⟩, hv⟩, hes⟩
    simp [hhere, hv, hes]

theorem Sound.template (hE : Sound S E) (text : TemplateText) (h : S.Fits n) :
    Writes S pre (template E n text) S.Code := by
  unfold Lower.template
  refine (hE.templateParts _ h.slot).bind fun parts _ => ?_
  have hjoined : Writes S (pre ∧ S.Parts parts) (do
      let r ← inOrder parts
      return .comma (r.1 ++ [.callEnv Engine.concat (.nat r.2.length :: r.2)])) S.Code := by
    refine (writes_inOrder parts).bindOf And.right fun r _ => ?_
    refine .pure ?_
    rintro ⟨_, hr⟩
    refine (Setting.Tail.comma hr.first.steps ?_).1
    simp +decide [Setting.Tail, Setting.Code, hr.values]
  dsimp only
  split
  . exact (yields_string _ _).writes fun _ h => h.code
  . split
    . next hc => exact .pure fun h => ⟨h.2.1, C.Expr.isPlain_of_isConstant hc⟩
    . exact hjoined
  . exact hjoined

theorem Sound.pushElement (hE : Sound S E) (arr : C.Expr) {el : Option Node}
    (h : S.FitsOption el) : Writes S (S.Part arr) (pushElement E arr el) S.Part := by
  cases el with
  | none => exact .pure fun harr => by simp +decide [harr]
  | some n =>
    unfold Lower.pushElement
    dsimp only
    split
    . next hspread =>
      refine (hE.expr ((h n rfl).argument (eq_of_beq hspread) rfl)).bind fun e _ => ?_
      refine .pure ?_
      rintro ⟨harr, he⟩
      simp +decide [harr, he.1]
    . refine (hE.expr h).bind fun e _ => ?_
      refine .pure ?_
      rintro ⟨harr, he⟩
      simp +decide [harr, he.1]

theorem Sound.pushElements (hE : Sound S E) (arr : C.Expr) {list : List (Option Node)}
    (h : ∀ o ∈ list, S.FitsOption o) :
    Writes S (S.Part arr) (pushElements E arr list) S.Parts := by
  induction list with
  | nil => exact .pure fun _ => trivial
  | cons el rest ih =>
    rw [List.forall_mem_cons] at h
    refine (hE.pushElement arr h.1).bindOf id fun e _ => ?_
    refine (ih h.2).bindOf And.left fun es _ => ?_
    refine .pure ?_
    rintro ⟨⟨_, he⟩, hes⟩
    exact ⟨he, hes⟩

def IsFilled (r : List C.Expr × C.Expr) : Prop :=
  IsTemp "tmp" r.2 ∧ ∃ x l, r.1 = .set r.2 x :: l

theorem Sound.spreadArray (hE : Sound S E) {list : List (Option Node)}
    (h : ∀ o ∈ list, S.FitsOption o) :
    Meets S pre (spreadArray E list) IsFilled fun r => S.Parts r.1 ∧ S.Part r.2 := by
  unfold Lower.spreadArray
  refine writes_temp.bind fun t ht => ?_
  refine (hE.pushElements t h).bindOf (fun h => h.2.part) fun pushes _ => ?_
  refine .pureOf ⟨ht, _, _, rfl⟩ ?_
  rintro ⟨⟨_, ht⟩, hp⟩
  simp +decide [hp, ht.part, ht.targets]

theorem Sound.elements (hE : Sound S E) {list : List (Option Node)}
    (h : ∀ o ∈ list, S.FitsOption o) : Writes S pre (elements E list) S.Parts := by
  fun_induction Lower.elements E list generalizing pre with
  | case1 => exact .pure fun _ => trivial
  | case2 rest ih =>
    refine (ih (List.forall_mem_cons.1 h).2).bind fun es _ => ?_
    refine .pure ?_
    rintro ⟨_, hes⟩
    simp [hes]
  | case3 n rest ih =>
    rw [List.forall_mem_cons] at h
    refine (hE.expr h.1).bind fun e _ => ?_
    refine (ih h.2).bind fun es _ => ?_
    refine .pure ?_
    rintro ⟨⟨_, he⟩, hes⟩
    exact ⟨he.1, hes⟩

theorem Sound.array (hE : Sound S E) (h : S.Fits n) : Writes S pre (array E n) S.Tail := by
  unfold Lower.array
  dsimp only
  split
  . refine (hE.spreadArray h.slot).bind ?_
    rintro ⟨build, arr⟩ ⟨⟨i, harr⟩, x, l, hbuild⟩
    dsimp only at harr hbuild
    subst harr hbuild
    refine .pure ?_
    rintro ⟨_, hp⟩
    refine tail_comma_of_two [] l [] rfl rfl ?_
    have hall := C.Expr.steps_append.2 ⟨hp.1.steps, C.Expr.steps_cons.2
      ⟨hp.2.step, C.Expr.steps_nil⟩⟩
    simpa using hall
  . refine (hE.elements h.slot).bind fun es _ => ?_
    refine (writes_inOrder es).bindOf And.right fun r _ => ?_
    refine .pure ?_
    rintro ⟨_, hr⟩
    refine .comma hr.first.steps ?_
    simp +decide [Setting.Tail, Setting.Code, hr.values]

/-! Function objects -/

theorem parts_cells {list : List Nat} {cells : List C.Expr} (hreach : ∀ d ∈ list, S.reaches d)
    (h : List.Forall₂ (IsCell S.bindings S.fn S.Named) list cells) : S.Parts cells := by
  induction h with
  | nil => trivial
  | cons hc _ ih =>
    rw [List.forall_mem_cons] at hreach
    exact ⟨Setting.part_of_isCell hreach.1 hc, ih hreach.2⟩

theorem parts_functionArgs {child : Nat} (h : S.makes child) (name : String) :
    S.Parts (functionArgs (S.bindings.function child) (.lit name)) := by
  have hcode : S.reads (S.bindings.function child).cname := S.reads_function child h
  unfold functionArgs
  cases (S.bindings.function child).newShape <;> simp [hcode]

theorem writes_newFunction {child : Nat} (h : S.makes child) :
    Writes S pre (newFunction child) S.Tail := by
  unfold newFunction
  apply Meets.bindings
  refine .modifyThen (fun w => { Setting.Grows.refl w with }) ?_ ?_
  . exact fun w hw => ⟨hw.fn, hw.stack, hw.names, hw.chain, hw.frames⟩
  refine .string fun name => ?_
  refine (writes_cells (S.reaches_captures child h)).bind fun cells _ => ?_
  have hmade (hc : List.Forall₂ (IsCell S.bindings S.fn S.Named)
      (S.bindings.function child).captures.decls cells) :
      S.Tail (.call Engine.newFunction
        (functionArgs (S.bindings.function child) (.lit name) ++ cells)) := by
    refine ⟨⟨⟨⟨S.allows_function child name cells h hc, fun _ _ => .inl (by decide)⟩, ?_⟩, rfl⟩,
      rfl⟩
    exact C.Expr.allObey_append.2
      ⟨parts_functionArgs h name, parts_cells (S.reaches_captures child h) hc⟩
  dsimp only
  split
  . exact .pure fun hc => hmade hc.2
  . refine .pure fun hc => ⟨⟨⟨?_, ?_⟩, rfl⟩, rfl⟩
    . simp +decide
    . exact ⟨by simp, (hmade hc.2).part, by simp⟩

theorem writes_functionAt (h : S.Fits n) : Writes S pre (functionAt n) S.Tail := by
  unfold functionAt
  apply Meets.bindings
  split
  . next child hchild => exact writes_newFunction (h.suits.site child hchild)
  . exact .fail (by simp)

theorem Sound.definedKey (hE : Sound S E) (h : S.Fits n) :
    Writes S pre (definedKey E n) fun r => S.Part r.1 ∧ S.Step r.2 := by
  unfold Lower.definedKey
  dsimp only
  split
  . refine writes_temp.bind fun t _ => ?_
    refine (hE.expr (h.part? _ rfl)).bind fun k _ => ?_
    refine .pure ?_
    rintro ⟨⟨_, ht⟩, hk⟩
    simp +decide [hk.1, ht.part, ht.targets]
  . refine (yields_keySlot _ _).andThen fun key hkey => ?_
    exact .pure fun _ => ⟨hkey.code.1, .inl rfl⟩

theorem Sound.defineProperty (hE : Sound S E) (obj : C.Expr) (h : S.Fits n) :
    Writes S (S.Part obj) (defineProperty E obj n) S.Steps := by
  unfold Lower.defineProperty
  split
  . next hspread =>
    refine (hE.expr (h.argument (eq_of_beq hspread) rfl)).bind fun e _ => ?_
    refine .pure ?_
    rintro ⟨hobj, he⟩
    simp +decide [hobj, he.1]
  . dsimp only
    split
    . refine (hE.expr (h.part? _ rfl)).bind fun e _ => ?_
      refine .pure ?_
      rintro ⟨hobj, he⟩
      simp +decide [hobj, he.1]
    . refine (hE.definedKey h).bind fun r _ => ?_
      have hmade {pre : Prop} : Writes S pre (functionAt ((n.part? .value).getD default)) S.Tail :=
        writes_functionAt (h.part? _ rfl).getD
      split
      . refine hmade.bind fun f _ => ?_
        refine .pure ?_
        rintro ⟨⟨hobj, hr⟩, hf⟩
        simp +decide [hobj, hr.1, hr.2, hf.part]
      . refine hmade.bind fun f _ => ?_
        refine .pure ?_
        rintro ⟨⟨hobj, hr⟩, hf⟩
        simp +decide [hobj, hr.1, hr.2, hf.part]
      . split
        . refine hmade.bind fun f _ => ?_
          refine .pure ?_
          rintro ⟨⟨hobj, hr⟩, hf⟩
          simp +decide [hobj, hr.1, hr.2, hf.part]
        . refine (hE.expr (h.part? _ rfl)).bind fun e _ => ?_
          refine .pure ?_
          rintro ⟨⟨hobj, hr⟩, he⟩
          simp +decide [hobj, hr.1, hr.2, he.1]

theorem Sound.defineProperties (hE : Sound S E) (obj : C.Expr) {list : List Node}
    (h : ∀ c ∈ list, S.Fits c) :
    Writes S (S.Part obj) (defineProperties E obj list) S.Steps := by
  induction list with
  | nil => exact .pure fun _ => by simp
  | cons p rest ih =>
    rw [List.forall_mem_cons] at h
    refine (hE.defineProperty obj h.1).bindOf id fun here _ => ?_
    refine (ih h.2).bindOf And.left fun es _ => ?_
    refine .pure ?_
    rintro ⟨⟨_, hhere⟩, hes⟩
    exact List.forall_mem_append.2 ⟨hhere, hes⟩

theorem Sound.object (hE : Sound S E) (h : S.Fits n) : Writes S pre (object E n) S.Tail := by
  unfold Lower.object
  apply Meets.read
  dsimp only
  refine (hE.exprs ?_).bind fun values _ => ?_
  . intro o ho
    obtain ⟨p, hp, rfl⟩ := List.mem_map.1 ho
    exact (h.item p (List.mem_of_mem_take hp)).part? _ rfl
  refine (writes_inOrder values).bindOf And.right fun r _ => ?_
  refine writes_temp.bind ?_
  rintro _ ⟨i, rfl⟩
  refine (hE.defineProperties _ fun c hc => h.item c (List.mem_of_mem_drop hc)).bindOf
    (fun h => h.2.part) fun defined _ => ?_
  refine .pure ?_
  rintro ⟨⟨⟨_, hr⟩, ht⟩, hd⟩
  rw [List.append_assoc, List.cons_append]
  refine tail_comma_of_two _ defined [] rfl rfl ?_
  cases S.plan.analysis.shapes.get? n.id <;>
    simp +decide [hr.first.steps, hr.values, hd, ht.var]

/-! Classes -/

theorem writes_memberHome (c : C.Expr) (proto : Option C.Expr) (isStatic : Bool) :
    Writes S (S.Part c ∧ ∀ p, proto = some p → S.Part p) (memberHome c proto isStatic)
      fun r => S.Parts r.1 ∧ S.Part r.2.1 ∧ ∀ p, r.2.2 = some p → S.Part p := by
  unfold memberHome
  split
  . exact .pure fun h => ⟨trivial, h⟩
  . split
    . next p => exact .pure fun h => ⟨trivial, h.2 p rfl, h.2⟩
    . refine writes_temp.bind fun t _ => ?_
      refine .pure ?_
      rintro ⟨h, ht⟩
      refine ⟨by simp +decide [h.1, ht.part, ht.targets], ht.part, ?_⟩
      rintro _ ⟨⟩
      exact ht.part

theorem Sound.classMembers (hE : Sound S E) (c : C.Expr) (proto : Option C.Expr) {list : List Node}
    (h : ∀ m ∈ list, S.Fits m) : Writes S (S.Part c ∧ ∀ p, proto = some p → S.Part p)
      (classMembers E c proto list) S.Steps := by
  induction list generalizing proto with
  | nil => exact .pure fun _ => by simp
  | cons m rest ih =>
    rw [List.forall_mem_cons] at h
    unfold Lower.classMembers
    dsimp only
    refine (writes_memberHome c proto _).bindOf id ?_
    rintro ⟨l, target, proto⟩ _
    refine (hE.definedKey h.1).bind fun r _ => ?_
    refine (writes_functionAt (h.1.part? _ rfl).getD).bind fun made _ => ?_
    refine (ih proto h.2).bindOf (fun h => ⟨h.1.1.1.1, h.1.1.2.2.2⟩) fun es _ => ?_
    refine .pure ?_
    rintro ⟨⟨⟨⟨_, hl, htarget, _⟩, hr⟩, hmade⟩, hes⟩
    split <;> simp +decide [hl.steps, htarget, hr.1, hr.2, hmade.part, hes]

theorem Sound.heritage (hE : Sound S E) (h : S.Fits n) :
    Writes S pre (heritage E n) fun r => S.Parts r.1 ∧ S.Part r.2 := by
  unfold Lower.heritage
  split
  . exact .pure fun _ => by simp
  . next c hc =>
    refine writes_temp.bind fun t _ => ?_
    refine (hE.expr (h.part? .heritage rfl c hc).some).bind fun e _ => ?_
    refine .pure ?_
    rintro ⟨⟨_, ht⟩, he⟩
    simp [he.1, ht.part, ht.targets]

theorem writes_storeOwnName (c : C.Expr) (h : S.Fits n) :
    Writes S (S.Part c) (storeOwnName n c) S.Parts := by
  unfold storeOwnName
  apply Meets.bindings
  split
  . next d hkind hd =>
    have hreaches := h.suits.ownName (by simpa using hkind) d hd
    refine (writes_storage hreaches).bind fun place _ => ?_
    refine .pure ?_
    rintro ⟨hc, hplace⟩
    obtain ⟨text, rfl, -, hreads⟩ := hplace.reads hreaches
    simp [hreads, hc]
  . exact .pure fun _ => trivial

theorem yields_constructorAt (h : S.Fits n) : Yields S (constructorAt n) S.makes := by
  unfold constructorAt
  apply Meets.bindings
  split
  . next ctor hctor => exact .pureOf (h.suits.site ctor hctor) fun _ => trivial
  . exact .fail (by simp)

theorem Sound.classValue (hE : Sound S E) (h : S.Fits n) :
    Writes S pre (classValue E n) S.Tail := by
  unfold Lower.classValue
  refine (yields_constructorAt h).andThen fun ctor hctor => ?_
  refine (yields_declareOpened n).andThen fun _ _ => ?_
  refine (hE.heritage h).bind fun r _ => ?_
  refine writes_temp.bind ?_
  rintro _ ⟨i, rfl⟩
  refine (writes_newFunction hctor).bind fun made _ => ?_
  refine (hE.classMembers _ none ?_).bindOf (fun h => ⟨h.1.2.part, by simp⟩) fun members _ => ?_
  . intro m hm
    cases hb : n.part? .body with
    | none => simp [hb] at hm
    | some body =>
      simp only [hb, Option.map_some, Option.getD_some] at hm
      exact (h.part? .body rfl body hb).item m hm
  refine (writes_storeOwnName _ h).bindOf (fun h => h.1.1.2.part) fun own _ => ?_
  refine .pure ?_
  rintro ⟨⟨⟨⟨⟨_, hr⟩, ht⟩, hmade⟩, hmembers⟩, hown⟩
  have hall : S.Steps (r.1 ++ .set (.var (temporaryName "tmp" i)) made ::
      ((.callEnv Engine.makeClass [.var (temporaryName "tmp" i), r.2] :: members ++ own) ++
        .var (temporaryName "tmp" i) :: [])) := by
    simp +decide [hr.1.steps, hr.2, hmade.part, hmembers, hown.steps, ht.var]
  have := tail_comma_of_two _ _ [] rfl rfl hall
  simpa using this

/-! Calls -/

theorem Setting.fits_args (h : S.Fits n) (hkind : n.kind = .call ∨ n.kind = .new)
    (hspread : n.containsSpread = false) :
    (∀ high ∈ S.reserved, S.stack + 1 + (n.slots .item).length ≤ high) ∧
      ∀ i c, (n.slots .item)[i]? = some (some c) → (S.shifted (S.stack + 1 + i)).Fits c := by
  refine ⟨fun high hhigh => ((h.room high hhigh).argument hkind hspread).1, fun i c hc => ?_⟩
  have hmem := Node.mem_items_of_mem_slots (List.mem_of_getElem? hc)
  exact ⟨fun high hhigh => ((h.room high hhigh).argument hkind hspread).2 i c hc,
    fun m hm => ((h.item c hmem).below m hm).shifted _⟩

theorem Sound.storeArgs (hk : ∀ slot, Sound (S.shifted slot) E) {slot : Nat}
    {list : List (Option Node)}
    (h : ∀ i c, list[i]? = some (some c) → (S.shifted (slot + i)).Fits c) :
    Writes S pre (storeArgs E slot list) fun l => S.Stored slot l ∧ l.length = list.length := by
  induction list generalizing pre slot with
  | nil => exact .pure fun _ => ⟨.nil, rfl⟩
  | cons arg rest ih =>
    have harg : (S.shifted slot).FitsOption arg := fun c hc => h 0 c (by simp [hc])
    refine (writes_withStack ((hk slot).expr harg)).bind fun e _ => ?_
    refine (ih fun i c hc => ?_).bind fun es _ => ?_
    . rw [Nat.add_assoc, Nat.add_comm 1]
      exact h (i + 1) c (by simpa using hc)
    refine .pure ?_
    rintro ⟨⟨_, he⟩, hes⟩
    exact ⟨.cons he.1 hes.1, by simp [hes.2]⟩

theorem Sound.placeArgs (hk : ∀ slot, Sound (S.shifted slot) E) (h : S.Fits n)
    (hkind : n.kind = .call ∨ n.kind = .new) (hspread : n.containsSpread = false) :
    Writes S pre (Lower.storeArgs E (S.stack + 1) (n.slots .item))
      (S.Placed (n.slots .item).length) :=
  (Sound.storeArgs hk (Setting.fits_args h hkind hspread).2).mono id fun _ hl =>
    ⟨hl.1, hl.2, (Setting.fits_args h hkind hspread).1⟩

@[simp]
theorem part_callArea (area : Nat) : S.Part (callArea area) := by
  unfold callArea
  split <;> simp

theorem IsText.still {e : C.Expr} (h : IsText e) : S.Still e := by
  obtain ⟨text, rfl⟩ := h
  simp [Setting.Still]

theorem hands_call {fn : String} {args : List C.Expr} {count : Nat}
    (hfn : Engine.isOrdinary fn = true) (hargs : ∀ e ∈ args, S.Still e)
    (hevents : C.Expr.callEvents fn args = [.pass S.stack count]) :
      S.Hands count (.call fn args) where
  traces := by
    have hone : anyOrder (args.map (C.Expr.traces .path)) = 1 :=
      anyOrder_ones (List.forall_mem_map.2 fun e he => (hargs e he).2)
    simp [C.Expr.traces_call, hevents, hone, View.seen]
  single := rfl
  part hle :=
    ⟨⟨S.allows_ordinary fn args hfn, fun high hhigh => .inr (hle high hhigh)⟩,
      C.Expr.allObey_iff.2 fun e he => (hargs e he).1⟩

theorem hands_callInPlace {f this name : C.Expr} (count : Nat) (hf : S.Still f)
    (hthis : S.Still this) (hname : S.Still name) :
    S.Hands count (callInPlace f this name S.stack count) where
  traces := traces_callInPlace hf.2 hthis.2 hname.2
  single := rfl
  part hle := by
    rw [traces_callInPlace hf.2 hthis.2 hname.2] at hle
    have hslow : S.Part (.callEnv Engine.callValue [f, this, callArea S.stack,
      .nat count, name]) := by
      refine ⟨⟨S.allows_ordinary _ _ (by decide), fun high hhigh => .inr ?_⟩, ?_⟩
      . exact (traces_callValue hf.2 hthis.2 hname.2).trans_le (hle high hhigh)
      . simp [hf.1, hthis.1, hname.1]
    refine ⟨by simp +decide [hf.1], ⟨fun high hhigh => ?_, ?_⟩, hslow⟩
    . exact (traces_callDirect hf.2 hthis.2).trans_le (hle high hhigh)
    . simp +decide [hf.1, hthis.1]

theorem Setting.Hands.set {e : C.Expr} {count : Nat} {text : String} (h : S.Hands count e)
    (ht : S.Slot (.var text)) : S.Hands count (.set (.var text) e) where
  traces := by simpa using h.traces
  single := rfl
  part hle := ⟨ht.targets _ _, ht.part, h.part (by simpa using hle)⟩

theorem Setting.Tail.ofPart {e : C.Expr} {l : List C.Expr} (h : S.Part (.comma (l ++ [e])))
    (hplain : e.isPlain) (hsolid : e.isSolid) : S.Tail (.comma (l ++ [e])) :=
  ⟨⟨h, C.Expr.isPlain_comma_last hplain hsolid⟩, C.Expr.isSolid_comma_last hsolid⟩

theorem tail_row {e : C.Expr} {stores : List C.Expr} {count : Nat} (hstores : S.Placed count stores)
    (he : S.Hands count e) (hplain : e.isPlain) (hsolid : e.isSolid) :
      S.Tail (.comma (stores ++ [e])) :=
  .ofPart (Setting.part_row (l := []) (by simp) hstores he (by simp)) hplain hsolid

theorem Sound.reportedName : Writes S pre (reportedName E n) S.Still := by
  unfold Lower.reportedName
  split
  . exact (yields_string _ _).writes fun _ h => h.still
  . next o hlabel =>
    unfold Lower.propertyKey
    simp only [Node.computed, hlabel]
    exact (yields_keySlot _ _).writes fun _ h => h.still
  . exact .pure fun _ => by simp [Setting.Still]

theorem Sound.callThrough (hE : Sound S E) {callee : Node} {call : C.Expr → C.Expr → Lower C.Expr}
    (h : S.Fits callee)
    (hcall : ∀ {pre' : Prop} f this, (pre' → pre) →
      Writes S (pre' ∧ S.Still f ∧ S.Still this) (call f this) S.Tail) :
    Writes S pre (callThrough E n callee call) S.Tail := by
  unfold Lower.callThrough
  apply Meets.getShown
  intro w hw
  refine yields_isWithName.andThen fun isWith _ => ?_
  dsimp only
  split
  . refine writes_temp.bind fun t _ => ?_
    refine .string fun name => ?_
    refine (writes_fallbackCell h).bind fun c _ => ?_
    refine (writes_applyLink (pre ∧ S.Slot t) n _ true fun f => ?_).bindOf ?_ fun out _ => ?_
    . exact (hcall f _ And.left).mono (fun h => ⟨h.1, h.2, h.1.2.stays⟩) fun _ => id
    . rintro ⟨⟨h, ht⟩, hc⟩
      exact ⟨⟨h.1, ht⟩, by simp +decide [hc.1, ht.pointer]⟩
    . refine .pure ?_
      rintro ⟨⟨⟨_, ht⟩, _⟩, hout⟩
      exact hout.after (by simp [ht.part, ht.targets])
  . split
    . refine (hE.expr h.some).bind fun base _ => ?_
      refine (writes_applyLink pre n base true fun f => ?_).mono ?_ fun _ => id
      . exact (hcall f _ id).mono (fun h => ⟨h.1, h.2, by simp [Setting.Still]⟩) fun _ => id
      . exact fun h => ⟨h.1.1, h.2.1⟩
    . split
      . next hsuper =>
        obtain ⟨o, ho, hkind⟩ := (Option.any_eq_true _ _).1 hsuper
        have hthis := (h.part? .object rfl o ho).suits.super (by simpa using hkind)
        apply writes_withoutChain
        refine writes_temp.bind fun t _ => ?_
        refine writes_temp.bind fun f _ => ?_
        apply Meets.thisOwner
        refine (writes_loadOption ?_).bind fun this _ => ?_
        . intro d hd
          simpa [hd] using hthis
        refine (hE.readSuper h hsuper).bind fun method _ => ?_
        refine (hcall f t id).bindOf ?_ fun out _ => ?_
        . rintro ⟨⟨⟨⟨h, ht⟩, hf⟩, _⟩, _⟩
          exact ⟨h.1, hf.stays, ht.stays⟩
        refine .pure ?_
        rintro ⟨⟨⟨⟨⟨⟨_, hshows⟩, ht⟩, hf⟩, hthisValue⟩, hmethod⟩, hout⟩
        refine .comma (l := [_, _]) ?_
          (tail_endEarly (fun e he => hw.chain e he hshows) hf.part hout)
        simp [hthisValue.1, hmethod.part, ht.targets, hf.targets, ht.part, hf.part]
      . refine (hE.expr (h.part? _ rfl)).bind fun base _ => ?_
        refine (writes_applyLink (pre ∧ S.shows w.frames) callee base true fun o => ?_).mono ?_
          fun _ => id
        . refine writes_temp.bind fun f _ => ?_
          refine (hE.readMember h o).bindOf (fun h => h.1.2.1) fun method _ => ?_
          refine (hcall f o id).bindOf ?_ fun out _ => ?_
          . rintro ⟨⟨⟨h, ho⟩, hf⟩, _⟩
            exact ⟨h.1, hf.stays, ho⟩
          refine .pure ?_
          rintro ⟨⟨⟨⟨⟨_, hshows⟩, _⟩, hf⟩, hmethod⟩, hout⟩
          refine .after (tail_endEarly (fun e he => hw.chain e he hshows) hf.part hout) ?_
          simp [hmethod.part, hf.part, hf.targets]
        . exact fun h => ⟨h.1, h.2.1⟩

structure Setting.Constructs (S : Setting) (r : List C.Expr × C.Expr) : Prop where
  row : ∀ {l}, S.Steps l → S.Part (.comma (l ++ (r.1 ++ [r.2])))
  keep : ∀ {text l post}, S.Slot (.var text) → S.Steps l → S.Steps post →
    S.Part (.comma (l ++ (r.1 ++ .set (.var text) r.2 :: post)))
  isPlain : r.2.isPlain
  isSolid : r.2.isSolid

theorem Sound.constructWith (hE : Sound S E) (hk : ∀ slot, Sound (S.shifted slot) E)
    (c newTarget : C.Expr) (h : S.Fits n) (hkind : n.kind = .call ∨ n.kind = .new) :
    Writes S (S.Still c ∧ S.Still newTarget) (constructWith E n c newTarget) S.Constructs := by
  unfold Lower.constructWith
  dsimp only
  split
  . refine (hE.spreadArray h.slot).bind ?_
    rintro ⟨build, arr⟩ _
    refine .pure ?_
    rintro ⟨hc, hb⟩
    have hmade : S.Part (.callEnv Engine.constructArray [c, arr, newTarget]) := by
      simp +decide [hc.1.1, hc.2.1, hb.2]
    refine ⟨fun hpre => ?_, fun {text _ _} ht hpre hpost => ?_, rfl, rfl⟩
    . rw [← List.append_assoc]
      exact Setting.part_comma_last (List.forall_mem_append.2 ⟨hpre, hb.1.steps⟩) hmade
    . have hset : S.Part (.set (.var text) (.callEnv Engine.constructArray [c, arr, newTarget])) :=
        ⟨ht.targets _ _, ht.part, hmade⟩
      rw [← List.append_assoc]
      exact Setting.part_comma_at (List.forall_mem_append.2 ⟨hpre, hb.1.steps⟩) hset hpost
  . next hspread =>
    apply Meets.get
    intro w hw
    rw [hw.stack]
    refine (placeArgs hk h hkind (by simpa using hspread)).bind fun stores _ => ?_
    refine .pure ?_
    rintro ⟨hc, hs⟩
    have hands : S.Hands (n.slots .item).length
        (.callEnv Engine.construct [c, callArea S.stack, .nat (n.slots .item).length,
          newTarget]) := by
      refine hands_call (by decide) ?_ callEvents_construct
      simp [Setting.Still, hc.1.1, hc.1.2, hc.2.1, hc.2.2]
    exact ⟨fun hpre => Setting.part_row hpre hs hands (by simp),
      fun ht hpre hpost => Setting.part_row hpre hs (hands.set ht) hpost, rfl, rfl⟩

theorem Sound.callSuper (hE : Sound S E) (hk : ∀ slot, Sound (S.shifted slot) E) (h : S.Fits n)
    (hn : n.kind = .call) (hsuper : ((n.part? .callee).getD default).kind = .super) :
    Writes S pre (callSuper E n) S.Tail := by
  have hthis := (h.part? .callee rfl).getD.suits.super hsuper
  have htarget := h.suits.superCall hn (by
    cases hcallee : n.part? .callee with
    | none =>
      rw [hcallee] at hsuper
      cases hsuper
    | some c =>
      rw [hcallee] at hsuper
      simpa using hsuper)
  unfold Lower.callSuper
  apply Meets.thisOwner
  refine writes_temp.bind ?_
  rintro _ ⟨i, rfl⟩
  apply Meets.bindings
  refine (writes_loadOption (h.part? _ rfl).reaches).bind fun home _ => ?_
  dsimp only
  refine (writes_loadOption htarget).bind fun newTarget _ => ?_
  refine (hE.constructWith hk _ newTarget h (.inl hn)).bindOf (fun h => ⟨h.1.1.2.stays, h.2⟩)
    fun r _ => ?_
  refine writes_temp.bind ?_
  rintro _ ⟨j, rfl⟩
  refine (writes_storage hthis).bind fun this _ => ?_
  refine .string fun text => ?_
  refine .pure ?_
  rintro ⟨⟨⟨⟨⟨⟨_, hi⟩, hhome⟩, _⟩, hmade⟩, hj⟩, hplace⟩
  obtain ⟨place, rfl, -, hcell, hreads⟩ := hplace.reads hthis
  have hfirst : S.Part (.set (.var (temporaryName "tmp" i))
      (.callEnv Engine.superConstructor [home])) := by
    simp +decide [hhome.1, hi.var]
  have hlast : S.Part (.cond (.likely (.isDeleted (.var place)) false)
      (.set (.var place) (.var (temporaryName "tmp" j)))
      (.comma [.callEnv Engine.throwReference [.lit text], .var (temporaryName "tmp" j)])) := by
    simp +decide [hreads, hcell, hj.var]
  rw [List.cons_append]
  refine tail_of_two [] _ _ rfl rfl (hmade.keep (l := [_]) hj (by simpa using hfirst.step) ?_)
  simpa using hlast.step

theorem Sound.call (hE : Sound S E) (hk : ∀ slot, Sound (S.shifted slot) E) (h : S.Fits n)
    (hn : n.kind = .call) : Writes S pre (call E n) S.Tail := by
  have hcallee : S.Fits ((n.part? .callee).getD default) := (h.part? _ rfl).getD
  unfold Lower.call
  dsimp only
  split
  . next hsuper => exact hE.callSuper hk h hn (by simpa using hsuper)
  . split
    . next hplain =>
      apply Meets.get
      intro w hw
      rw [hw.stack]
      refine (placeArgs hk h (.inl hn) (by simp_all)).bind fun stores _ => ?_
      refine yields_globalName.andThen ?_
      rintro _ ⟨text, rfl⟩
      refine .pure ?_
      rintro ⟨_, hs⟩
      refine tail_row hs (hands_call (by decide) ?_ callEvents_callGlobal) rfl rfl
      simp [Setting.Still]
    . have hwith : Yields S (pure (!n.isOptional && !n.containsSpread) <&&>
          isWithName ((n.part? .callee).getD default))
          fun isWith => isWith = true → n.containsSpread = false := by
        unfold andM
        rw [pure_bind]
        cases hplain : !n.isOptional && !n.containsSpread with
        | false => exact .pureOf (by simp) fun _ => trivial
        | true => exact yields_isWithName.weakenYield fun _ _ _ => by simp_all
      refine hwith.andThen fun isWith hspread => ?_
      split
      . next hisWith =>
        apply Meets.get
        intro w hw
        rw [hw.stack]
        refine (placeArgs hk h (.inl hn) (hspread hisWith)).bind fun stores _ => ?_
        refine .string fun text => ?_
        refine (writes_fallbackCell hcallee).bind fun c _ => ?_
        refine .pure ?_
        rintro ⟨⟨_, hs⟩, hc⟩
        refine tail_row hs (hands_call (by decide) ?_ callEvents_callWith) rfl rfl
        simp [Setting.Still, hc.1, hc.2]
      . refine reportedName.bind fun name _ => ?_
        apply hE.callThrough hcallee
        intro pre' f this hpre
        split
        . refine (hE.spreadArray h.slot).bind ?_
          rintro ⟨build, arr⟩ _
          refine .pure ?_
          rintro ⟨⟨_, hf, hthis⟩, hb⟩
          refine .comma hb.1.steps ?_
          simp +decide [Setting.Tail, Setting.Code, hf.1, hthis.1, hb.2]
        . next hspread =>
          apply Meets.get
          intro w hw
          rw [hw.stack]
          refine (placeArgs hk h (.inl hn) (by simpa using hspread)).bind fun stores _ => ?_
          refine .pure ?_
          rintro ⟨⟨hp, hf, hthis⟩, hs⟩
          exact tail_row hs (hands_callInPlace _ hf hthis (hpre hp).2) rfl rfl

theorem Sound.construct (hE : Sound S E) (hk : ∀ slot, Sound (S.shifted slot) E) (h : S.Fits n)
    (hn : n.kind = .new) : Writes S pre (construct E n) S.Tail := by
  unfold Lower.construct
  refine writes_temp.bind fun t _ => ?_
  refine (hE.expr (h.part? _ rfl)).bind fun callee _ => ?_
  refine (hE.constructWith hk _ _ h (.inr hn)).bindOf (fun h => ⟨h.1.2.stays, h.1.2.stays⟩)
    fun r _ => ?_
  refine .pure ?_
  rintro ⟨⟨⟨_, ht⟩, hcallee⟩, hr⟩
  refine .ofPart (hr.row (l := [_]) ?_) hr.isPlain hr.isSolid
  simp [hcallee.1, ht.part, ht.targets]

theorem yields_templateTexts (texts : List String) (invalid : List Bool) :
    Yields S (templateTexts texts invalid) fun l => ∀ slot, C.Expr.AllObey (S.rules slot) l := by
  induction texts generalizing invalid with
  | nil => exact .pureOf (fun _ => trivial) fun _ => trivial
  | cons text texts ih =>
    unfold templateTexts
    dsimp only
    split
    . rw [pure_bind]
      refine (ih _).andThen fun es hes => ?_
      exact .pureOf (by simp [hes]) fun _ => trivial
    . refine .string fun t => ?_
      refine (ih _).andThen fun es hes => ?_
      exact .pureOf (by simp [hes]) fun _ => trivial

theorem reads_template (id : Nat) : S.reads ("&" ++ (toString "tpl_" ++ id.repr)) := by
  have hname : (toString "tpl_" ++ id.repr).toList = "tpl_".toList ++ id.repr.toList := by
    simp [ToString.toString]
  have hall : (toString "tpl_" ++ id.repr).toList.all C.isNameChar = true := by
    rw [hname, List.all_append, C.isNameChar_digits]
    decide
  apply S.reads_fixed
  rw [C.isFixed_pointer, C.isFixed, C.isFixedList_of_all hall, hname]
  rfl

theorem Setting.fits_substitutions (h : S.Fits n) (hn : n.label = .taggedTemplate) :
    (∀ high ∈ S.reserved,
      S.stack + 2 + (((n.part? .argument).getD default).slots .item).length ≤ high) ∧
      ∀ i c, (((n.part? .argument).getD default).slots .item)[i]? = some (some c) →
        (S.shifted (S.stack + 2 + i)).Fits c := by
  refine ⟨fun high hhigh => ((h.room high hhigh).substitution hn).1, fun i c hc => ?_⟩
  refine ⟨fun high hhigh => ((h.room high hhigh).substitution hn).2 i c hc, fun m hm => ?_⟩
  cases hquasi : n.part? .argument with
  | none => simp [hquasi, show (default : Node).slots .item = [] from rfl] at hc
  | some quasi =>
    rw [hquasi] at hc
    have hmem := Node.preorder_subset (Node.holds_of_mem_slots (List.mem_of_getElem? hc)) hm
    exact (h.below m (Node.preorder_subset (Node.holds_of_part? hquasi) hmem)).shifted _

theorem Sound.taggedTemplate (hE : Sound S E) (hk : ∀ slot, Sound (S.shifted slot) E) (h : S.Fits n)
    (hn : n.label = .taggedTemplate) : Writes S pre (taggedTemplate E n) S.Tail := by
  have hcallee : S.Fits ((n.part? .callee).getD default) := (h.part? _ rfl).getD
  obtain ⟨hroom, hsubs⟩ := Setting.fits_substitutions h hn
  unfold Lower.taggedTemplate
  dsimp only
  refine yields_freshName.andThen fun id _ => ?_
  refine .modifyThen (fun w => { Setting.Grows.refl w with }) ?_ ?_
  . exact fun w hw => ⟨hw.fn, hw.stack, hw.names, hw.chain, hw.frames⟩
  refine (yields_templateTexts _ _).andThen fun cooked hcooked => ?_
  refine (yields_templateTexts _ _).andThen fun raws hraws => ?_
  refine reportedName.bind fun name _ => ?_
  apply hE.callThrough hcallee
  intro pre' f this hpre
  apply Meets.get
  intro w hw
  rw [hw.stack]
  refine (storeArgs hk hsubs).bind fun stores _ => ?_
  refine .pure ?_
  rintro ⟨⟨hp, hf, hthis⟩, hs⟩
  refine tail_row ⟨.cons ?_ hs.1, ?_, ?_⟩ (hands_callInPlace _ hf hthis (hpre hp).2) rfl rfl
  . simp +decide [hcooked, hraws, reads_template]
  . simp [hs.2, Nat.add_comm]
  . intro high hhigh
    have := hroom high hhigh
    omega

/-! Expressions of all kinds -/

theorem writes_identifier (h : S.Fits n) : Writes S pre (identifier n) S.Code := by
  unfold identifier
  apply Meets.bindings
  split
  . next d hd => exact (writes_load (reaches_of_use h hd)).mono id fun _ h => h.1
  . refine .string fun text => ?_
    refine (writes_fallbackCell h).bind fun c _ => ?_
    refine .pure ?_
    rintro ⟨_, hc⟩
    simp +decide [Setting.Code, hc.1]
  . exact .fail (by simp)

theorem Meets.code {act : Lower C.Expr} (h : Writes S pre act S.Tail) : Writes S pre act S.Code :=
  h.mono id fun _ h => h.1

theorem writes_own (h : S.Fits n) {f : LoweringFault}
    (hf : (∀ name cname, f ≠ .notCaptured name cname) ∧ ∀ message, f ≠ .frame message) :
      Writes S pre (do
      match (← bindings).resolved? n with
      | some d => load d
      | none => failLowering n f) S.Code := by
  apply Meets.bindings
  split
  . next d hd => exact (writes_load (h.suits.resolved d hd)).mono id fun _ h => h.1
  . exact .fail hf

theorem Sound.exprOf (hE : Sound S E) (hk : ∀ slot, Sound (S.shifted slot) E) (h : S.Fits n) :
    Writes S pre (exprOf E n) S.Code := by
  unfold Lower.exprOf
  split
  . exact writes_literal _
  . exact writes_identifier h
  . exact writes_own h (by simp)
  . exact writes_own h (by simp)
  . exact hE.template _ h
  . next hl => exact (hE.taggedTemplate hk h hl).code
  . exact (hE.array h).code
  . exact (hE.object h).code
  . exact (writes_functionAt h).code
  . exact (writes_functionAt h).code
  . exact (hE.classValue h).code
  . next hl =>
    refine (hE.test (h.argument (congrArg Label.kind hl) rfl)).bind fun t _ => ?_
    refine .pure ?_
    rintro ⟨_, ht⟩
    simp [Setting.Code, ht.1, ht.2]
  . next hl => exact (hE.unary h (by rw [Node.kind, hl]; rintro ⟨⟩)).code
  . next hl => exact (hE.update true h (by rw [Node.kind, hl]; rintro ⟨⟩)).code
  . exact (hE.binary h).code
  . exact (hE.logical h).code
  . exact hE.assign h
  . refine (hE.test (h.part? _ rfl)).bind fun t _ => ?_
    refine (hE.expr (h.part? _ rfl)).bind fun a _ => ?_
    refine (hE.expr (h.part? _ rfl)).bind fun b _ => ?_
    refine .pure ?_
    rintro ⟨⟨⟨_, ht⟩, ha⟩, hb⟩
    refine ⟨⟨ht.1, ha.1, hb.1⟩, ?_⟩
    rw [C.Expr.isPlain, ht.2]
    rfl
  . next hl => exact (hE.call hk h (congrArg Label.kind hl)).code
  . next hl => exact (hE.construct hk h (congrArg Label.kind hl)).code
  . exact (hE.member h).code
  . exact hE.chainValue h
  . next hl =>
    refine (hE.discards fun c hc => h.item c (List.dropLast_subset _ hc)).bind fun pre _ => ?_
    split
    . next hnone =>
      obtain hitems : n.items = [] := by simpa using hnone
      refine .pure fun hpre => ⟨Setting.part_comma (fun e he => (hpre.2 e he).1.step)
        fun hfull => ?_,
        C.Expr.isPlain_comma fun e he => (hpre.2 e he).2⟩
      exact absurd hitems ((h.suits.full hfull).1 (congrArg Label.kind hl))
    . next last hlast =>
      refine (hE.expr (h.item last (List.mem_of_getLast? hlast)).some).bind fun e _ => ?_
      refine .pure ?_
      rintro ⟨⟨_, hpre⟩, he⟩
      exact code_comma (List.forall_mem_append.2 ⟨hpre, by simpa using he⟩) (by simp)
  . next hl =>
    refine (hE.expr (h.argument (congrArg Label.kind hl) rfl)).bind fun e _ => ?_
    refine .pure ?_
    rintro ⟨_, he⟩
    simp +decide [Setting.Code, he.1]
  . next hl =>
    refine (hE.expr (h.argument (congrArg Label.kind hl) rfl)).bind fun e _ => ?_
    refine .pure ?_
    rintro ⟨_, he⟩
    split <;> simp +decide [Setting.Code, he.1]
  . exact .fail (by simp)

theorem Sound.linkOf (hE : Sound S E) (hk : ∀ slot, Sound (S.shifted slot) E) (h : S.Fits n) :
    Writes S pre (linkOf E n) S.Code := by
  unfold Lower.linkOf
  split
  . exact hE.exprOf hk h
  . exact hE.exprOf hk h
  . exact writes_withoutChain (hE.exprOf hk h)

theorem Sound.discardOf (hE : Sound S E) (hk : ∀ slot, Sound (S.shifted slot) E) (h : S.Fits n) :
    Writes S pre (discardOf E n) S.Code := by
  unfold Lower.discardOf
  split
  . next hn => exact (hE.update false h (by rw [hn]; rintro ⟨⟩)).code
  . exact hE.assign h
  . exact hE.linkOf hk h

theorem Sound.above (hE : Sound S E) (hk : ∀ slot, Sound (S.shifted slot) E) : Sound S E.above where
  expr := by
    intro pre n h
    cases n with
    | none => exact .pure fun _ => by simp [Setting.Code]
    | some n => exact hE.linkOf hk (h n rfl)
  test := by
    intro pre n h
    cases n with
    | none => exact .pure fun _ => by simp [Setting.Code]
    | some n => exact hE.testOf (hE.linkOf hk (h n rfl)) (h n rfl)
  discard h := hE.discardOf hk h
  destructure v mode h := hE.destructureOf v mode h

theorem sound_upTo (height : Nat) : Sound S (.upTo height) := by
  induction height generalizing S with
  | zero => exact sound_idle
  | succ height ih => exact ih.above fun _ => ih

end ScriptC.Lower
