import ScriptC.Proofs.Lower.Writes

/-!
The writers that everything else is put together from: fresh names, temporaries, literals, the
places of declarations and operands in order.
-/

namespace ScriptC.Lower

open scoped C.Expr

variable {α : Type} {S : Setting} {pre : Prop} {P : α → Prop}

def IsTemp (stem : String) (e : C.Expr) : Prop :=
  ∃ id : Nat, e = .var (temporaryName stem id)

@[simp]
theorem isOwn_chain (id : Nat) : C.Expr.isOwn (temporaryName "opt" id) = false := by
  simp [temporaryName, C.Expr.isOwn, ToString.toString]

theorem yields_freshName : Yields S freshName fun _ => True := by
  intro w hw
  constructor
  . intro id w' hr
    obtain ⟨rfl, rfl⟩ := runs_freshName.1 hr
    refine ⟨⟨hw.fn, hw.stack, hw.names.mono (Nat.le_succ _), hw.chain, hw.frames⟩, ?_, trivial,
      fun _ _ _ => trivial⟩
    exact { Setting.Grows.refl (S := S) _ with lastName := Nat.le_succ _, frames := .refl _ }
  . intro f hf
    exact absurd hf not_fails_freshName

theorem runs_declareC {d : C.Decl} {plan : Plan} {w w' : Writer} {u : Unit} :
    Runs plan (declareC d) w u w' ↔ ∃ top outer, w.frames.blocks = top :: outer ∧
      w' = { w with frames := { w.frames with blocks := (top ++ [d]) :: outer } } := by
  unfold declareC Frames.declare
  rw [runs_withFrames]
  cases h : w.frames.blocks with
  | nil => simp [bind, Except.bind]
  | cons top outer => simp [bind, Except.bind, pure, Except.pure]

theorem runs_allocate {d : String → C.Decl} {stem : String} {plan : Plan} {w w' : Writer}
    {e : C.Expr} (h : Runs plan (allocate d stem) w e w') :
    ∃ top outer, w.frames.blocks = top :: outer ∧
      e = .var (temporaryName stem (w.lastName + 1 : Nat)) ∧
      w' = { w with
        lastName := w.lastName + 1
        frames := ⟨(top ++ [d (temporaryName stem (w.lastName + 1 : Nat))]) :: outer,
          w.frames.total + 1⟩
        temporaries := w.temporaries + 1 } := by
  simp only [allocate, runs_bind, runs_freshName, runs_modify, runs_pure] at h
  obtain ⟨_, _, ⟨rfl, rfl⟩, _, w₁, hr, _, _, rfl, rfl, rfl⟩ := h
  obtain ⟨frames, hframes, rfl⟩ := runs_withFrames.1 hr
  unfold Frames.allocate Frames.declare at hframes
  cases hb : w.frames.blocks with
  | nil => simp [hb, bind, Except.bind] at hframes
  | cons top outer =>
    simp only [hb, bind, Except.bind, pure, Except.pure, Except.ok.injEq, Prod.mk.injEq,
      true_and] at hframes
    refine ⟨top, outer, rfl, rfl, ?_⟩
    rw [← hframes]

theorem not_fails_withFrames {d : C.Decl} {change : Frames → Except FrameFault Frames} {plan : Plan}
    {w : Writer} {f : Fault} (hw : w.frames.blocks ≠ [])
    (hchange : change = (·.declare d) ∨ change = (·.allocate d)) :
    ¬Fails plan (withFrames fun f => return ((), ← change f)) w f := by
  intro hf
  obtain ⟨g, hg⟩ := fails_withFrames hf
  obtain ⟨top, outer, hb⟩ := List.exists_cons_of_ne_nil hw
  rcases hchange with rfl | rfl
  . simp [Frames.declare, hb, bind, Except.bind, pure, Except.pure] at hg
  . simp [Frames.allocate, Frames.declare, hb, bind, Except.bind, pure, Except.pure] at hg

theorem Setting.Grows.declare {w : Writer} {top : List C.Decl} {outer : List (List C.Decl)}
    {d : C.Decl} {hi total temporaries : Nat} (hb : w.frames.blocks = top :: outer)
    (hhi : w.lastName ≤ hi) (hd : S.Added w.lastName hi w.names [d]) :
    S.Grows w { w with
      lastName := hi, frames := ⟨(top ++ [d]) :: outer, total⟩, temporaries } where
  __ := Setting.Grows.refl (S := S) w
  lastName := hhi
  frames := by
    rw [hb]
    exact ⟨[d], rfl, hd⟩

-- Names are looked up among more and more declarations.
theorem Setting.Ready.grow {w w' : Writer} (hw : S.Ready w) (hgrows : S.Grows w w')
    (hfn : w'.fn = w.fn) (hnames : w'.names = w.names) : S.Ready w' where
  fn := hfn.trans hw.fn
  stack := hgrows.stack.trans hw.stack
  names := hnames ▸ hw.names.mono hgrows.lastName
  chain := fun e he hs => hw.chain e (hgrows.chain ▸ he) (hgrows.shows hs)
  frames := hgrows.frames.ne_nil hw.frames

theorem meetsFrom_declareC {d : C.Decl} {w : Writer} (hw : S.Ready w) (hd : S.Silent d)
    (hname : C.isTemporary d.name.toList = false)
    (hnamed : d.name ∈ frameNames ∨ ∃ k, w.names.name? k = some d.name) :
    MeetsFrom S pre w (declareC d) (fun _ => True) fun _ => True := by
  constructor
  . intro u w' hr
    obtain ⟨top, outer, hb, rfl⟩ := runs_declareC.1 hr
    have hgrows : S.Grows w
        { w with frames := { w.frames with blocks := (top ++ [d]) :: outer } } := by
      refine .declare hb (Nat.le_refl _) ⟨by simpa using hd, ?_, ?_⟩
      . simp [C.Decl.temporaries, hname, Fresh.nil]
      . simpa [hname] using hnamed
    exact ⟨hw.grow hgrows rfl rfl, hgrows, trivial, fun _ _ _ => trivial⟩
  . intro f hf
    exact absurd hf (not_fails_withFrames hw.frames (.inl rfl))

theorem yields_declareC {d : C.Decl} (hd : S.Silent d) (hname : d.name ∈ frameNames) :
    Yields S (declareC d) fun _ => True :=
  fun _ hw => meetsFrom_declareC hw hd
    ((by decide : ∀ s ∈ frameNames, C.isTemporary s.toList = false) _ hname) (.inl hname)

theorem slot_of_runs_allocate {d : String → C.Decl} {stem : String} {w w' : Writer} {e : C.Expr}
    (hstem : stem ∈ C.stems) (hname : ∀ name, (d name).name = name)
    (hr : Runs S.plan (allocate d stem) w e w') (hshows : S.shows w'.frames) : S.Slot e := by
  obtain ⟨top, outer, hb, rfl, rfl⟩ := runs_allocate hr
  have hreads := S.reads_temporary _ stem (w.lastName + 1) hshows hstem
    (by simp [Frames.names, hname])
  exact Setting.slot_var (isCellName_temporaryName hstem _) hreads.1 hreads.2

theorem writes_allocate {d : String → C.Decl} {stem : String} (hstem : stem ∈ C.stems)
    (hname : ∀ name, (d name).name = name) 
    (hd : ∀ name, C.isCellName name.toList = false → S.Silent (d name)) :
    Meets S pre (allocate d stem) (IsTemp stem) S.Slot := by
  intro w hw
  constructor
  . intro e w' hr
    have hslot := slot_of_runs_allocate hstem hname hr
    obtain ⟨top, outer, hb, rfl, rfl⟩ := runs_allocate hr
    have htemp := isTemporary_temporaryName hstem (w.lastName + 1)
    have hgrows : S.Grows w { w with
        lastName := w.lastName + 1
        frames := ⟨(top ++ [d (temporaryName stem (w.lastName + 1 : Nat))]) :: outer,
          w.frames.total + 1⟩
        temporaries := w.temporaries + 1 } := by
      refine .declare hb (Nat.le_succ _) ⟨List.forall_mem_singleton.2 (hd _
        (isCellName_temporaryName hstem _)), ⟨?_, ?_⟩, ?_⟩
      . simp only [C.Decl.temporaries, List.map_cons, List.map_nil, hname]
        exact (List.nodup_singleton _).filter _
      . intro s hs
        simp only [C.Decl.temporaries, List.map_cons, List.map_nil, hname, List.mem_filter,
          List.mem_singleton] at hs
        exact ⟨stem, hstem, _, hs.1, Nat.lt_succ_self _, Nat.le_refl _⟩
      . simp only [List.mem_singleton, forall_eq, hname]
        exact .inl htemp
    exact ⟨hw.grow hgrows rfl rfl, hgrows, ⟨_, rfl⟩, fun _ _ => hslot⟩
  . intro f hf
    unfold allocate at hf
    rcases fails_bind.1 hf with hf | ⟨id, w₁, hid, hf⟩
    . exact (yields_freshName w hw).2 f hf
    obtain ⟨hw₁, -⟩ := (yields_freshName w hw).1 id w₁ hid
    rcases fails_bind.1 hf with hf | ⟨_, w₂, -, hf⟩
    . exact absurd hf (not_fails_withFrames hw₁.frames (.inr rfl))
    rcases fails_bind.1 hf with hf | ⟨_, w₃, -, hf⟩
    . exact absurd hf not_fails_modify
    . exact absurd hf not_fails_pure

theorem writes_tempOf (type : String) {stem : String} (hstem : stem ∈ C.stems) :
    Meets S pre (tempOf type stem) (IsTemp stem) S.Slot :=
  writes_allocate hstem (fun _ => rfl) fun _ h => ⟨.inl rfl, fun _ => .inl rfl, rfl, .of_not h⟩

theorem writes_temp : Meets S pre temp (IsTemp "tmp") S.Slot := writes_tempOf _ (by decide)

theorem writes_tempIterator : Meets S pre tempIterator (IsTemp "it") S.Slot :=
  writes_allocate (by decide) (fun _ => rfl) fun _ h =>
    ⟨.inl rfl, fun _ => .inl rfl, rfl, .of_not h⟩

def IsText (e : C.Expr) : Prop := ∃ text, e = .lit text

theorem yields_string (value : String) (isKey : Bool) : Yields S (string value isKey) IsText := by
  unfold string
  apply Meets.get
  intro w hw
  split
  refine .modifyThen (fun w => { Setting.Grows.refl w with }) ?_ ?_
  . exact fun w hw => ⟨hw.fn, hw.stack, hw.names, hw.chain, hw.frames⟩
  . exact .pureOf ⟨_, rfl⟩ fun _ => trivial

theorem Meets.string {β : Type} {pre : Prop} {Q₀ Q : β → Prop} {g : C.Expr → Lower β}
    {value : String}
    {isKey : Bool} (hg : ∀ text, Meets S pre (g (.lit text)) Q₀ Q) :
    Meets S pre (string value isKey >>= g) Q₀ Q := by
  refine (yields_string _ _).andThen ?_
  rintro _ ⟨text, rfl⟩
  exact hg text

theorem yields_bigint (digits : String) : Yields S (bigint digits) IsText := by
  unfold bigint
  apply Meets.get
  intro w hw
  split
  refine .modifyThen (fun w => { Setting.Grows.refl w with }) ?_ ?_
  . exact fun w hw => ⟨hw.fn, hw.stack, hw.names, hw.chain, hw.frames⟩
  . exact .pureOf ⟨_, rfl⟩ fun _ => trivial

theorem meetsFrom_withChain {act : Lower α} {chain : Option C.Expr} {w : Writer} (hw : S.Ready w)
    (hchain : ∀ e, chain = some e → S.shows w.frames → S.Slot e) (h : Writes S pre act P) :
    MeetsFrom S pre w (withChain chain act) (fun _ => True) P := by
  have hact := h { w with chain } ⟨hw.fn, hw.stack, hw.names, hchain, hw.frames⟩
  constructor
  . intro a w' hr
    obtain ⟨v, hv, rfl⟩ := runs_withChain.1 hr
    obtain ⟨hv, hgrows, -, hP⟩ := hact.1 a v hv
    have hgrows' : S.Grows w { v with chain := w.chain } := { hgrows with chain := rfl }
    exact ⟨⟨hv.fn, hv.stack, hv.names, fun e he hs => hw.chain e he (hgrows'.shows hs), hv.frames⟩,
      hgrows', trivial, hP⟩
  . intro f hf
    exact hact.2 f (fails_withChain hf)

theorem writes_withoutChain {act : Lower α} (h : Writes S pre act P) :
    Writes S pre (withChain none act) P :=
  fun _ hw => meetsFrom_withChain hw (by simp) h

section Shifted

variable {slot lo hi : Nat} {t : CNames} {a b : List (List C.Decl)} {e : C.Expr}

theorem Setting.slot_shifted : (S.shifted slot).Slot e ↔ S.Slot e :=
  ⟨fun h => ⟨h.obeys, h.targets, h.pointer, h.still⟩,
    fun h => ⟨h.obeys, h.targets, h.pointer, h.still⟩⟩

-- Which slots are free does not matter to what is declared.
theorem Setting.Extends.shift (h : (S.shifted slot).Extends lo hi t a b) :
    S.Extends lo hi t a b := by
  cases a with
  | nil => exact h
  | cons top outer =>
    obtain ⟨more, rfl, hmore⟩ := h
    refine ⟨more, rfl, fun d hd => ?_, hmore.fresh, hmore.named⟩
    obtain ⟨hname, hinit, hstill, hcell⟩ := hmore.silent d hd
    exact ⟨hname, hinit, hstill, hcell⟩

theorem writes_withStack {act : Lower α} (h : Writes (S.shifted slot) pre act P) :
    Writes S pre (withStack slot act) P := by
  intro w hw
  have hchain : ∀ e, w.chain = some e → S.shows w.frames → (S.shifted slot).Slot e :=
    fun e he hs => Setting.slot_shifted.2 (hw.chain e he hs)
  have hact := h { w with stack := slot } ⟨hw.fn, rfl, hw.names, hchain, hw.frames⟩
  constructor
  . intro a w' hr
    obtain ⟨v, hv, rfl⟩ := runs_withStack.1 hr
    obtain ⟨hv, hgrows, -, hP⟩ := hact.1 a v hv
    refine ⟨⟨hv.fn, hw.stack, hv.names, ?_, hv.frames⟩, ?_, trivial, hP⟩
    . exact fun e he hs => Setting.slot_shifted.1 (hv.chain e he hs)
    . exact ⟨hgrows.lastName, hgrows.names, hgrows.frames.shift, hgrows.body, rfl, hgrows.chain,
        hgrows.exits, hgrows.targets, hgrows.labels, hgrows.breaks, hgrows.continues,
          hgrows.pending⟩
  . intro f hf
    exact hact.2 f (fails_withStack hf)

end Shifted

/-! Names of declarations -/

section Names

variable {plan : Plan} {w w' : Writer} {d : Nat} {name : String} {f : Fault}

def IsNew (last last' : Nat) (name : String) : Prop :=
  CNames.IsName last' name ∧ (name = "func_val" ∨ ¬CNames.IsName last name)

theorem isNew_numbered {captured : Bool} {stem : String} {last : Nat}
    (hstem : stem.toList.all C.isNameChar = true) :
    IsNew last (last + 1) ((if captured then "c_" else "j_") ++ stem ++ s!"_{last + 1}") := by
  obtain ⟨mark, hmark, hname⟩ : ∃ mark : Char, (mark = 'j' ∨ mark = 'c') ∧
      ((if captured then "c_" else "j_") ++ stem ++ s!"_{last + 1}").toList =
        mark :: '_' :: stem.toList ++ '_' :: (last + 1).repr.toList := by
    cases captured with
    | true => exact ⟨'c', .inr rfl, by simp [ToString.toString]⟩
    | false => exact ⟨'j', .inl rfl, by simp [ToString.toString]⟩
  refine ⟨.inr ⟨mark, stem, _, hmark, hstem, Nat.le_refl _, hname⟩, .inr ?_⟩
  rintro (heq | ⟨mark', stem', id, -, -, hid, hname'⟩)
  . rw [heq] at hname
    rcases hmark with rfl | rfl <;> simp at hname
  . rw [hname', C.append_number_inj] at hname
    omega

theorem isCellName_numbered (captured : Bool) (stem : String) (id : Nat) :
    C.isCellName ((if captured then "c_" else "j_") ++ stem ++ s!"_{id}").toList = captured := by
  cases captured <;> simp [C.isCellName, List.isPrefixOf_cons_cons]

theorem runs_newName (h : Runs plan (newName d) w name w') :
    ∃ last, w.lastName ≤ last ∧ w' = { w with lastName := last } ∧ IsNew w.lastName last name ∧
      C.isCellName name.toList = (plan.analysis.bindings.decl d).isCaptured := by
  obtain ⟨b, w₁, hb, hcase⟩ := runs_bind.1 h
  obtain ⟨rfl, rfl⟩ := runs_bindings.1 hb
  dsimp only at hcase
  split at hcase
  . next hvalue =>
    obtain ⟨rfl, rfl⟩ := runs_pure.1 hcase
    simp only [Bool.and_eq_true, Bool.not_eq_true'] at hvalue
    exact ⟨w'.lastName, Nat.le_refl _, rfl, ⟨.inl rfl, .inl rfl⟩, by rw [hvalue.2]; decide⟩
  . simp only [runs_bind, runs_freshName, runs_pure] at hcase
    obtain ⟨_, _, ⟨rfl, rfl⟩, rfl, rfl⟩ := hcase
    refine ⟨w₁.lastName + 1, Nat.le_succ _, rfl, isNew_numbered ?_, isCellName_numbered _ _ _⟩
    split
    . decide
    . decide
    . decide
    . exact C.isNameChar_identText _

theorem runs_nameOf (h : Runs plan (nameOf d) w name w') :
    (w.names.name? d = some name ∧ w' = w) ∨
      (w.names.name? d = none ∧ ∃ last, w.lastName ≤ last ∧ IsNew w.lastName last name ∧
        C.isCellName name.toList = (plan.analysis.bindings.decl d).isCaptured ∧
        w' = { w with lastName := last, names := w.names.insert d name }) := by
  obtain ⟨v, w₁, hv, hcase⟩ := runs_bind.1 h
  obtain ⟨rfl, rfl⟩ := runs_get.1 hv
  split at hcase
  . next old hold =>
    obtain ⟨rfl, rfl⟩ := runs_pure.1 hcase
    exact .inl ⟨hold, rfl⟩
  . next hnone =>
    refine .inr ⟨hnone, ?_⟩
    obtain ⟨new, w₂, hnew, hassign⟩ := runs_bind.1 hcase
    obtain ⟨last, hlast, rfl, hfresh, hcell⟩ := runs_newName hnew
    obtain ⟨v', w₃, hv', hset⟩ := runs_bind.1 hassign
    obtain ⟨rfl, rfl⟩ := runs_get.1 hv'
    simp only [CNames.assign, hnone] at hset
    obtain ⟨_, w₄, hmodify, hpure⟩ := runs_bind.1 hset
    obtain rfl := runs_modify.1 hmodify
    obtain ⟨rfl, rfl⟩ := runs_pure.1 hpure
    exact ⟨last, hlast, hfresh, hcell, rfl⟩

theorem not_fails_nameOf : ¬Fails plan (nameOf d) w f := by
  intro h
  rcases fails_bind.1 h with hf | ⟨v, w₁, hv, hcase⟩
  . exact not_fails_get hf
  split at hcase
  . exact not_fails_pure hcase
  . rcases fails_bind.1 hcase with hnew | ⟨new, w₂, -, hassign⟩
    . rcases fails_bind.1 hnew with hf | ⟨b, w₃, -, hstem⟩
      . exact not_fails_bindings hf
      dsimp only at hstem
      split at hstem
      . exact not_fails_pure hstem
      . simp only [fails_bind, not_fails_freshName, not_fails_pure, and_false, exists_false,
          or_false] at hstem
    rcases fails_bind.1 hassign with hf | ⟨v', w₃, -, hset⟩
    . exact not_fails_get hf
    rcases fails_bind.1 hset with hf | ⟨_, w₄, -, hf⟩
    . exact not_fails_modify hf
    . exact not_fails_pure hf

theorem IsNew.ne_empty {last last' : Nat} (h : IsNew last last' name) : name.isEmpty = false := by
  rcases h.1 with rfl | ⟨mark, stem, id, -, -, -, hname⟩
  . decide
  . rw [← Bool.not_eq_true, String.isEmpty_iff]
    rintro rfl
    simp at hname

theorem Proper.insert {t : CNames} {b : Bindings} {last last' : Nat} (h : t.Proper b last)
    (hle : last ≤ last') (hname : IsNew last last' name)
    (hcell : C.isCellName name.toList = (b.decl d).isCaptured) :
    CNames.Proper (t.insert d name) b last' where
  cell := by
    intro k s hs
    rcases CNames.name?_insert hs with ⟨rfl, rfl⟩ | hs
    . exact hcell
    . exact h.cell k s hs
  isName := by
    intro k s hs
    rcases CNames.name?_insert hs with ⟨-, rfl⟩ | hs
    . exact hname.1
    . exact (h.isName k s hs).mono hle
  inj := by
    intro k k' s hk hk' hs
    rcases CNames.name?_insert hk with ⟨rfl, rfl⟩ | hold <;>
      rcases CNames.name?_insert hk' with ⟨rfl, hs'⟩ | hold'
    . rfl
    . exact absurd (h.isName _ _ hold') (hname.2.resolve_left hs)
    . exact absurd (h.isName _ _ hold) (hs' ▸ hname.2.resolve_left (hs' ▸ hs))
    . exact h.inj k k' s hold hold' hs

theorem name?_of_runs_nameOf (h : Runs plan (nameOf d) w name w') :
    w'.names.name? d = some name := by
  obtain ⟨hname, rfl⟩ | ⟨-, last, -, hnew, -, rfl⟩ := runs_nameOf h
  . exact hname
  . exact CNames.name?_insert_self hnew.ne_empty

end Names

def Setting.IsNameOf (S : Setting) (d : Nat) (name : String) : Prop :=
  (∃ last, CNames.IsName last name) ∧
    C.isCellName name.toList = (S.bindings.decl d).isCaptured

theorem writes_nameOf (d : Nat) : Meets S pre (nameOf d) (S.IsNameOf d) (S.Named d) := by
  intro w hw
  refine ⟨?_, fun f hf => absurd hf not_fails_nameOf⟩
  intro name w' hr
  have hname := name?_of_runs_nameOf hr
  obtain ⟨hold, rfl⟩ | ⟨hnone, last, hlast, hnew, hcell, rfl⟩ := runs_nameOf hr
  . exact ⟨hw, .refl _, ⟨⟨_, hw.names.isName _ _ hold⟩, hw.names.cell _ _ hold⟩,
      fun _ hfinal _ => ⟨_, hfinal, hname⟩⟩
  . refine ⟨⟨hw.fn, hw.stack, Proper.insert hw.names hlast hnew hcell, hw.chain, hw.frames⟩, ?_,
      ⟨⟨_, hnew.1⟩, hcell⟩, fun _ hfinal _ => ⟨_, hfinal, hname⟩⟩
    exact { Setting.Grows.refl (S := S) w with
      lastName := hlast, names := CNames.le_insert hnone, frames := .refl _ }

def Setting.IsPlace (S : Setting) (d : Nat) (e : C.Expr) : Prop :=
  ∃ text, e = .var text ∧ C.Expr.isOwn text = false ∧ C.isCellName text.toList = false ∧
    IsStorage S.bindings S.fn S.Named d text

theorem Setting.IsPlace.reads {d : Nat} {e : C.Expr} (h : S.IsPlace d e) (hd : S.reaches d) :
    ∃ text, e = .var text ∧ C.Expr.isOwn text = false ∧ C.isCellName text.toList = false ∧
      S.reads text := by
  obtain ⟨text, rfl, htext, hcell, hstorage⟩ := h
  exact ⟨text, rfl, htext, hcell, S.reads_storage d text hd hstorage⟩

theorem writes_captureSlot {d : Nat} (hd : S.reaches d)
    (howner : (S.bindings.decl d).owner ≠ S.fn) :
    Writes S pre (captureSlot d) fun i => S.function.captures.index? d = some i := by
  unfold captureSlot
  apply Meets.function
  split
  . next i hi => exact .pure fun _ => hi
  . next hnone =>
    apply Meets.bindings
    exact .throw (S.faults_capture d hd howner hnone _ ⟨_, _, rfl⟩)

theorem writes_storage {d : Nat} (hd : S.reaches d) : Writes S pre (storage d) (S.IsPlace d) := by
  unfold storage
  apply Meets.bindings
  apply Meets.get
  intro w hw
  simp only [hw.fn, beq_iff_eq]
  split
  . next howner =>
    refine (writes_nameOf d).bind ?_
    rintro name ⟨⟨last, hname⟩, hcell⟩
    refine .pure ?_
    rintro ⟨_, hnamed⟩
    refine ⟨_, rfl, ?_, ?_, ?_⟩
    . split
      . simp [C.Expr.isOwn]
      . exact hname.isOwn
    . split
      . simp [C.isCellName, List.isPrefixOf_cons_cons]
      . next hfree => simpa [hfree] using hcell
    . rw [IsStorage, if_pos howner]
      exact ⟨name, hnamed, rfl⟩
  . next howner =>
    refine (writes_captureSlot hd howner).bind fun i _ => ?_
    refine .pure ?_
    rintro ⟨_, hi⟩
    refine ⟨_, rfl, by simp [C.Expr.isOwn, ToString.toString],
      by simp [C.isCellName, ToString.toString, List.isPrefixOf_cons_cons], ?_⟩
    rw [IsStorage, if_neg howner]
    exact ⟨i, hi, rfl⟩

theorem writes_cell {d : Nat} (hd : S.reaches d) :
    Writes S pre (cell d) (IsCell S.bindings S.fn S.Named d) := by
  unfold cell
  apply Meets.bindings
  apply Meets.get
  intro w hw
  simp only [hw.fn, beq_iff_eq]
  split
  . next howner =>
    refine (writes_nameOf d).bind fun name _ => ?_
    refine .pure ?_
    rintro ⟨_, hname⟩
    rw [IsCell, if_pos howner]
    exact ⟨name, hname, rfl⟩
  . next howner =>
    refine (writes_captureSlot hd howner).bind fun i _ => ?_
    refine .pure ?_
    rintro ⟨_, hi⟩
    rw [IsCell, if_neg howner]
    exact ⟨i, hi, rfl⟩

def Setting.Still (S : Setting) (e : C.Expr) : Prop := S.Part e ∧ e.traces .path = 1

theorem Setting.isVar_of_isCell {d fn : Nat} {e : C.Expr} {b : Bindings}
    {named : Nat → String → Prop} (h : IsCell b fn named d e) : ∃ text, e = .var text := by
  unfold IsCell at h
  split at h
  . obtain ⟨name, -, rfl⟩ := h
    exact ⟨_, rfl⟩
  . obtain ⟨i, -, rfl⟩ := h
    exact ⟨_, rfl⟩

theorem Setting.part_of_isCell {d : Nat} {e : C.Expr} (hd : S.reaches d)
    (h : IsCell S.bindings S.fn S.Named d e) : S.Part e := by
  obtain ⟨text, rfl⟩ := isVar_of_isCell h
  exact .inr (S.reads_cell d text hd h)

theorem Setting.still_of_isCell {d : Nat} {e : C.Expr} (hd : S.reaches d)
    (h : IsCell S.bindings S.fn S.Named d e) : S.Still e := by
  refine ⟨part_of_isCell hd h, ?_⟩
  obtain ⟨text, rfl⟩ := isVar_of_isCell h
  rfl

theorem writes_cells {list : List Nat} (h : ∀ d ∈ list, S.reaches d) :
    Writes S pre (cells list) (List.Forall₂ (IsCell S.bindings S.fn S.Named) list) := by
  induction list with
  | nil => exact .pure fun _ => .nil
  | cons d rest ih =>
    rw [List.forall_mem_cons] at h
    refine (writes_cell h.1).bind fun c _ => ?_
    refine ((ih h.2).mono And.left fun _ => id).bindOf id fun cs _ => ?_
    refine .pure ?_
    rintro ⟨⟨_, hc⟩, hcs⟩
    exact .cons hc hcs

theorem Setting.Slot.stays {e : C.Expr} (h : S.Slot e) : S.Still e := ⟨h.part, h.still⟩

theorem writes_load {d : Nat} (hd : S.reaches d) :
    Writes S pre (load d) fun e => S.Code e ∧ S.Still e := by
  unfold load
  apply Meets.bindings
  refine (writes_storage hd).bind fun v _ => ?_
  split
  . refine .pure ?_
    rintro ⟨_, hv⟩
    obtain ⟨text, rfl, -, -, hreads⟩ := hv.reads hd
    simp +decide [Setting.Code, Setting.Still, hreads]
  . apply Meets.get
    intro w hw
    split
    . refine writes_temp.bind ?_
      rintro _ ⟨id, rfl⟩
      refine .string fun name => ?_
      refine .pure ?_
      rintro ⟨⟨_, hv⟩, ht⟩
      obtain ⟨text, rfl, -, -, hreads⟩ := hv.reads hd
      simp +decide [Setting.Code, Setting.Still, hreads, ht.var]
    . refine .pure ?_
      rintro ⟨_, hv⟩
      obtain ⟨text, rfl, htext, -, hreads⟩ := hv.reads hd
      simp [Setting.Code, Setting.Still, htext, hreads]

theorem writes_loadOption {d : Option Nat} (hd : ∀ i, d = some i → S.reaches i) :
    Writes S pre (loadOption d) S.Still := by
  cases d with
  | none => exact .pure fun _ => by simp [Setting.Still]
  | some d => exact (writes_load (hd d rfl)).mono id fun _ h => h.2

theorem yields_emitRaw {text : String} (htext : C.isIdle text = true) :
    Yields S (emit [.raw text]) fun _ => True := by
  apply Meets.change
  intro w hw
  refine ⟨⟨hw.fn, hw.stack, hw.names, hw.chain, hw.frames⟩, ?_⟩
  exact { Setting.Grows.refl (S := S) w with body := ⟨[text], rfl, by simpa using htext⟩ }

theorem isIdle_void {name : String} {last : Nat} (h : CNames.IsName last name) :
    C.isIdle ("(void)" ++ name ++ ";") = true := by
  have htext : ("(void)" ++ name ++ ";").toList = "(void)".toList ++
    (name.toList ++ [';']) := by simp
  have hmention : C.isMention ("(void)" ++ name ++ ";") = true := by
    simp [C.isMention, htext, h.isNameChar, h.not_isReserved]
  rw [C.isIdle, hmention]
  rfl

theorem yields_declare (d : Nat) {init : C.Expr} (hinit : ∀ slot, init.Obeys (S.rules slot))
    (hstill : init.traces .path = 1) : Yields S (declare d init) fun _ => True := by
  unfold declare
  refine Meets.bindings fun w hw => (writes_nameOf d w hw).bind ?_
  rintro name w' hr hw' ⟨⟨last, hname⟩, hcell⟩
  have hrest : Meets S ((True ∧ S.Named d name) ∧ True) (if !(S.bindings.decl d).isReferenced then
      emit [.raw ("(void)" ++ name ++ ";")] else pure ⟨⟩) (fun _ => True) fun _ => True := by
    split
    . exact (yields_emitRaw (isIdle_void hname)).writes fun _ => id
    . exact .pure fun _ => trivial
  have hnamed := name?_of_runs_nameOf hr
  dsimp only
  split
  . refine MeetsFrom.bind (meetsFrom_declareC hw' ⟨.inr hname.isOwn, ?_, ?_, fun _ => ⟨rfl, _, rfl⟩⟩
      hname.not_isTemporary (.inr ⟨d, hnamed⟩)) fun _ v _ hv _ => hrest v hv
    . simp +decide [hinit]
    . simp +decide [hstill]
  . next hfree =>
    have hkeeps : C.isCellName name.toList = false := by simpa [hfree] using hcell
    exact MeetsFrom.bind (meetsFrom_declareC hw' ⟨.inr hname.isOwn, fun slot => .inr (hinit slot),
      hstill, .of_not hkeeps⟩ hname.not_isTemporary (.inr ⟨d, hnamed⟩)) fun _ v _ hv _ => hrest v hv

theorem yields_declareList (list : List Nat) : Yields S (declareList list) fun _ => True := by
  induction list with
  | nil => exact .pure fun _ => trivial
  | cons d rest ih =>
    unfold declareList
    apply Meets.bindings
    refine (yields_declare d ?_ ?_).andThen fun _ _ => ih
    . split <;> simp
    . split <;> simp

theorem yields_declareNames (sc : Nat) : Yields S (declareNames sc) fun _ => True := by
  unfold declareNames scopeDecls
  simp only [bind_assoc, pure_bind]
  apply Meets.bindings
  apply Meets.function
  exact yields_declareList _

theorem yields_declareOpened (n : Node) : Yields S (declareOpened n) fun _ => True := by
  unfold declareOpened
  apply Meets.bindings
  cases S.bindings.opened? n with
  | none => exact .pure fun _ => trivial
  | some sc => exact yields_declareNames sc

structure Ordered (S : Setting) (list : List C.Expr) (r : List C.Expr × List C.Expr) : Prop where
  first : S.Parts r.1
  values : S.Parts r.2
  length : r.2.length = list.length

theorem writes_spill (list : List C.Expr) : Writes S (S.Parts list) (spill list)
    (Ordered S list) := by
  fun_induction spill list with
  | case1 => exact .pure fun _ => ⟨trivial, trivial, rfl⟩
  | case2 e => exact .pure fun h => ⟨trivial, h, rfl⟩
  | case3 e rest _ _ ih =>
    refine ih.bindOf And.right fun r _ => ?_
    refine .pure ?_
    rintro ⟨h, hr⟩
    exact ⟨hr.first, ⟨h.1, hr.values⟩, congrArg (· + 1) hr.length⟩
  | case4 e rest _ _ ih =>
    refine writes_temp.bind fun t _ => ?_
    refine ih.bindOf (fun h => h.1.2) fun r _ => ?_
    refine .pure ?_
    rintro ⟨⟨h, ht⟩, hr⟩
    refine ⟨?_, ⟨ht.part, hr.values⟩, congrArg (· + 1) hr.length⟩
    simp [h.1, ht.part, ht.targets, hr.first]

theorem writes_inOrder (list : List C.Expr) :
    Writes S (S.Parts list) (inOrder list) (Ordered S list) := by
  unfold inOrder
  split
  . exact .pure fun h => ⟨trivial, h, rfl⟩
  . exact writes_spill list

theorem writes_settle (list : List C.Expr) :
    Writes S (S.Parts list) (settle list) (Ordered S list) := by
  fun_induction settle list with
  | case1 => exact .pure fun _ => ⟨trivial, trivial, rfl⟩
  | case2 e rest _ ih =>
    refine ih.bindOf And.right fun r _ => ?_
    refine .pure ?_
    rintro ⟨h, hr⟩
    exact ⟨hr.first, ⟨h.1, hr.values⟩, congrArg (· + 1) hr.length⟩
  | case3 e rest _ ih =>
    refine writes_temp.bind fun t _ => ?_
    refine ih.bindOf (fun h => h.1.2) fun r _ => ?_
    refine .pure ?_
    rintro ⟨⟨h, ht⟩, hr⟩
    refine ⟨?_, ⟨ht.part, hr.values⟩, congrArg (· + 1) hr.length⟩
    simp [h.1, ht.part, ht.targets, hr.first]

theorem writes_readableInOrder (list : List C.Expr) :
    Writes S (S.Parts list) (readableInOrder list) (Ordered S list) := by
  unfold readableInOrder
  refine (writes_inOrder list).bindOf id fun r _ => ?_
  refine (writes_settle r.2).bindOf (fun h => h.2.values) fun r' _ => ?_
  refine .pure ?_
  rintro ⟨⟨_, hr⟩, hr'⟩
  exact ⟨C.Expr.allObey_append.2 ⟨hr.first, hr'.first⟩, hr'.values, hr'.length.trans hr.length⟩

theorem Ordered.getD {list : List C.Expr} {r : List C.Expr × List C.Expr} (h : Ordered S list r)
    {i : Nat} (hi : i < list.length) : S.Part (r.2.getD i .missing) := by
  rw [List.getD_eq_getElem?_getD, List.getElem?_eq_getElem (h.length ▸ hi), Option.getD_some]
  exact C.Expr.allObey_iff.1 h.values _ (List.getElem_mem _)

theorem writes_readablePair (x y : C.Expr) : Writes S (S.Part x ∧ S.Part y) (readablePair x y)
    fun r => S.Parts r.1 ∧ S.Part r.2.1 ∧ S.Part r.2.2 := by
  unfold readablePair
  refine (writes_readableInOrder [x, y]).bindOf (fun h => by simpa using h) fun r _ => ?_
  refine .pure ?_
  rintro ⟨_, hr⟩
  exact ⟨hr.first, hr.getD (i := 0) (by simp), hr.getD (i := 1) (by simp)⟩

theorem writes_pairInOrder (x y : C.Expr) : Writes S (S.Part x ∧ S.Part y) (pairInOrder x y)
    fun r => S.Parts r.1 ∧ S.Part r.2.1 ∧ S.Part r.2.2 := by
  unfold pairInOrder
  refine (writes_inOrder [x, y]).bindOf (fun h => by simpa using h) fun r _ => ?_
  refine .pure ?_
  rintro ⟨_, hr⟩
  exact ⟨hr.first, hr.getD (i := 0) (by simp), hr.getD (i := 1) (by simp)⟩

theorem traces_of_isReadable {v : C.Expr} (h : isReadable v) : v.traces .path = 1 := by
  cases v with
  | raw => rfl
  | _ => exact C.Expr.traces_eq_one_of_isConstant h

theorem writes_readableForm (v : C.Expr) :
    Writes S (S.Part v) (readableForm v) fun r => S.Step r.1 ∧ S.Still r.2 := by
  unfold readableForm
  split
  . next hv => exact .pure fun h => ⟨.inl rfl, h, traces_of_isReadable hv⟩
  . refine writes_temp.bind fun t _ => ?_
    refine .pure ?_
    rintro ⟨h, ht⟩
    exact ⟨by simp [h, ht.part, ht.targets], ht.stays⟩

theorem writes_keep (v : C.Expr) :
    Writes S (S.Part v) (keep v) fun r => S.Parts r.1 ∧ S.Part r.2 := by
  unfold keep
  split
  . exact .pure fun h => ⟨trivial, h⟩
  . refine writes_temp.bind fun t _ => ?_
    exact .pure fun h => by simp [h.1, h.2.part, h.2.targets]

variable {e x y test fast slow : C.Expr}

theorem part_numberView (h : S.Part e) : S.Step (numberView e).1 ∧ S.Part (numberView e).2 := by
  unfold numberView
  split
  . split
    . exact ⟨.inl rfl, h.2.1⟩
    . simp [h]
  . simp [h]

-- A variable is read through its field, so only a constant stands for itself.
theorem isOwnVar_numberView : (numberView e).2.isOwnVar = false := by
  unfold numberView
  split
  . split
    . next h =>
      simp only [C.Expr.isConstant, C.Expr.allConst, Bool.and_eq_true] at h
      exact C.Expr.isOwnVar_of_isPlain (C.Expr.isPlain_of_isConstant h.2.2.1)
    . rfl
  . rfl

theorem part_preferFast (ht : S.Step test) (hf : S.Part fast) (hs : S.Part slow) :
    S.Part (preferFast test fast slow) := by
  unfold preferFast
  split
  . exact hf
  . next hne => exact ⟨ht.resolve_left hne, hf, hs⟩

theorem isPlain_preferFast (h : fast.isPlain) : (preferFast test fast slow).isPlain := by
  unfold preferFast
  split <;> simp_all

theorem isSolid_preferFast (h : fast.isSolid) : (preferFast test fast slow).isSolid := by
  unfold preferFast
  split <;> simp_all

end ScriptC.Lower
