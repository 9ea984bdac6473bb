import ScriptC.Proofs.Lower.Run
import ScriptC.Proofs.Lower.Setting

/-!
What writers may do. `Meets` is the judgement that a writer keeps to a setting. Writers of
expressions meet it and leave the control state alone.
-/

namespace ScriptC

def C.Decl.temporaries (decls : List Decl) : List String :=
  (decls.map (·.name)).filter fun s => C.isTemporary s.toList

@[simp]
theorem C.Decl.temporaries_append (a b : List Decl) :
    temporaries (a ++ b) = temporaries a ++ temporaries b := by
  simp [temporaries]

/-- What is declared to point to a cell points to a new one. -/
def C.Decl.KeepsCell (d : Decl) : Prop :=
  C.isCellName d.name.toList = true →
    d.type = Engine.typeValue ++ " *" ∧ ∃ v, d.init = .callEnv Engine.newCell [v]

theorem C.Decl.KeepsCell.of_not {d : Decl} (h : C.isCellName d.name.toList = false) :
    d.KeepsCell :=
  fun hcell => absurd hcell (by simp [h])

theorem isCellName_temporaryName {stem : String} (hstem : stem ∈ C.stems) (id : Nat) :
    C.isCellName (temporaryName stem id).toList = false := by
  simp only [C.stems, List.mem_cons, List.not_mem_nil, or_false] at hstem
  rcases hstem with rfl | rfl | rfl | rfl | rfl | rfl <;>
    simp [C.isCellName, temporaryName, ToString.toString, List.isPrefixOf_cons_cons]

structure Fresh (lo hi : Nat) (list : List String) : Prop where
  nodup : list.Nodup
  number : ∀ s ∈ list, ∃ stem ∈ C.stems, ∃ id : Nat, s = temporaryName stem id ∧ lo < id ∧ id ≤ hi

theorem Fresh.nil {lo hi : Nat} : Fresh lo hi [] := ⟨.nil, by simp⟩

theorem Fresh.mono {lo lo' hi hi' : Nat} {list : List String} (h : Fresh lo hi list)
    (hlo : lo' ≤ lo)
    (hhi : hi ≤ hi') : Fresh lo' hi' list := by
  refine ⟨h.nodup, fun s hs => ?_⟩
  obtain ⟨stem, hstem, id, rfl, h₁, h₂⟩ := h.number s hs
  exact ⟨stem, hstem, id, rfl, Nat.lt_of_le_of_lt hlo h₁, Nat.le_trans h₂ hhi⟩

theorem Fresh.append {lo mid hi : Nat} {a b : List String} (ha : Fresh lo mid a)
    (hb : Fresh mid hi b) (hlo : lo ≤ mid) (hhi : mid ≤ hi) : Fresh lo hi (a ++ b) := by
  constructor
  . refine List.nodup_append.2 ⟨ha.nodup, hb.nodup, ?_⟩
    rintro s hs s' hs' rfl
    obtain ⟨stem, -, id, rfl, -, h₁⟩ := ha.number s hs
    obtain ⟨stem', -, id', heq, h₂, -⟩ := hb.number _ hs'
    obtain ⟨-, rfl⟩ := temporaryName_inj.1 heq
    exact absurd h₂ (Nat.not_lt.2 h₁)
  . intro s hs
    rcases List.mem_append.1 hs with hs | hs
    . exact (ha.mono (Nat.le_refl _) hhi).number s hs
    . exact (hb.mono hlo (Nat.le_refl _)).number s hs

namespace Lower

def frameNames : List String := ["closures", "shape_cache", "stk_ptr"]

namespace Setting

variable (S : Setting)

def Code (e : C.Expr) : Prop := S.Part e ∧ e.isPlain

structure Slot (e : C.Expr) : Prop where
  obeys : ∀ slot, e.Obeys (S.rules slot)
  targets : ∀ slot v, (S.rules slot).targets e v
  pointer : S.reads ("&" ++ e.render)
  still : e.traces .path = 1

structure Silent (d : C.Decl) : Prop where
  name : d.init = .missing ∨ C.Expr.isOwn d.name = false
  init : ∀ slot, C.Expr.Step (S.rules slot) d.init
  still : d.init.traces .path = 1
  cell : d.KeepsCell

structure Added (lo hi : Nat) (t : CNames) (more : List C.Decl) : Prop where
  silent : ∀ d ∈ more, S.Silent d
  fresh : Fresh lo hi (C.Decl.temporaries more)
  named : ∀ d ∈ more, C.isTemporary d.name.toList = true ∨ d.name ∈ frameNames ∨
    ∃ k, t.name? k = some d.name

def Extends (lo hi : Nat) (t : CNames) : List (List C.Decl) → List (List C.Decl) → Prop
  | [], blocks => blocks = []
  | top :: outer, blocks => ∃ more, blocks = (top ++ more) :: outer ∧ S.Added lo hi t more

structure Grows (w w' : Writer) : Prop where
  lastName : w.lastName ≤ w'.lastName
  names : w.names.Le w'.names
  frames : S.Extends w.lastName w'.lastName w'.names w.frames.blocks w'.frames.blocks
  body : ∃ texts : List String, w'.body = w.body ++ texts.map C.Stmt.raw ∧
    ∀ text ∈ texts, C.isIdle text = true
  stack : w'.stack = w.stack
  chain : w'.chain = w.chain
  exits : w'.exits = w.exits
  targets : w'.targets = w.targets
  labels : w'.labels = w.labels
  breaks : w'.breaks = w.breaks
  continues : w'.continues = w.continues
  pending : w'.pending = w.pending

structure Ready (w : Writer) : Prop where
  fn : w.fn = S.fn
  stack : w.stack = S.stack
  names : w.names.Proper S.bindings w.lastName
  chain : ∀ e, w.chain = some e → S.shows w.frames → S.Slot e
  frames : w.frames.blocks ≠ []

variable {S}

theorem Slot.part {e : C.Expr} (h : S.Slot e) : S.Part e := h.obeys _

theorem slot_var {text : String} (hcell : C.isCellName text.toList = false) (h : S.reads text)
    (h' : S.reads ("&" ++ text)) : S.Slot (.var text) where
  obeys _ := .inr h
  targets _ _ := targets_raw hcell
  pointer := h'
  still := rfl

@[simp]
theorem targets_tmp {slot id : Nat} {c : Bool} {v : C.Expr} :
    (S.rules slot).targets (.raw (temporaryName "tmp" id) c) v :=
  targets_raw (isCellName_temporaryName (by decide) id)

@[simp]
theorem targets_opt {slot id : Nat} {c : Bool} {v : C.Expr} :
    (S.rules slot).targets (.raw (temporaryName "opt" id) c) v :=
  targets_raw (isCellName_temporaryName (by decide) id)

theorem Slot.var {text : String} (h : S.Slot (.var text)) : S.reads text :=
  (h.obeys 0).resolve_left Bool.false_ne_true

theorem Added.nil {lo hi : Nat} {t : CNames} : S.Added lo hi t [] := ⟨by simp, .nil, by simp⟩

theorem Added.append {lo mid hi : Nat} {t t' : CNames} {a b : List C.Decl} (ha : S.Added lo mid t a)
    (hb : S.Added mid hi t' b) (hlo : lo ≤ mid) (hhi : mid ≤ hi) (hle : t.Le t') :
    S.Added lo hi t' (a ++ b) where
  silent := List.forall_mem_append.2 ⟨ha.silent, hb.silent⟩
  fresh := by
    rw [C.Decl.temporaries_append]
    exact ha.fresh.append hb.fresh hlo hhi
  named := by
    refine List.forall_mem_append.2 ⟨fun d hd => ?_, hb.named⟩
    rcases ha.named d hd with h | h | ⟨k, hk⟩
    . exact .inl h
    . exact .inr (.inl h)
    . exact .inr (.inr ⟨k, hle k _ hk⟩)

theorem Extends.refl {lo hi : Nat} {t : CNames} (blocks : List (List C.Decl)) :
    S.Extends lo hi t blocks blocks := by
  cases blocks with
  | nil => rfl
  | cons top outer => exact ⟨[], by simp, .nil⟩

theorem Extends.trans {lo mid hi : Nat} {t t' : CNames} {a b c : List (List C.Decl)}
    (h : S.Extends lo mid t a b) (h' : S.Extends mid hi t' b c) (hlo : lo ≤ mid) (hhi : mid ≤ hi)
    (hle : t.Le t') : S.Extends lo hi t' a c := by
  cases a with
  | nil =>
    cases h
    exact h'
  | cons top outer =>
    obtain ⟨more, rfl, hmore⟩ := h
    obtain ⟨more', rfl, hmore'⟩ := h'
    exact ⟨more ++ more', by simp, hmore.append hmore' hlo hhi hle⟩

theorem Extends.subset {lo hi : Nat} {t : CNames} {f f' : Frames}
    (h : S.Extends lo hi t f.blocks f'.blocks) : f.names ⊆ f'.names := by
  intro s hs
  unfold Frames.names at *
  cases hb : f.blocks with
  | nil => simp [hb] at hs
  | cons top outer =>
    rw [hb] at h hs
    obtain ⟨more, hf', -⟩ := h
    rw [hf']
    simp only [List.flatten_cons, List.map_append, List.mem_append] at hs ⊢
    tauto

theorem Extends.ne_nil {lo hi : Nat} {t : CNames} {a b : List (List C.Decl)}
    (h : S.Extends lo hi t a b) (ha : a ≠ []) : b ≠ [] := by
  cases a with
  | nil => exact absurd rfl ha
  | cons top outer =>
    obtain ⟨more, rfl, -⟩ := h
    simp

theorem Grows.refl (w : Writer) : S.Grows w w where
  lastName := Nat.le_refl _
  names := .refl _
  frames := .refl _
  body := ⟨[], by simp⟩
  stack := rfl
  chain := rfl
  exits := rfl
  targets := rfl
  labels := rfl
  breaks := rfl
  continues := rfl
  pending := rfl

theorem Grows.trans {w w' w'' : Writer} (h : S.Grows w w') (h' : S.Grows w' w'') :
    S.Grows w w'' where
  lastName := Nat.le_trans h.lastName h'.lastName
  names := h.names.trans h'.names
  frames := h.frames.trans h'.frames h.lastName h'.lastName h'.names
  body := by
    obtain ⟨a, ha, hfree⟩ := h.body
    obtain ⟨b, hb, hfree'⟩ := h'.body
    exact ⟨a ++ b, by simp [ha, hb], List.forall_mem_append.2 ⟨hfree, hfree'⟩⟩
  stack := h'.stack.trans h.stack
  chain := h'.chain.trans h.chain
  exits := h'.exits.trans h.exits
  targets := h'.targets.trans h.targets
  labels := h'.labels.trans h.labels
  breaks := h'.breaks.trans h.breaks
  continues := h'.continues.trans h.continues
  pending := h'.pending.trans h.pending

theorem Grows.shows {w w' : Writer} (h : S.Grows w w') (hs : S.shows w'.frames) :
    S.shows w.frames :=
  S.shows_of_subset h.frames.subset hs

end Setting

/--
From a state on a writer of expressions keeps to a setting: what it yields is in `P₀`, and it fails
in the faults of the setting. Given `pre`, the code it yields is in `P`.
-/
def MeetsFrom {α : Type} (S : Setting) (pre : Prop) (w : Writer) (act : Lower α) (P₀ P : α → Prop) :
    Prop :=
  (∀ a w', Runs S.plan act w a w' →
    S.Ready w' ∧ S.Grows w w' ∧ P₀ a ∧ (pre → S.final w'.names → S.shows w'.frames → P a)) ∧
  ∀ f, Fails S.plan act w f → S.faults f

def Meets {α : Type} (S : Setting) (pre : Prop) (act : Lower α) (P₀ P : α → Prop) : Prop :=
  ∀ w, S.Ready w → MeetsFrom S pre w act P₀ P

abbrev Writes {α : Type} (S : Setting) (pre : Prop) (act : Lower α) (P : α → Prop) : Prop :=
  Meets S pre act (fun _ => True) P

abbrev Yields {α : Type} (S : Setting) (act : Lower α) (P₀ : α → Prop) : Prop :=
  Meets S True act P₀ fun _ => True

namespace MeetsFrom

variable {α β : Type} {S : Setting} {pre : Prop} {w : Writer} {x : Lower α} {g : α → Lower β}
  {P₀ P : α → Prop} {Q₀ Q : β → Prop}

-- The state between the two writers is at hand for the second one.
theorem bind (hx : MeetsFrom S pre w x P₀ P)
    (hg : ∀ a w', Runs S.plan x w a w' → S.Ready w' → P₀ a → MeetsFrom S (pre ∧ P a)
      w' (g a) Q₀ Q) :
    MeetsFrom S pre w (x >>= g) Q₀ Q := by
  constructor
  . intro b w'' h
    obtain ⟨a, w', hxa, hga⟩ := runs_bind.1 h
    obtain ⟨hw', hgrows, ha₀, ha⟩ := hx.1 a w' hxa
    obtain ⟨hw'', hgrows', hb₀, hb⟩ := (hg a w' hxa hw' ha₀).1 b w'' hga
    refine ⟨hw'', hgrows.trans hgrows', hb₀, ?_⟩
    intro h hfinal hshows
    have ha := ha h (S.final_of_le hgrows'.names hfinal) (hgrows'.shows hshows)
    exact hb ⟨h, ha⟩ hfinal hshows
  . intro f h
    rcases fails_bind.1 h with h | ⟨a, w', hxa, hga⟩
    . exact hx.2 f h
    . obtain ⟨hw', -, ha₀, -⟩ := hx.1 a w' hxa
      exact (hg a w' hxa hw' ha₀).2 f hga

theorem mono {pre' : Prop} {P' : α → Prop} (hx : MeetsFrom S pre' w x P₀ P) (hpre : pre → pre')
    (h : ∀ a, P a → P' a) : MeetsFrom S pre w x P₀ P' := by
  refine ⟨?_, hx.2⟩
  intro a w' hr
  obtain ⟨hw', hgrows, h₀, hP⟩ := hx.1 a w' hr
  exact ⟨hw', hgrows, h₀, fun hp hfinal hshows => h a (hP (hpre hp) hfinal hshows)⟩

theorem pure {b : β} (hw : S.Ready w) (h₀ : Q₀ b)
    (h : pre → S.final w.names → S.shows w.frames → Q b) :
    MeetsFrom S pre w (pure b) Q₀ Q := by
  constructor
  . intro b' w' hr
    obtain ⟨rfl, rfl⟩ := runs_pure.1 hr
    exact ⟨hw, .refl _, h₀, h⟩
  . intro f hf
    exact absurd hf not_fails_pure

theorem get {g : Writer → Lower β} (h : MeetsFrom S pre w (g w) Q₀ Q) :
    MeetsFrom S pre w (get >>= g) Q₀ Q := by
  constructor
  . intro b w' hr
    obtain ⟨a, v, hr, hg⟩ := runs_bind.1 hr
    obtain ⟨rfl, rfl⟩ := runs_get.1 hr
    exact h.1 b w' hg
  . intro f hf
    rcases fails_bind.1 hf with hf | ⟨a, v, hr, hg⟩
    . exact absurd hf not_fails_get
    . obtain ⟨rfl, rfl⟩ := runs_get.1 hr
      exact h.2 f hg

end MeetsFrom

namespace Meets

variable {α β : Type} {S : Setting} {pre pre' : Prop} {x : Lower α} {g : α → Lower β}
  {P₀ P P' : α → Prop} {Q₀ Q : β → Prop}

theorem mono (hx : Meets S pre' x P₀ P) (hpre : pre → pre') (h : ∀ a, P a → P' a) :
    Meets S pre x P₀ P' :=
  fun w hw => (hx w hw).mono hpre h

theorem bindOf (hx : Meets S pre' x P₀ P) (hpre : pre → pre')
    (hg : ∀ a, P₀ a → Meets S (pre ∧ P a) (g a) Q₀ Q) : Meets S pre (x >>= g) Q₀ Q :=
  fun w hw => ((hx.mono hpre fun _ => id) w hw).bind fun a w' _ hw' ha => hg a ha w' hw'

theorem bind (hx : Meets S True x P₀ P) (hg : ∀ a, P₀ a → Meets S (pre ∧ P a) (g a) Q₀ Q) :
    Meets S pre (x >>= g) Q₀ Q :=
  hx.bindOf (fun _ => trivial) hg

theorem andThen (hx : Meets S True x P₀ P) (hg : ∀ a, P₀ a → Meets S pre (g a) Q₀ Q) :
    Meets S pre (x >>= g) Q₀ Q :=
  hx.bind fun a ha => (hg a ha).mono And.left fun _ => id

theorem pureOf {a : α} (h₀ : P₀ a) (h : pre → P a) : Meets S pre (pure a) P₀ P :=
  fun _ hw => .pure hw h₀ fun hpre _ _ => h hpre

theorem pure {a : α} (h : pre → P a) : Meets S pre (pure a) (fun _ => True) P :=
  pureOf trivial h

theorem weakenYield {P₁ : α → Prop} (hx : Meets S pre x P₀ P) (h : ∀ a, P₀ a → P₁ a) :
    Meets S pre x P₁ P := by
  intro w hw
  refine ⟨?_, (hx w hw).2⟩
  intro a w' hr
  obtain ⟨hw', hR, h₀, hP⟩ := (hx w hw).1 a w' hr
  exact ⟨hw', hR, h a h₀, hP⟩

theorem map {g : α → β} (hx : Meets S pre x P₀ P) (h : ∀ a, P a → Q (g a)) :
    Meets S pre (g <$> x) (fun _ => True) Q := by
  rw [map_eq_pure_bind]
  exact hx.bindOf id fun a _ => .pure fun ha => h a ha.2

theorem writes (hx : Meets S True x P₀ P) (h : ∀ a, P₀ a → P' a) :
    Meets S pre x (fun _ => True) P' := by
  intro w hw
  refine ⟨?_, (hx w hw).2⟩
  intro a w' hr
  obtain ⟨hw', hR, h₀, -⟩ := (hx w hw).1 a w' hr
  exact ⟨hw', hR, trivial, fun _ _ _ => h a h₀⟩

theorem throw {f : Fault} (h : S.faults f) : Meets S pre (throw f : Lower α) P₀ P := by
  intro w hw
  constructor
  . intro a w' hr
    exact absurd hr not_runs_throw
  . intro f' hf
    rw [fails_throw.1 hf]
    exact h

theorem fail {n : Node} {f : LoweringFault} (h : (∀ name cname, f ≠ .notCaptured name cname) ∧
    ∀ message, f ≠ .frame message) : Meets S pre (failLowering n f : Lower α) P₀ P := by
  apply throw
  apply S.faults_of_other
  . rintro ⟨name, cname, hf⟩
    simp only [Node.loweringFault, Cause.lowering.injEq] at hf
    exact h.1 _ _ hf
  . rintro ⟨message, hf⟩
    simp only [Node.loweringFault, Cause.lowering.injEq] at hf
    exact h.2 _ hf

theorem change {change : Writer → Writer} (h : ∀ w, S.Ready w → S.Ready (change w) ∧
    S.Grows w (change w)) :
    Meets S pre (modify change : Lower PUnit) (fun _ => True) fun _ => True := by
  intro w hw
  constructor
  . intro a w' hr
    obtain rfl := runs_modify.1 hr
    obtain ⟨hw', hR⟩ := h w hw
    exact ⟨hw', hR, trivial, fun _ _ _ => trivial⟩
  . intro f hf
    exact absurd hf not_fails_modify

-- Literals and the other fields that only the rest of the file reads are free to change.
theorem modifyThen {change : Writer → Writer} {g : PUnit → Lower β} (h : ∀ w, S.Grows w (change w))
    (hready : ∀ w, S.Ready w → S.Ready (change w)) (hg : Meets S pre (g ⟨⟩) Q₀ Q) :
    Meets S pre (modify change >>= g) Q₀ Q :=
  (Meets.change fun w hw => ⟨hready w hw, h w⟩).andThen fun _ _ => hg

theorem get {g : Writer → Lower β} (h : ∀ w, S.Ready w → Meets S pre (g w) Q₀ Q) :
    Meets S pre (get >>= g) Q₀ Q :=
  fun w hw => (h w hw w hw).get

-- What is read off the state goes into the code while the same blocks are open.
theorem getShown {g : Writer → Lower β}
    (h : ∀ w, S.Ready w → Meets S (pre ∧ S.shows w.frames) (g w) Q₀ Q) :
    Meets S pre (MonadState.get >>= g) Q₀ Q := by
  intro w hw
  obtain ⟨hruns, hfails⟩ := h w hw w hw
  refine MeetsFrom.get ⟨?_, hfails⟩
  intro b w' hr
  obtain ⟨hw', hgrows, h₀, hQ⟩ := hruns b w' hr
  exact ⟨hw', hgrows, h₀, fun hpre hf hs => hQ ⟨hpre, hgrows.shows hs⟩ hf hs⟩

theorem read {g : Plan → Lower β} (h : Meets S pre (g S.plan) Q₀ Q) :
    Meets S pre (read >>= g) Q₀ Q := by
  intro w hw
  constructor
  . intro b w' hr
    obtain ⟨a, v, hr, hg⟩ := runs_bind.1 hr
    obtain ⟨rfl, rfl⟩ := runs_read.1 hr
    exact (h _ hw).1 b w' hg
  . intro f hf
    rcases fails_bind.1 hf with hf | ⟨a, v, hr, hg⟩
    . exact absurd hf not_fails_read
    . obtain ⟨rfl, rfl⟩ := runs_read.1 hr
      exact (h _ hw).2 f hg

theorem bindings {g : Bindings → Lower β} (h : Meets S pre (g S.bindings) Q₀ Q) :
    Meets S pre (bindings >>= g) Q₀ Q := by
  unfold Lower.bindings
  simp only [bind_assoc, pure_bind]
  exact read h

theorem function {g : Function → Lower β} (h : Meets S pre (g S.function) Q₀ Q) :
    Meets S pre (function >>= g) Q₀ Q := by
  unfold Lower.function
  simp only [bind_assoc, pure_bind]
  refine bindings (get fun w hw => ?_)
  rw [hw.fn]
  exact h

theorem thisOwner {g : Function → Lower β} (h : Meets S pre (g S.thisOwner) Q₀ Q) :
    Meets S pre (thisOwner >>= g) Q₀ Q := by
  unfold Lower.thisOwner
  simp only [bind_assoc, pure_bind]
  refine bindings (get fun w hw => ?_)
  rw [hw.fn]
  exact h

end Meets
end Lower
end ScriptC
