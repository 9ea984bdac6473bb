import ScriptC.Proofs.Flow.Laid

/-!
The judgement that a writer of statements lays code of a form, and what the helpers of such writers
do.
-/

namespace ScriptC

open C

structure Marks where
  last : Nat
  breaks : List Nat
  continues : List Nat

structure Marks.Le (m m' : Marks) : Prop where
  last : m.last ≤ m'.last
  breaks : m.breaks ⊆ m'.breaks
  continues : m.continues ⊆ m'.continues

theorem Marks.Le.refl (m : Marks) : m.Le m := ⟨Nat.le_refl _, fun _ h => h, fun _ h => h⟩

theorem Marks.Le.trans {m m' m'' : Marks} (h : m.Le m') (h' : m'.Le m'') : m.Le m'' where
  last := Nat.le_trans h.last h'.last
  breaks := fun _ hx => h'.breaks (h.breaks hx)
  continues := fun _ hx => h'.continues (h.continues hx)

structure Pending.Le (p q : Pending) : Prop where
  returns : p.returns = true → q.returns = true
  jumps : p.jumps <+: q.jumps

theorem Pending.Le.refl (p : Pending) : p.Le p := ⟨id, List.prefix_rfl⟩

theorem Pending.Le.trans {p q r : Pending} (h : p.Le q) (h' : q.Le r) : p.Le r :=
  ⟨fun hp => h'.returns (h.returns hp), h.jumps.trans h'.jumps⟩

theorem Pending.Le.get {p q : Pending} {i : Nat} {j : Target × Bool} (h : p.Le q)
    (hj : p.jumps[i]? = some j) : q.jumps[i]? = some j := by
  obtain ⟨more, hmore⟩ := h.jumps
  obtain ⟨hlt, -⟩ := List.getElem?_eq_some_iff.1 hj
  rw [← hmore, List.getElem?_append_left hlt, hj]

namespace Writer

def marks (w : Writer) : Marks := ⟨w.lastName, w.breaks, w.continues⟩

def pendingAt (w : Writer) (id : Nat) : Pending := (w.pending.lookup id).getD {}

theorem pendingAt_set (w : Writer) (id id' : Nat) (p : Pending) :
    ({ w with pending := (id, p) :: w.pending.filter fun q => q.1 != id } : Writer).pendingAt id' =
      if id' = id then p else w.pendingAt id' := by
  unfold pendingAt
  by_cases h : id' = id
  . simp [h]
  . have hbeq : (id' == id) = false := beq_eq_false_iff_ne.2 h
    rw [if_neg h]
    have hfilter : ∀ list : List (Nat × Pending),
        (list.filter fun q => q.1 != id).lookup id' = list.lookup id' := by
      intro list
      induction list with
      | nil => rfl
      | cons q list ih =>
        obtain ⟨k, q⟩ := q
        by_cases hk : k = id
        . subst hk
          simp [List.lookup_cons, ih, hbeq]
        . simp [List.lookup_cons, ih, hk]
    simp [List.lookup_cons, hfilter, hbeq]

end Writer

def finalizerIds : List Exit → List Nat
  | [] => []
  | .finalizer f :: rest => f.id :: finalizerIds rest
  | _ :: rest => finalizerIds rest

theorem finalizerIds_append (X Y : List Exit) :
    finalizerIds (X ++ Y) = finalizerIds X ++ finalizerIds Y := by
  induction X with
  | nil => rfl
  | cons x X ih => cases x <;> simp [finalizerIds, ih]

def Exit.isPlain : Exit → Bool
  | .finalizer _ => false
  | _ => true

theorem finalizerIds_of_isPlain {x : Exit} {X : List Exit} (h : x.isPlain) :
    finalizerIds (x :: X) = finalizerIds X := by
  cases x <;> first | rfl | cases h

theorem sublist_finalizerIds (x : Exit) (X : List Exit) :
    (finalizerIds X).Sublist (finalizerIds (x :: X)) := by
  cases x <;> simp [finalizerIds]

namespace Lower

structure Stage (S : Setting) (X : List Exit) (T : List Target) (L : List String) (w : Writer) :
    Prop where
  ready : S.Ready w
  chain : w.chain = none
  exits : w.exits = X
  targets : w.targets = T
  labels : w.labels = L
  known : ∀ t ∈ T, t.id ≤ w.lastName
  distinct : (T.map Target.id).Nodup
  finals : (finalizerIds X).Nodup
  old : ∀ id ∈ finalizerIds X, id ≤ w.lastName
  fresh : ∀ id, w.lastName < id → w.pendingAt id = {}
  routed : ∀ Y f Z, X = Y ++ .finalizer f :: Z →
    ∀ j ∈ (w.pendingAt f.id).jumps, Admits T j.1 j.2 ∧ j.1.depth ≤ Z.length

structure Step (S : Setting) (X : List Exit) (w w' : Writer) (code : List C.Stmt) : Prop where
  marks : w.marks.Le w'.marks
  names : w.names.Le w'.names
  frames : S.Extends w.lastName w'.lastName w'.names w.frames.blocks w'.frames.blocks
  pending : ∀ id ≤ w.lastName, (w.pendingAt id).Le (w'.pendingAt id) ∧
    (id ∉ finalizerIds X → w'.pendingAt id = w.pendingAt id)
  body : ∃ more, w'.body = w.body ++ more ∧ Stmt.coreList more = code

theorem Step.refl {S : Setting} {X : List Exit} (w : Writer) : Step S X w w [] where
  marks := .refl _
  names := .refl _
  frames := .refl _
  pending := fun _ _ => ⟨.refl _, fun _ => rfl⟩
  body := ⟨[], by simp⟩

theorem Step.trans {S : Setting} {X : List Exit} {w v w' : Writer} {c d : List C.Stmt}
    (h : Step S X w v c) (h' : Step S X v w' d) : Step S X w w' (c ++ d) where
  marks := h.marks.trans h'.marks
  names := h.names.trans h'.names
  frames := h.frames.trans h'.frames h.marks.last h'.marks.last h'.names
  pending := by
    intro id hid
    have h := h.pending id hid
    have h' := h'.pending id (Nat.le_trans hid (‹Step S X w v c›.marks.last))
    exact ⟨h.1.trans h'.1, fun hn => (h'.2 hn).trans (h.2 hn)⟩
  body := by
    obtain ⟨a, ha, hc⟩ := h.body
    obtain ⟨b, hb, hd⟩ := h'.body
    exact ⟨a ++ b, by rw [hb, ha, List.append_assoc], by rw [Stmt.coreList_append, hc, hd]⟩

theorem Step.mono {S : Setting} {X Y : List Exit} {w w' : Writer} {c : List C.Stmt}
    (h : Step S X w w' c) (hsub : finalizerIds X ⊆ finalizerIds Y) : Step S Y w w' c :=
  { h with pending := fun id hid =>
      ⟨(h.pending id hid).1, fun hn => (h.pending id hid).2 fun hm => hn (hsub hm)⟩ }

def Agrees (X : List Exit) (w : Writer) (P : Nat → Pending) : Prop :=
  ∀ id ∈ finalizerIds X, (w.pendingAt id).Le (P id)

theorem Agrees.before {S : Setting} {X : List Exit} {w v : Writer} {P : Nat → Pending}
    {code : List C.Stmt} (h : Agrees X v P) (hold : ∀ id ∈ finalizerIds X, id ≤ w.lastName)
    (hs : Step S X w v code) : Agrees X w P :=
  fun id hid => (hs.pending id (hold id hid)).1.trans (h id hid)

/--
What is asked of code: given the exits that go through open `finally` blocks in the end, the notes
before and after, and what the writer yields.
-/
abbrev Form (α : Type) := (Nat → Pending) → Marks → Marks → α → List C.Stmt → Prop

/--
From a state on a writer lays code: it comes to a stage again, what it yields is in `P₀`, and the
code is of a form.
-/
def LaysFrom {α : Type} (S : Setting) (X : List Exit) (w : Writer) (act : Lower α)
    (T' : α → List Target) (L' : α → List String) (P₀ : α → Prop) (F : Form α) : Prop :=
  (∀ a w', Runs S.plan act w a w' → Stage S X (T' a) (L' a) w' ∧ P₀ a ∧ ∃ code,
    Step S X w w' code ∧
      (S.final w'.names → ∀ P, Agrees X w' P → F P w.marks w'.marks a code)) ∧
  ∀ f, Fails S.plan act w f → S.faults f

def Lays {α : Type} (S : Setting) (X : List Exit) (T : List Target) (L : List String)
    (act : Lower α)
    (T' : α → List Target) (L' : α → List String) (P₀ : α → Prop) (F : Form α) : Prop :=
  ∀ w, Stage S X T L w → LaysFrom S X w act T' L' P₀ F

abbrev LaysHere {α : Type} (S : Setting) (X : List Exit) (T : List Target) (L : List String)
    (act : Lower α) (F : Form α) : Prop :=
  Lays S X T L act (fun _ => T) (fun _ => L) (fun _ => True) F

namespace Lays

variable {α β : Type} {S : Setting} {X : List Exit} {T : List Target} {L : List String}
  {x : Lower α} {g : α → Lower β} {T' : α → List Target} {L' : α → List String}
  {T'' : β → List Target} {L'' : β → List String} {P₀ P₁ : α → Prop} {Q₀ : β → Prop}
  {F F' : Form α} {G : Form β}

-- What the first writer lays is at hand when the code of the second one is judged.
theorem bind (hx : Lays S X T L x T' L' P₀ F)
    (hg : ∀ a, P₀ a → Lays S X (T' a) (L' a) (g a) T'' L'' Q₀ fun P m m'' b d =>
      ∀ m₀ c, F P m₀ m a c → m₀.Le m → m.Le m'' → G P m₀ m'' b (c ++ d)) :
    Lays S X T L (x >>= g) T'' L'' Q₀ G := by
  intro w hw
  constructor
  . intro b w'' h
    obtain ⟨a, w', hxa, hga⟩ := runs_bind.1 h
    obtain ⟨hw', ha, c, hstep, hF⟩ := (hx w hw).1 a w' hxa
    obtain ⟨hw'', hb, d, hstep', hG⟩ := (hg a ha w' hw').1 b w'' hga
    refine ⟨hw'', hb, c ++ d, hstep.trans hstep', ?_⟩
    intro hfinal P hP
    have hP' : Agrees X w' P := hP.before hw'.old hstep'
    have hfinal' := S.final_of_le hstep'.names hfinal
    exact hG hfinal P hP _ c (hF hfinal' P hP') hstep.marks hstep'.marks
  . intro f h
    rcases fails_bind.1 h with h | ⟨a, w', hxa, hga⟩
    . exact (hx w hw).2 f h
    . obtain ⟨hw', ha, -⟩ := (hx w hw).1 a w' hxa
      exact (hg a ha w' hw').2 f hga

-- The same from one state on, with the states on the way at hand.
theorem bindFrom {w : Writer} (hw : Stage S X T L w) (hx : Lays S X T L x T' L' P₀ F)
    (hg : ∀ a v c, Runs S.plan x w a v → Step S X w v c → Stage S X (T' a) (L' a) v → P₀ a →
      LaysFrom S X v (g a) T'' L'' Q₀ fun P m m'' b d =>
        F P w.marks m a c → m.Le m'' → G P w.marks m'' b (c ++ d)) :
    LaysFrom S X w (x >>= g) T'' L'' Q₀ G := by
  constructor
  . intro b w'' h
    obtain ⟨a, w', hxa, hga⟩ := runs_bind.1 h
    obtain ⟨hw', ha, c, hstep, hF⟩ := (hx w hw).1 a w' hxa
    obtain ⟨hw'', hb, d, hstep', hG⟩ := (hg a w' c hxa hstep hw' ha).1 b w'' hga
    refine ⟨hw'', hb, c ++ d, hstep.trans hstep', ?_⟩
    intro hfinal P hP
    have hP' : Agrees X w' P := hP.before hw'.old hstep'
    have hfinal' := S.final_of_le hstep'.names hfinal
    exact hG hfinal P hP (hF hfinal' P hP') hstep'.marks
  . intro f h
    rcases fails_bind.1 h with h | ⟨a, w', hxa, hga⟩
    . exact (hx w hw).2 f h
    . obtain ⟨hw', ha, c, hstep, -⟩ := (hx w hw).1 a w' hxa
      exact (hg a w' c hxa hstep hw' ha).2 f hga

theorem mono (hx : Lays S X T L x T' L' P₀ F)
    (h : ∀ P m m' a c, m.Le m' → P₀ a → F P m m' a c → F' P m m' a c) :
    Lays S X T L x T' L' P₀ F' := by
  intro w hw
  refine ⟨?_, (hx w hw).2⟩
  intro a w' hr
  obtain ⟨hw', ha, c, hstep, hF⟩ := (hx w hw).1 a w' hr
  exact ⟨hw', ha, c, hstep, fun hf P hP => h P _ _ a c hstep.marks ha (hF hf P hP)⟩

theorem weakenYield (hx : Lays S X T L x T' L' P₀ F) (h : ∀ a, P₀ a → P₁ a) :
    Lays S X T L x T' L' P₁ F := by
  intro w hw
  refine ⟨?_, (hx w hw).2⟩
  intro a w' hr
  obtain ⟨hw', ha, hrest⟩ := (hx w hw).1 a w' hr
  exact ⟨hw', h a ha, hrest⟩

theorem pure {a : α} (h₀ : P₀ a) (h : ∀ P m, F P m m a []) :
    Lays S X T L (pure a) (fun _ => T) (fun _ => L) P₀ F := by
  intro w hw
  constructor
  . intro b w' hr
    obtain ⟨rfl, rfl⟩ := runs_pure.1 hr
    exact ⟨hw, h₀, [], .refl _, fun _ P _ => h P _⟩
  . intro f hf
    exact absurd hf not_fails_pure

theorem fail {n : Node} {f : LoweringFault} (h : (∀ name cname, f ≠ .notCaptured name cname) ∧
    ∀ message, f ≠ .frame message) : Lays S X T L (failLowering n f : Lower α) T' L' P₀ F := by
  intro w hw
  have hfail : Yields S (failLowering n f : Lower α) fun _ => True := Meets.fail h
  refine ⟨fun a w' hr => absurd hr not_runs_throw, fun f' hf => ?_⟩
  exact (hfail w hw.ready).2 f' hf

theorem leaf {pre : Prop} {P : α → Prop} (hx : Meets S pre x P₀ P) :
    Lays S X T L x (fun _ => T) (fun _ => L) P₀ fun _ _ _ a c => c = [] ∧ Given S x a := by
  intro w hw
  refine ⟨?_, (hx w hw.ready).2⟩
  intro a w' hr
  obtain ⟨hready, hgrows, ha, -⟩ := (hx w hw.ready).1 a w' hr
  have hpending : ∀ id, w'.pendingAt id = w.pendingAt id := by
    intro id
    rw [Writer.pendingAt, hgrows.pending, Writer.pendingAt]
  refine ⟨?_, ha, [], ?_, fun hf P _ => ⟨rfl, w, w', hw.ready, hr, hf⟩⟩
  . exact {
      ready := hready
      chain := hgrows.chain.trans hw.chain
      exits := hgrows.exits.trans hw.exits
      targets := hgrows.targets.trans hw.targets
      labels := hgrows.labels.trans hw.labels
      known := fun t ht => Nat.le_trans (hw.known t ht) hgrows.lastName
      distinct := hw.distinct
      finals := hw.finals
      old := fun id hid => Nat.le_trans (hw.old id hid) hgrows.lastName
      fresh := fun id hid => (hpending id).trans
        (hw.fresh id (Nat.lt_of_le_of_lt hgrows.lastName hid))
      routed := fun Y f Z hX j hj => hw.routed Y f Z hX j (by rwa [hpending] at hj) }
  . exact {
      marks := ⟨hgrows.lastName, fun _ h => by simpa [Writer.marks, hgrows.breaks] using h,
        fun _ h => by simpa [Writer.marks, hgrows.continues] using h⟩
      names := hgrows.names
      frames := hgrows.frames
      pending := fun id _ => by simp [hpending, Pending.Le.refl]
      body := by
        obtain ⟨texts, htexts, hidle⟩ := hgrows.body
        exact ⟨_, htexts, Stmt.coreList_raws hidle⟩ }

def Free (G : Form β) : Prop := ∀ {P m₀ m m' b c}, m₀.Le m → G P m m' b c → G P m₀ m' b c

theorem afterLeaf {pre : Prop} {P : α → Prop} (hx : Meets S pre x P₀ P) (hG : Free G)
    (hg : ∀ a, Lays S X T L (g a) T'' L'' Q₀ G) : Lays S X T L (x >>= g) T'' L'' Q₀ G := by
  refine (leaf hx).bind fun a _ => (hg a).mono ?_
  rintro P m m' b c - - h m₀ c₀ ⟨rfl, -⟩ hle -
  exact hG hle h

theorem afterLeafIf {p : Prop} [Decidable p] {pre : Prop} {P : α → Prop} {u : α}
    (hx : Meets S pre x P₀ P) (hG : Free G) (hg : ∀ a, Lays S X T L (g a) T'' L'' Q₀ G) :
    Lays S X T L (if p then x >>= g else g u) T'' L'' Q₀ G := by
  split
  . exact afterLeaf hx hG hg
  . exact hg u

theorem read {g : Plan → Lower β} (h : Lays S X T L (g S.plan) T'' L'' Q₀ G) :
    Lays S X T L (read >>= g) T'' L'' Q₀ G := by
  intro w hw
  constructor
  . intro b w' hr
    obtain ⟨a, v, hr, hg⟩ := runs_bind.1 hr
    obtain ⟨rfl, rfl⟩ := runs_read.1 hr
    exact (h _ hw).1 b w' hg
  . intro f hf
    rcases fails_bind.1 hf with hf | ⟨a, v, hr, hg⟩
    . exact absurd hf not_fails_read
    . obtain ⟨rfl, rfl⟩ := runs_read.1 hr
      exact (h _ hw).2 f hg

theorem bindings {g : Bindings → Lower β} (h : Lays S X T L (g S.bindings) T'' L'' Q₀ G) :
    Lays S X T L (bindings >>= g) T'' L'' Q₀ G := by
  unfold Lower.bindings
  simp only [bind_assoc, pure_bind]
  exact read h

theorem get {g : Writer → Lower β} (h : ∀ w, Stage S X T L w → Lays S X T L (g w) T'' L'' Q₀ G) :
    Lays S X T L (get >>= g) T'' L'' Q₀ G := by
  intro w hw
  constructor
  . intro b w' hr
    obtain ⟨a, v, hr, hg⟩ := runs_bind.1 hr
    obtain ⟨rfl, rfl⟩ := runs_get.1 hr
    exact (h _ hw _ hw).1 b w' hg
  . intro f hf
    rcases fails_bind.1 hf with hf | ⟨a, v, hr, hg⟩
    . exact absurd hf not_fails_get
    . obtain ⟨rfl, rfl⟩ := runs_get.1 hr
      exact (h _ hw _ hw).2 f hg

theorem function {g : Function → Lower β} (h : Lays S X T L (g S.function) T'' L'' Q₀ G) :
    Lays S X T L (function >>= g) T'' L'' Q₀ G := by
  unfold Lower.function
  simp only [bind_assoc, pure_bind]
  refine bindings (get fun w hw => ?_)
  rw [hw.ready.fn]
  exact h

-- What is read of the state is also what the form is told.
theorem getAt {g : Writer → Lower β} (h : ∀ w, Stage S X T L w →
    Lays S X T L (g w) T'' L'' Q₀ fun P m m' b c => m = w.marks → G P m m' b c) :
    Lays S X T L (MonadState.get >>= g) T'' L'' Q₀ G := by
  intro w hw
  constructor
  . intro b w' hr
    obtain ⟨a, v, hr, hg⟩ := runs_bind.1 hr
    obtain ⟨rfl, rfl⟩ := runs_get.1 hr
    obtain ⟨hw', hb, c, hstep, hG⟩ := (h _ hw _ hw).1 b w' hg
    exact ⟨hw', hb, c, hstep, fun hf P hP => hG hf P hP rfl⟩
  . intro f hf
    rcases fails_bind.1 hf with hf | ⟨a, v, hr, hg⟩
    . exact absurd hf not_fails_get
    . obtain ⟨rfl, rfl⟩ := runs_get.1 hr
      exact (h _ hw _ hw).2 f hg

theorem change {f : Writer → Writer} {T' : List Target} {L' : List String} {F : Form PUnit}
    (h : ∀ w, Stage S X T L w → Stage S X T' L' (f w) ∧ ∃ code, Step S X w (f w) code ∧
      ∀ P, F P w.marks (f w).marks ⟨⟩ code) :
    Lays S X T L (modify f : Lower PUnit) (fun _ => T') (fun _ => L') (fun _ => True) F := by
  intro w hw
  constructor
  . intro a w' hr
    obtain rfl := runs_modify.1 hr
    obtain ⟨hw', code, hstep, hF⟩ := h w hw
    exact ⟨hw', trivial, code, hstep, fun _ P _ => hF P⟩
  . intro g hg
    exact absurd hg not_fails_modify

end Lays

section Small

variable {S : Setting} {X : List Exit} {T : List Target} {L : List String} {t : Target}

theorem lays_freshName :
    Lays S X T L freshName (fun _ => T) (fun _ => L) (fun _ => True) fun _ m m' id c =>
      c = [] ∧ m.last < id ∧ id ≤ m'.last := by
  intro w hw
  obtain ⟨hrun, hfail⟩ := Lays.leaf (X := X) (T := T) (L := L) (yields_freshName (S := S)) w hw
  refine ⟨?_, hfail⟩
  intro id w' hr
  obtain ⟨hw', -, c, hstep, hF⟩ := hrun id w' hr
  refine ⟨hw', trivial, c, hstep, fun hf P hP => ⟨(hF hf P hP).1, ?_⟩⟩
  simp only [freshName, runs_bind, runs_get, runs_modify, runs_pure] at hr
  obtain ⟨_, _, ⟨rfl, rfl⟩, _, _, rfl, rfl, rfl⟩ := hr
  exact ⟨Nat.lt_succ_self _, Nat.le_refl _⟩

theorem lays_allocate {d : String → C.Decl} {stem : String} (hstem : stem ∈ C.stems)
    (hname : ∀ name, (d name).name = name) 
    (hd : ∀ name, C.isCellName name.toList = false → S.Silent (d name)) :
    Lays S X T L (allocate d stem) (fun _ => T) (fun _ => L) (IsTemp stem) fun _ m m' e c =>
      c = [] ∧ ∀ id : Nat, e = .var (temporaryName stem id) → m.last < id ∧ id ≤ m'.last := by
  intro w hw
  have hwrites : Meets S True (allocate d stem) (IsTemp stem) S.Slot :=
    writes_allocate hstem hname hd
  obtain ⟨hrun, hfail⟩ := Lays.leaf (X := X) (T := T) (L := L) hwrites w hw
  refine ⟨?_, hfail⟩
  intro e w' hr
  obtain ⟨hw', htemp, c, hstep, hF⟩ := hrun e w' hr
  refine ⟨hw', htemp, c, hstep, fun hf P hP => ⟨(hF hf P hP).1, ?_⟩⟩
  obtain ⟨top, outer, -, rfl, rfl⟩ := runs_allocate hr
  intro id heq
  injection heq with hname
  obtain ⟨-, rfl⟩ := temporaryName_inj.1 hname
  exact ⟨Nat.lt_succ_self _, Nat.le_refl _⟩

theorem lays_tempOf (type : String) {stem : String} (hstem : stem ∈ C.stems) :
    Lays S X T L (tempOf type stem) (fun _ => T) (fun _ => L) (IsTemp stem) fun _ m m' e c =>
      c = [] ∧ ∀ id : Nat, e = .var (temporaryName stem id) → m.last < id ∧ id ≤ m'.last :=
  lays_allocate hstem (fun _ => rfl) fun _ h => ⟨.inl rfl, fun _ => .inl rfl, rfl, .of_not h⟩

theorem lays_tempIterator :
    Lays S X T L tempIterator (fun _ => T) (fun _ => L) (IsTemp "it") fun _ m m' e c =>
      c = [] ∧ ∀ id : Nat, e = .var (temporaryName "it" id) → m.last < id ∧ id ≤ m'.last :=
  lays_allocate (by decide) (fun _ => rfl) fun _ h => ⟨.inl rfl, fun _ => .inl rfl, rfl, .of_not h⟩

theorem lays_emit (list : List C.Stmt) :
    LaysHere S X T L (emit list) fun _ m m' _ c => c = Stmt.coreList list ∧ m' = m := by
  refine Lays.change fun w hw => ⟨?_, _, ?_, fun _ => ⟨rfl, rfl⟩⟩
  . exact { hw with ready := { hw.ready with } }
  . exact { Step.refl w with body := ⟨list, rfl, rfl⟩ }

theorem lays_effect (e : C.Expr) :
    LaysHere S X T L (effect e) fun _ m m' _ c => c = effectCode e ∧ m' = m := by
  unfold effect effectCode
  split
  . exact .pure trivial fun _ _ => ⟨rfl, rfl⟩
  . exact lays_emit [.expr e]

theorem lays_noteLine (n : Node) :
    LaysHere S X T L (noteLine n) fun _ m m' _ c => c = [] ∧ m' = m := by
  unfold noteLine
  refine .read ?_
  split
  . exact lays_emit [.comment _]
  . exact .pure trivial fun _ _ => ⟨rfl, rfl⟩

theorem lays_giveLabels (L' : List String) :
    Lays S X T L (giveLabels L') (fun _ => T) (fun _ => L') (fun _ => True) fun _ m m' _ c =>
      c = [] ∧ m' = m := by
  refine Lays.change fun w hw => ⟨?_, [], ?_, fun _ => ⟨rfl, rfl⟩⟩
  . exact { hw with ready := { hw.ready with }, labels := rfl }
  . exact { Step.refl w with }

theorem lays_addLabel (name : String) :
    Lays S X T L (modify fun w => { w with labels := w.labels ++ [name] }) (fun _ => T)
      (fun _ => L ++ [name]) (fun _ => True) fun _ m m' _ c => c = [] ∧ m' = m := by
  refine Lays.change fun w hw => ⟨?_, [], ?_, fun _ => ⟨rfl, rfl⟩⟩
  . exact { hw with
      ready := { hw.ready with }
      labels := by simp [hw.labels] }
  . exact { Step.refl w with }

theorem lays_waitingLabels :
    Lays S X T L waitingLabels (fun _ => T) (fun _ => []) (fun l => l = L) fun _ m m' _ c =>
      c = [] ∧ m' = m := by
  unfold waitingLabels
  refine .get fun w hw => ?_
  refine (lays_giveLabels []).bind fun _ _ => ?_
  refine .pure hw.labels ?_
  rintro P m m₀ c ⟨rfl, rfl⟩ - -
  exact ⟨rfl, rfl⟩

/-! Targets and the labels they end with -/

structure IsTarget (X : List Exit) (L : List String) (isLoop isPlain : Bool)
    (t : Target) : Prop where
  labels : t.labels = L
  isLoop : t.isLoop = isLoop
  isPlain : t.isPlain = isPlain
  depth : t.depth = X.length

theorem lays_openTarget (isLoop isPlain : Bool) :
    Lays S X T L (openTarget isLoop isPlain) (fun t => t :: T) (fun _ => [])
      (IsTarget X L isLoop isPlain) fun _ m m' t c => c = [] ∧ m.last < t.id ∧ t.id ≤ m'.last := by
  intro w hw
  constructor
  . intro t w' hr
    simp only [openTarget, freshName, runs_bind, runs_get, runs_modify, runs_set, runs_pure] at hr
    obtain ⟨id, _, ⟨_, _, ⟨rfl, rfl⟩, _, _, rfl, rfl, rfl⟩, _, _, ⟨rfl, rfl⟩, _, _, rfl,
      rfl, rfl⟩ := hr
    refine ⟨?_, ⟨hw.labels, rfl, rfl, by rw [hw.exits]⟩, [], ?_, fun _ _ _ => ?_⟩
    . exact { hw with
        ready := { hw.ready with names := hw.ready.names.mono (Nat.le_succ _) }
        targets := by simp [hw.targets]
        labels := rfl
        known := List.forall_mem_cons.2 ⟨Nat.le_refl _, fun t ht => Nat.le_succ_of_le
          (hw.known t ht)⟩
        distinct := by
          refine List.nodup_cons.2 ⟨?_, hw.distinct⟩
          intro hmem
          obtain ⟨t, ht, heq⟩ := List.mem_map.1 hmem
          exact absurd (hw.known t ht) (by simp [heq])
        old := fun id hid => Nat.le_succ_of_le (hw.old id hid)
        fresh := fun id hid => hw.fresh id (Nat.lt_of_succ_lt hid)
        routed := fun Y f Z hX j hj =>
          (hw.routed Y f Z hX j hj).imp_left (.imp_left (List.mem_cons_of_mem _)) }
    . exact { Step.refl (S := S) _ with
        marks := ⟨Nat.le_succ _, fun _ h => h, fun _ h => h⟩
        frames := .refl _ }
    . exact ⟨rfl, Nat.lt_succ_self _, Nat.le_refl _⟩
  . intro f hf
    simp only [openTarget, freshName, fails_bind, not_fails_get, not_fails_modify, not_fails_pure,
      not_fails_set, and_false, exists_false, or_false] at hf

theorem lays_closeTarget (ht : t.depth = X.length) :
    Lays S X (t :: T) L closeTarget (fun _ => T) (fun _ => L) (fun _ => True) fun _ m m' _ c =>
      c = [] ∧ m' = m := by
  refine Lays.change fun w hw => ⟨?_, [], { Step.refl w with }, fun _ => ⟨rfl, rfl⟩⟩
  refine { hw with
    ready := { hw.ready with }
    targets := by simp [hw.targets]
    known := fun t ht => hw.known t (List.mem_cons_of_mem _ ht)
    distinct := (List.nodup_cons.1 hw.distinct).2
    routed := ?_ }
  intro Y f Z hX j hj
  obtain ⟨⟨hmem, hloop⟩, hdepth⟩ := hw.routed Y f Z hX j hj
  refine ⟨⟨(List.mem_cons.1 hmem).resolve_left ?_, hloop⟩, hdepth⟩
  rintro rfl
  rw [ht, hX] at hdepth
  simp at hdepth
  omega

theorem lays_breakLabel (t : Target) :
    LaysHere S X T L (breakLabel t) fun _ m m' _ c =>
      (c = if t.id ∈ m.breaks then [.label t.breakLabel] else []) ∧ m' = m := by
  refine .getAt fun w _ => ?_
  by_cases h : t.id ∈ w.breaks
  . rw [if_pos (by simpa using h)]
    refine (lays_emit _).mono ?_
    rintro P m m' _ c - - ⟨rfl, rfl⟩ rfl
    exact ⟨(if_pos h).symm, rfl⟩
  . rw [if_neg (by simpa using h)]
    refine .pure trivial ?_
    rintro P m rfl
    exact ⟨(if_neg h).symm, rfl⟩

theorem lays_continueLabel (t : Target) :
    LaysHere S X T L (continueLabel t) fun _ m m' _ c =>
      (c = if t.id ∈ m.continues then [.label t.continueLabel] else []) ∧ m' = m := by
  refine .getAt fun w _ => ?_
  by_cases h : t.id ∈ w.continues
  . rw [if_pos (by simpa using h)]
    refine (lays_emit _).mono ?_
    rintro P m m' _ c - - ⟨rfl, rfl⟩ rfl
    exact ⟨(if_pos h).symm, rfl⟩
  . rw [if_neg (by simpa using h)]
    refine .pure trivial ?_
    rintro P m rfl
    exact ⟨(if_neg h).symm, rfl⟩

theorem lays_jumpToEnd (t : Target) :
    Lays S X T L (jumpToEnd t) (fun _ => T) (fun _ => L) (fun st => st = .goto t.breakLabel)
      fun _ m m' _ c => c = [] ∧ m'.last = m.last ∧ t.id ∈ m'.breaks := by
  unfold jumpToEnd
  refine Lays.bind (F := fun _ m m' _ c => c = [] ∧ m'.last = m.last ∧ t.id ∈ m'.breaks)
    (.change fun w hw => ⟨?_, [], ?_, ?_⟩) fun _ _ => .pure rfl ?_
  . exact { hw with ready := { hw.ready with } }
  . exact { Step.refl w with
      marks := ⟨Nat.le_refl _, fun _ h => List.mem_cons_of_mem _ h, fun _ h => h⟩ }
  . exact fun _ => ⟨rfl, rfl, List.mem_cons_self⟩
  . rintro P m m₀ c ⟨rfl, h⟩ - -
    exact ⟨rfl, h⟩

end Small
end Lower
end ScriptC
