import ScriptC.Proofs.Flow.Function

/-!
Jumps and labels in the code of a function. A label stands once in it, and a jump leads to a label
in a block around it, so it never enters a block.
-/

namespace ScriptC

namespace C.Stmt

mutual

def labels : Stmt → List String
  | .label l => [l]
  | .block _ body | .loop _ body => labelsOf body
  | .branch _ a b => a.labels ++ b.labels
  | _ => []

def labelsOf : List Stmt → List String
  | [] => []
  | st :: rest => st.labels ++ labelsOf rest

end

mutual

def gotos : Stmt → List String
  | .goto l => [l]
  | .block _ body | .loop _ body => gotosOf body
  | .branch _ a b => a.gotos ++ b.gotos
  | _ => []

def gotosOf : List Stmt → List String
  | [] => []
  | st :: rest => st.gotos ++ gotosOf rest

end

mutual

def Enclosed (around : List String) : Stmt → Prop
  | .goto l => l ∈ around
  | .block _ body | .loop _ body => EnclosedAll (placed body ++ around) body
  | .branch _ a b => a.Enclosed around ∧ b.Enclosed around
  | _ => True

def EnclosedAll (around : List String) : List Stmt → Prop
  | [] => True
  | st :: rest => st.Enclosed around ∧ EnclosedAll around rest

end

variable {st : Stmt} {l : String} {code rest : List Stmt}

@[simp]
theorem labelsOf_nil : labelsOf [] = [] := rfl

theorem labelsOf_cons : labelsOf (st :: rest) = st.labels ++ labelsOf rest := rfl

@[simp]
theorem labelsOf_append : labelsOf (code ++ rest) = labelsOf code ++ labelsOf rest := by
  induction code with
  | nil => rfl
  | cons st code ih => rw [List.cons_append, labelsOf_cons, ih, labelsOf_cons, List.append_assoc]

theorem placed_subset_labelsOf : placed code ⊆ labelsOf code := by
  induction code with
  | nil => exact List.Subset.refl _
  | cons st code ih =>
    rw [labelsOf_cons]
    cases st with
    | label l => exact List.cons_subset_cons l ih
    | _ => exact List.Subset.trans ih (List.subset_append_right _ _)

mutual

theorem enclosed_iff : ∀ (st : Stmt) (around : List String),
    st.Enclosed around ↔ ∀ l ∈ st.escapes, l ∈ around
  | .goto l, around => by simp [Enclosed, escapes]
  | .block _ body, around | .loop _ body, around => by
    simp only [Enclosed, enclosedAll_iff body, mem_escapes_block, mem_escapes_loop, List.mem_append]
    exact forall_congr' fun l => by tauto
  | .branch _ a b, around => by
    simp only [Enclosed, enclosed_iff a, enclosed_iff b, escapes, List.mem_append, or_imp,
      forall_and]
  | .missing, _ | .expr _, _ | .label _, _ | .ret _, _ | .raw _, _ | .comment _,
    _ | .decl _, _ => by
    simp [Enclosed, escapes]

theorem enclosedAll_iff : ∀ (code : List Stmt) (around : List String),
    EnclosedAll around code ↔ ∀ l ∈ jumps code, l ∈ around
  | [], around => by simp [EnclosedAll]
  | st :: rest, around => by
    simp only [EnclosedAll, enclosed_iff st, enclosedAll_iff rest, jumps_cons, List.mem_append,
      or_imp, forall_and]

end

mutual

theorem mem_of_mem_gotos : ∀ st : Stmt, l ∈ st.gotos → l ∈ st.escapes ∨ l ∈ st.labels
  | .goto _, h => .inl h
  | .block _ body, h | .loop _ body, h => by
    have ih := mem_of_mem_gotosOf body h
    simp only [mem_escapes_block, mem_escapes_loop]
    by_cases hl : l ∈ placed body
    . exact .inr (placed_subset_labelsOf hl)
    . exact ih.imp_left fun hj => ⟨hj, hl⟩
  | .branch _ a b, h => by
    simp only [escapes, labels, List.mem_append]
    rcases List.mem_append.1 h with h | h
    . have ih := mem_of_mem_gotos a h
      tauto
    . have ih := mem_of_mem_gotos b h
      tauto

theorem mem_of_mem_gotosOf : ∀ code : List Stmt, l ∈ gotosOf code → l ∈ jumps code ∨ l
    ∈ labelsOf code
  | st :: rest, h => by
    simp only [jumps_cons, labelsOf_cons, List.mem_append]
    rcases List.mem_append.1 h with h | h
    . have ih := mem_of_mem_gotos st h
      tauto
    . have ih := mem_of_mem_gotosOf rest h
      tauto

end

/-! Comments and lines of text hold no labels and no jumps. -/

theorem placed_coreList (code : List Stmt) : placed (coreList code) = placed code := by
  induction code with
  | nil => rw [coreList]
  | cons st rest ih =>
    cases st with
    | raw text => by_cases h : C.isIdle text <;> simp [coreList, placed, ih, h]
    | _ => simp [coreList, core, placed, ih]

mutual

theorem labels_core : ∀ st : Stmt, st.core.labels = st.labels
  | .block _ body | .loop _ body => by
    simp only [core, labels]
    exact labelsOf_coreList body
  | .branch _ a b => by simp only [core, labels, labels_core a, labels_core b]
  | .missing | .expr _ | .label _ | .goto _ | .ret _ | .raw _ | .comment _ | .decl _ => by
    simp only [core]

theorem labelsOf_coreList : ∀ code : List Stmt, labelsOf (coreList code) = labelsOf code
  | [] => by rw [coreList]
  | st :: rest => by
    have hst := labels_core st
    have hrest := labelsOf_coreList rest
    cases st with
    | raw text => by_cases h : C.isIdle text <;> simp_all [coreList, labelsOf_cons, labels]
    | _ => simp_all [coreList, labelsOf_cons, labels]

end

mutual

theorem escapes_core : ∀ st : Stmt, st.core.escapes = st.escapes
  | .block _ body | .loop _ body => by
    simp only [core, escapes, jumps_coreList body, placed_coreList body]
  | .branch _ a b => by simp only [core, escapes, escapes_core a, escapes_core b]
  | .missing | .expr _ | .label _ | .goto _ | .ret _ | .raw _ | .comment _ | .decl _ => by
    simp only [core]

theorem jumps_coreList : ∀ code : List Stmt, jumps (coreList code) = jumps code
  | [] => by rw [coreList]
  | st :: rest => by
    have hst := escapes_core st
    have hrest := jumps_coreList rest
    cases st with
    | raw text => by_cases h : C.isIdle text <;> simp_all [coreList, jumps_cons, escapes]
    | _ => simp_all [coreList, jumps_cons, escapes]

end

end C.Stmt

namespace Lower

open C

def Spot.id : Spot → Nat
  | .stop id | .skip id | .done id | .case id _ | .final id => id

def Scene.Outlet (K : Scene) (l : String) : Prop :=
  (∃ t continues, Admits K.targets t continues ∧ l = Target.labelFor t continues) ∨
    ∃ f, .finalizer f ∈ K.exits ∧ l = f.label

structure Neat (own : Spot → Prop) (out : String → Prop) (c : List C.Stmt) : Prop where
  labels : ∀ l ∈ Stmt.labelsOf c, ∃ p, own p ∧ l = p.name
  nodup : (Stmt.labelsOf c).Nodup
  jumps : ∀ l ∈ Stmt.jumps c, l ∈ Stmt.placed c ∨ out l

namespace Neat

variable {own own' : Spot → Prop} {out out' : String → Prop} {c d : List C.Stmt} {p : Spot}
  {decls : List C.Decl} {x : C.Expr} {a b : C.Stmt}

theorem mono (h : Neat own out c) (hown : ∀ p, own p → own' p) (hout : ∀ l, out l → out' l) :
    Neat own' out' c where
  labels := fun l hl => (h.labels l hl).imp fun p hp => ⟨hown p hp.1, hp.2⟩
  nodup := h.nodup
  jumps := fun l hl => (h.jumps l hl).imp_right (hout l)

theorem of_eq_nil (hlabels : Stmt.labelsOf c = []) (hjumps : Stmt.jumps c = []) :
    Neat own out c := by
  constructor
  . simp [hlabels]
  . simp [hlabels]
  . simp [hjumps]

theorem append (h : Neat own out c) (h' : Neat own' out d) (hdisj : ∀ p, own p → ¬own' p) :
    Neat (fun p => own p ∨ own' p) out (c ++ d) where
  labels := by
    intro l hl
    rw [Stmt.labelsOf_append, List.mem_append] at hl
    rcases hl with hl | hl
    . exact (h.labels l hl).imp fun p hp => ⟨.inl hp.1, hp.2⟩
    . exact (h'.labels l hl).imp fun p hp => ⟨.inr hp.1, hp.2⟩
  nodup := by
    rw [Stmt.labelsOf_append]
    refine h.nodup.append h'.nodup fun l hl hl' => ?_
    obtain ⟨p, hp, rfl⟩ := h.labels l hl
    obtain ⟨q, hq, hname⟩ := h'.labels _ hl'
    rw [Spot.name_inj] at hname
    subst hname
    exact hdisj p hp hq
  jumps := by
    intro l hl
    rw [Stmt.jumps_append, List.mem_append] at hl
    rw [Stmt.placed_append, List.mem_append]
    rcases hl with hl | hl
    . exact (h.jumps l hl).imp_left .inl
    . exact (h'.jumps l hl).imp_left .inr

theorem appendNone (h : Neat own out c) (h' : Neat (fun _ => False) out d) :
    Neat own out (c ++ d) :=
  (h.append h' fun _ _ h => h).mono (fun _ hp => hp.resolve_right id) fun _ h => h

theorem prependNone (h : Neat (fun _ => False) out c) (h' : Neat own out d) :
    Neat own out (c ++ d) :=
  (h.append h' fun _ h => h.elim).mono (fun _ hp => hp.resolve_left id) fun _ h => h

theorem block (h : Neat own out c) : Neat own out [.block decls c] where
  labels := by simpa [Stmt.labelsOf_cons, Stmt.labels] using h.labels
  nodup := by simpa [Stmt.labelsOf_cons, Stmt.labels] using h.nodup
  jumps := by
    intro l hl
    rw [Stmt.jumps_cons, Stmt.jumps_nil, List.append_nil, Stmt.mem_escapes_block] at hl
    exact .inr ((h.jumps l hl.1).resolve_left hl.2)

theorem loop (h : Neat own out c) : Neat own out [.loop decls c] where
  labels := by simpa [Stmt.labelsOf_cons, Stmt.labels] using h.labels
  nodup := by simpa [Stmt.labelsOf_cons, Stmt.labels] using h.nodup
  jumps := by
    intro l hl
    rw [Stmt.jumps_cons, Stmt.jumps_nil, List.append_nil, Stmt.mem_escapes_loop] at hl
    exact .inr ((h.jumps l hl.1).resolve_left hl.2)

theorem branch (h : Neat own out [a]) (h' : Neat own' out [b]) (ha : Stmt.placed [a] = [])
    (hb : Stmt.placed [b] = []) (hdisj : ∀ p, own p → ¬own' p) :
    Neat (fun p => own p ∨ own' p) out [.branch x a b] := by
  have hall := h.append h' hdisj
  have hlabels : Stmt.labelsOf [.branch x a b] = Stmt.labelsOf ([a] ++ [b]) := by
    simp [Stmt.labelsOf_cons, Stmt.labels]
  have hjumps : Stmt.jumps [.branch x a b] = Stmt.jumps ([a] ++ [b]) := by
    simp [Stmt.jumps_cons, Stmt.escapes]
  refine ⟨hlabels ▸ hall.labels, hlabels ▸ hall.nodup, fun l hl => ?_⟩
  rw [hjumps] at hl
  have := hall.jumps l hl
  rw [Stmt.placed_append, ha, hb] at this
  exact .inr (this.resolve_left (by simp))

theorem goto {l : String} (h : out l) : Neat own out [.goto l] where
  labels := by simp [Stmt.labelsOf_cons, Stmt.labels]
  nodup := by simp [Stmt.labelsOf_cons, Stmt.labels]
  jumps := by
    intro l' hl
    obtain rfl := List.mem_singleton.1 hl
    exact .inr h

theorem label (h : own p) : Neat own out [.label p.name] where
  labels := by
    intro l hl
    exact ⟨p, h, List.mem_singleton.1 hl⟩
  nodup := List.nodup_singleton _
  jumps := by rintro _ ⟨⟩

-- The label is not missed: either it is there, or no jump leads to it.
theorem close {l : String} (h : Neat own (fun l' => l' = l ∨ out l') c) (hends : Ends l c d)
    (hl : l = p.name) (hp : ¬own p) : Neat (fun q => own q ∨ q = p) out (c ++ d) := by
  subst hl
  rcases hends with rfl | ⟨rfl, hno⟩
  . have hlabel : Neat (· = p) (fun l' => l' = p.name ∨ out l') [.label p.name] := label rfl
    have hall := h.append hlabel fun q hq heq => hp (heq ▸ hq)
    refine ⟨hall.labels, hall.nodup, fun l hl => ?_⟩
    rcases hall.jumps l hl with hl | rfl | hl
    . exact .inl hl
    . left
      simp [Stmt.placed]
    . exact .inr hl
  . rw [List.append_nil]
    refine ⟨fun l hl => (h.labels l hl).imp fun q hq => ⟨.inl hq.1, hq.2⟩, h.nodup, fun l hl => ?_⟩
    refine (h.jumps l hl).imp_right fun hl' => hl'.resolve_left ?_
    rintro rfl
    exact hno hl

theorem nil : Neat own out [] := of_eq_nil rfl rfl

theorem expr {e : C.Expr} (h : Neat own out c) : Neat own out (.expr e :: c) :=
  ⟨h.labels, h.nodup, h.jumps⟩

theorem effect {e : C.Expr} : Neat own out (effectCode e) := by
  unfold effectCode
  split
  . exact nil
  . exact nil.expr

theorem effects (h : IsEffects c) : Neat own out c := by
  obtain ⟨es, -, rfl⟩ := h
  induction es with
  | nil => exact nil
  | cons e es ih => exact ih.expr

theorem jumpIf {l : String} (h : out l) : Neat own out [.branch x (.goto l) .missing] where
  labels := by simp [Stmt.labelsOf_cons, Stmt.labels]
  nodup := by simp [Stmt.labelsOf_cons, Stmt.labels]
  jumps := by
    intro l' hl
    obtain rfl := List.mem_singleton.1 hl
    exact .inr h

end Neat

/-! Code without labels. -/

section Routes

variable {S : Setting} {E : Eval} {K : Scene} {own : Spot → Prop} {out : String → Prop}
  {c : List C.Stmt} {lo hi : Nat}

theorem Leaves.neat {final : Finalizer → List C.Stmt → Prop} {done : List C.Stmt → Prop}
    {list : List Exit} (h : Leaves final done list c)
    (hfinal : ∀ f c, .finalizer f ∈ list → final f c → Neat own out c)
    (hdone : ∀ c, done c → Neat own out c) : Neat own out c := by
  induction h with
  | done h => exact hdone _ h
  | handler h ih | withBody h ih | iterator h ih =>
    exact (ih fun f c hf => hfinal f c (List.mem_cons_of_mem _ hf)).expr
  | finalizer h => exact hfinal _ _ List.mem_cons_self h

theorem neat_throughFinally {f : Finalizer} {k : Nat} (h : out f.label) :
    Neat own out (throughFinally f k) :=
  .expr (.expr (.goto h))

theorem Jumps.neat {t : Target} {continues : Bool} (h : Jumps K t continues c)
    (ht : Admits K.targets t continues) : Neat own K.Outlet c := by
  refine Leaves.neat h ?_ ?_
  . rintro f _ hf ⟨i, -, rfl⟩
    exact neat_throughFinally (.inr ⟨f, List.mem_of_mem_take hf, rfl⟩)
  . rintro _ rfl
    exact .goto (.inl ⟨t, continues, ht, rfl⟩)

theorem Returns.neat {v : C.Expr} (h : Returns S K lo hi v c) : Neat own K.Outlet c := by
  cases h with
  | here => exact .of_eq_nil rfl rfl
  | leaving _ _ _ hc =>
    refine .expr (Leaves.neat hc ?_ ?_)
    . rintro f _ hf ⟨-, rfl⟩
      exact .expr (neat_throughFinally (.inr ⟨f, hf, rfl⟩))
    . rintro _ ⟨r, -, rfl⟩
      exact .of_eq_nil rfl rfl

theorem Returns.le {v : C.Expr} (h : Returns S K lo hi v c) : lo ≤ hi := by
  cases h with
  | here _ hle => exact hle
  | leaving _ hlo hhi => omega

theorem Neat.branchOnly {decls : List C.Decl} {x : C.Expr} (h : Neat own out c) :
    Neat own out [.branch x (.block decls c) .missing] := by
  have hnone : Neat (fun _ => False) out [.missing] := .of_eq_nil rfl rfl
  exact (h.block.branch hnone rfl rfl fun _ _ h => h).mono (fun _ hp => hp.resolve_right id)
    fun _ h => h

theorem ResumesJumps.neat {f : Finalizer} {i : Nat} {list : List (Target × Bool)}
    (h : ResumesJumps S K f i list c) : Neat (fun _ => False) K.Outlet c := by
  induction h with
  | nil => exact .nil
  | cons ht _ hjump _ ih => exact (hjump.neat ht).branchOnly.prependNone ih

theorem ResumesReturn.neat {f : Finalizer} {returns : Bool}
    (h : ResumesReturn S K lo hi f returns c) : Neat (fun _ => False) K.Outlet c := by
  cases h with
  | none => exact .nil
  | some _ hc => exact hc.neat.branchOnly

theorem ResumesReturn.le {f : Finalizer} {returns : Bool}
    (h : ResumesReturn S K lo hi f returns c) : lo ≤ hi := by
  cases h with
  | none hle => exact hle
  | some _ hc => exact hc.le

theorem neat_leaveCode {x : C.Expr} {t : Target} (h : out t.breakLabel) :
    Neat own out (leaveCode x t) := by
  unfold leaveCode
  split
  . exact .nil
  . exact .jumpIf h

theorem neat_flatMap_effectCode {es : List C.Expr} :
    Neat (fun _ => False) out (es.flatMap effectCode) := by
  induction es with
  | nil => exact .nil
  | cons e es ih => exact Neat.effect.prependNone ih

theorem Stores.neat {site : Node} (h : Stores S site c) : Neat (fun _ => False) out c := by
  obtain ⟨x, y, -, -, rfl⟩ := h
  exact Neat.effect.prependNone .effect

theorem neat_functions {sites : List Node} {list : List (List C.Stmt)}
    (h : List.Forall₂ (Stores S) sites list) : Neat (fun _ => False) out list.flatten := by
  induction h with
  | nil => exact .nil
  | cons h _ ih => exact h.neat.prependNone ih

theorem Row.neat {n : Node} (h : Row S E n c) : Neat (fun _ => False) out c := by
  unfold Row at h
  split at h
  case h_1 | h_2 => exact h ▸ .nil
  case h_3 =>
    split at h
    . exact h ▸ .nil
    . obtain ⟨x, -, rfl⟩ := h
      exact .effect
  case h_4 =>
    obtain ⟨list, -, rfl⟩ := h
    exact neat_flatMap_effectCode
  case h_5 => exact h.neat
  case h_6 =>
    obtain ⟨x, -, rfl⟩ := h
    exact .effect
  case h_7 =>
    obtain ⟨x, -, rfl⟩ := h
    exact .expr .nil
  case h_8 => exact h.elim

theorem Begins.neat {n : Option Node} (h : Begins S E n c) : Neat (fun _ => False) out c := by
  unfold Begins at h
  split at h
  . exact h ▸ .nil
  . split at h
    . obtain ⟨list, -, rfl⟩ := h
      exact neat_flatMap_effectCode
    . obtain ⟨x, -, rfl⟩ := h
      exact .effect

theorem Continues.neat {t : Target} {n : Option Node} (h : Continues S E t n c)
    (ht : out t.breakLabel) : Neat own out c := by
  unfold Continues at h
  split at h
  . exact h ▸ .nil
  . obtain ⟨x, -, rfl⟩ := h
    exact neat_leaveCode ht

theorem Updates.neat {n : Option Node} (h : Updates S E n c) : Neat own out c := by
  unfold Updates at h
  split at h
  . exact h ▸ .nil
  . obtain ⟨x, -, rfl⟩ := h
    exact .effect

theorem Tests.neat {id i : Nat} {d : C.Expr} {list : List Node} {dflt dflt' : Option String}
    (h : Tests S E id d i list dflt dflt' c)
    (hout : ∀ j, i ≤ j → j < i + list.length → out (caseLabel id j)) :
    Neat (fun _ => False) out c := by
  induction h with
  | nil => exact .nil
  | default _ _ ih =>
    simp only [List.length_cons] at hout
    exact ih fun j hi hj => hout j (by omega) (by omega)
  | test _ _ _ _ ih =>
    simp only [List.length_cons] at hout
    refine Neat.prependNone (.jumpIf (hout _ (Nat.le_refl _) (by omega))) ?_
    exact ih fun j hi hj => hout j (by omega) (by omega)

theorem Tests.default_cases {id i : Nat} {d : C.Expr} {list : List Node}
    {dflt dflt' : Option String}
    (h : Tests S E id d i list dflt dflt' c) :
    dflt' = dflt ∨ ∃ j, i ≤ j ∧ j < i + list.length ∧ dflt' = some (caseLabel id j) := by
  induction h with
  | nil => exact .inl rfl
  | @default i n rest _ _ _ _ _ ih =>
    refine .inr ?_
    rcases ih with rfl | ⟨j, hij, hj, rfl⟩
    . exact ⟨i, Nat.le_refl _, by simp, rfl⟩
    . exact ⟨j, by omega, by rw [List.length_cons]; omega, rfl⟩
  | test _ _ _ _ ih =>
    refine ih.imp_right ?_
    rintro ⟨j, hij, hj, rfl⟩
    exact ⟨j, by omega, by rw [List.length_cons]; omega, rfl⟩

theorem Laid.placed_cases {item : Item} (h : Laid S E K lo hi item c) {id i : Nat}
    {list : List Node} (hitem : item = .cases id i list) :
    ∀ j, i ≤ j → j < i + list.length → caseLabel id j ∈ Stmt.placed c := by
  induction h generalizing i list with
  | widen _ _ _ ih => exact ih hitem
  | noCase =>
    cases hitem
    intro j hij hj
    rw [List.length_nil] at hj
    omega
  | case _ _ _ ih =>
    cases hitem
    intro j hij hj
    rw [List.length_cons] at hj
    simp only [Stmt.placed, Stmt.placed_append, List.mem_cons, List.mem_append]
    rcases Nat.eq_or_lt_of_le hij with rfl | hij
    . exact .inl rfl
    . exact .inr (.inr (ih rfl j hij (by omega)))
  | _ => cases hitem

theorem Laid.placed_block {item : Item} (h : Laid S E K lo hi item c) {n : Node}
    (hitem : item = .block n) : Stmt.placed c = [] := by
  induction h with
  | widen _ _ _ ih => exact ih hitem
  | items | own => rfl
  | _ => cases hitem

theorem Laid.placed_arm {n : Option Node} (h : Laid S E K lo hi (.arm n) c) :
    Stmt.placed c = [] := by
  generalize hitem : Item.arm n = item at h
  induction h with
  | widen _ _ _ ih => exact ih hitem
  | noArm => rfl
  | arm hc => exact hc.placed_block rfl
  | _ => cases hitem

end Routes

/-! The labels of a statement are numbered while it is written. -/

section Numbers

def Between (lo hi : Nat) (p : Spot) : Prop := lo < p.id ∧ p.id ≤ hi

def Item.Owns (lo hi : Nat) : Item → Spot → Prop
  | .cases id i _, p => Between lo hi p ∨ ∃ j, i ≤ j ∧ p = .case id j
  | _, p => Between lo hi p

def Item.After (lo : Nat) : Item → Prop
  | .cases id _ _ => id ≤ lo
  | _ => True

variable {S : Setting} {E : Eval} {K : Scene} {own : Spot → Prop} {out : String → Prop}
  {c d : List C.Stmt} {lo mid mid' hi lo' hi' : Nat} {p : Spot} {item : Item}
    {t : Target} {l : String}

theorem Between.mono (h : Between lo hi p) (hlo : lo' ≤ lo) (hhi : hi ≤ hi') : Between lo' hi' p :=
  ⟨Nat.lt_of_le_of_lt hlo h.1, Nat.le_trans h.2 hhi⟩

theorem Item.Owns.mono (h : item.Owns lo hi p) (hlo : lo' ≤ lo) (hhi : hi ≤ hi') :
    item.Owns lo' hi' p := by
  cases item with
  | cases => exact h.imp_left (·.mono hlo hhi)
  | _ => exact Between.mono h hlo hhi

theorem Neat.inside (h : Neat (Between mid mid') out c) (hlo : lo ≤ mid) (hhi : mid' ≤ hi) :
    Neat (Between lo hi) out c :=
  h.mono (fun _ hp => hp.mono hlo hhi) fun _ h => h

theorem Neat.andThen (h : Neat (Between lo mid) out c) (h' : Neat (Between mid hi) out d)
    (hlo : lo ≤ mid) (hhi : mid ≤ hi) : Neat (Between lo hi) out (c ++ d) := by
  refine (h.append h' fun p hp hp' => Nat.not_le.2 hp'.1 hp.2).mono ?_ fun _ h => h
  rintro p (hp | hp)
  . exact hp.mono (Nat.le_refl _) hhi
  . exact hp.mono hlo (Nat.le_refl _)

theorem Scene.outlet_opening (h : (K.opening t).Outlet l) :
    l = t.breakLabel ∨ t.isLoop = true ∧ l = t.continueLabel ∨ K.Outlet l := by
  rcases h with ⟨t', continues, ⟨ht, hloop⟩, rfl⟩ | h
  . rcases List.mem_cons.1 ht with rfl | ht
    . cases continues
      . exact .inl rfl
      . exact .inr (.inl ⟨hloop rfl, rfl⟩)
    . exact .inr (.inr (.inl ⟨t', continues, ⟨ht, hloop⟩, rfl⟩))
  . exact .inr (.inr (.inr h))

theorem Scene.outlet_within {x : Exit} (h : (K.within x).Outlet l) :
    (∃ f, x = .finalizer f ∧ l = f.label) ∨ K.Outlet l := by
  rcases h with h | ⟨f, hf, rfl⟩
  . exact .inr (.inl h)
  . rcases List.mem_cons.1 hf with rfl | hf
    . exact .inl ⟨f, rfl, rfl⟩
    . exact .inr (.inr ⟨f, hf, rfl⟩)

theorem Scene.outlet_iterating {n : Node} {it : String} (h : (K.iterating n it).Outlet l) :
    K.Outlet l := by
  unfold iterating at h
  split at h
  . exact (outlet_within (x := .iterator it) h).resolve_left (by simp)
  . exact h

theorem Neat.loopBody {skip : List C.Stmt} (h : Neat (Between mid hi) (K.opening t).Outlet c)
    (hskip : Ends t.continueLabel c skip) (hid : t.id ≤ mid) :
    Neat (fun p => Between mid hi p ∨ p = .skip t.id) (fun l => l = t.breakLabel ∨ K.Outlet l)
      (c ++ skip) := by
  refine (h.mono (fun _ hp => hp) fun l hl => ?_).close hskip rfl
    fun hp => Nat.not_lt.2 hid hp.1
  have := Scene.outlet_opening hl
  tauto

theorem Neat.stop {code stop : List C.Stmt}
    (h : Neat (fun p => Between mid hi p ∨ p = .skip t.id) (fun l => l = t.breakLabel ∨ out l)
      code) (hstop : Ends t.breakLabel code stop) (hlo : lo < t.id) (hmid : t.id ≤ mid)
    (hhi : mid ≤ hi) : Neat (Between lo hi) out (code ++ stop) := by
  refine (h.close (p := .stop t.id) hstop rfl ?_).mono ?_ fun _ h => h
  . rintro (hp | hp)
    . exact Nat.not_lt.2 hmid hp.1
    . cases hp
  . rintro p ((hp | rfl) | rfl)
    . exact hp.mono (by omega) (Nat.le_refl _)
    . exact ⟨hlo, Nat.le_trans hmid hhi⟩
    . exact ⟨hlo, Nat.le_trans hmid hhi⟩

theorem Neat.settle (inner : String → Prop) (h : Neat own (fun l => inner l ∨ out l) c)
    (hc : ∀ l, inner l → l ∈ Stmt.placed c) : Neat own out c :=
  ⟨h.labels, h.nodup, fun l hl => (h.jumps l hl).elim .inl fun h => h.imp_left (hc l)⟩

theorem Neat.passes {n : Node} {it done : String} {decls : List C.Decl} {y : C.Expr}
    {body skip : List C.Stmt}
    (h : Neat (Between mid hi) ((K.iterating n it).opening t).Outlet body)
    (hskip : Ends t.continueLabel body skip) (hid : t.id ≤ mid) :
    Neat (fun p => Between mid hi p ∨ p = .skip t.id)
      (fun l => l = t.breakLabel ∨ l = done ∨ K.Outlet l)
      [passesCode it done decls y body skip] := by
  refine Neat.loop (Neat.prependNone (d := effectCode y ++ body ++ skip)
    (.jumpIf (.inr (.inl rfl))) ?_)
  rw [List.append_assoc]
  refine Neat.prependNone .effect ((h.loopBody hskip hid).mono (fun _ h => h) ?_)
  exact fun l hl => hl.imp_right fun hl => .inr (Scene.outlet_iterating hl)

theorem Scene.outlet_opening_of_isLoop_eq (h : (K.opening t).Outlet l) (ht : t.isLoop = false) :
    l = t.breakLabel ∨ K.Outlet l := by
  rcases Scene.outlet_opening h with rfl | ⟨hloop, -⟩ | h
  . exact .inl rfl
  . rw [ht] at hloop
    cases hloop
  . exact .inr h

theorem Neat.region {f : Finalizer} {p : Pending} (decls : List C.Decl)
    (h : Neat (Between mid hi) (K.finalizing f p).Outlet c) :
    Neat (Between mid hi) (fun l => l = f.label ∨ K.Outlet l)
      [.branch (.not (register f.handler)) (.block decls (c ++ [unregister f.handler]))
        (catchFor f)] := by
  have hcatch : Neat (fun _ => False) (fun l => l = f.label ∨ K.Outlet l) [catchFor f] :=
    .of_eq_nil rfl rfl
  refine (Neat.branch (Neat.block ?_) hcatch rfl rfl fun _ _ h => h).mono
    (fun _ hp => hp.resolve_right id) fun _ h => h
  refine (h.mono (fun _ hp => hp) fun l hl => ?_).appendNone (.expr .nil)
  refine (Scene.outlet_within (K := K) hl).imp_left ?_
  rintro ⟨_, ⟨⟩, rfl⟩
  rfl

theorem Laid.neat (h : Laid S E K lo hi item c) (hitem : item.After lo) :
    lo ≤ hi ∧ Neat (item.Owns lo hi) K.Outlet c := by
  induction h with
  | widen _ hlo hhi ih =>
    obtain ⟨hle, hc⟩ := ih (by
      cases ‹Item› with
      | cases => exact Nat.le_trans hitem hlo
      | _ => trivial)
    exact ⟨by omega, hc.mono (fun _ hp => hp.mono hlo hhi) fun _ h => h⟩
  | nil hle | absent hle | noCase hle => exact ⟨hle, .nil⟩
  | noArm hle => exact ⟨hle, .of_eq_nil rfl rfl⟩
  | cons _ _ iha ihb =>
    obtain ⟨hle, ha⟩ := iha trivial
    obtain ⟨hle', hb⟩ := ihb trivial
    exact ⟨Nat.le_trans hle hle', Neat.andThen ha hb hle hle'⟩
  | present _ ih | arm _ ih | block _ _ ih | labelled _ _ _ _ ih | tryCatch _ _ _ ih
  | noHandler _ _ ih => exact ih trivial
  | items _ _ _ ih | own _ _ _ ih => exact (ih trivial).imp_right Neat.block
  | row hle hc => exact ⟨hle, hc.neat.mono (fun _ h => h.elim) fun _ h => h⟩
  | jump _ hle ht hc => exact ⟨hle, hc.neat (admits_of_findTarget? ht)⟩
  | return_ _ hle _ hc => exact ⟨Nat.le_trans hle hc.le, hc.neat⟩
  | ifElse _ hlo _ ha hb iha ihb =>
    obtain ⟨hle, hneat⟩ := iha trivial
    obtain ⟨hle', hneat'⟩ := ihb trivial
    refine ⟨by omega, (hneat.branch hneat' ha.placed_arm hb.placed_arm ?_).mono ?_ fun _ h => h⟩
    . exact fun p hp hp' => Nat.not_le.2 hp'.1 hp.2
    . rintro p (hp | hp)
      . exact hp.mono hlo hle'
      . exact hp.mono (by omega) (Nat.le_refl _)
  | whileLoop _ _ hlo hmid _ _ _ hskip hstop ih =>
    obtain ⟨hle, hbody⟩ := ih trivial
    refine ⟨by omega, Neat.stop (Neat.loop ?_) hstop hlo hmid hle⟩
    rw [List.append_assoc]
    exact Neat.prependNone (neat_leaveCode (.inl rfl)) (hbody.loopBody hskip hmid)
  | doLoop _ _ hlo hmid _ hhi _ _ hskip hstop ih =>
    obtain ⟨hle, hbody⟩ := ih trivial
    refine ⟨by omega, (Neat.stop (Neat.loop ?_) hstop hlo hmid hle).inside (Nat.le_refl _) hhi⟩
    exact (hbody.loopBody hskip hmid).appendNone (neat_leaveCode (.inl rfl))
  | forLoop _ hcopies hbegins _ hlo hmid hgoes _ hhi hskip hupdates _ _ hstop ih =>
    obtain ⟨hle, hbody⟩ := ih trivial
    have hcopies := hcopies.yields (yields_headCopies _)
    refine ⟨by omega, Neat.block ?_⟩
    refine Neat.prependNone (Neat.appendNone hbegins.neat (.effects hcopies)) ?_
    refine (Neat.stop (Neat.loop ?_) hstop hlo hmid hle).inside (Nat.le_refl _) hhi
    rw [List.append_assoc, List.append_assoc, List.append_assoc]
    refine Neat.prependNone (hgoes.neat (.inl rfl)) ?_
    rw [← List.append_assoc]
    exact (hbody.loopBody hskip hmid).appendNone (Neat.appendNone (.effects hcopies) hupdates.neat)
  | @iteration K lo mid hi labels n t x y body skip stop decls decls' it done k id _
    _ hdone hk _ hid
      ht' _ hmid _ _ hskip _ _ hstop ih =>
    obtain ⟨hle, hbody⟩ := ih trivial
    have hpasses : Neat _ (fun l => l = t.breakLabel ∨ l = done ∨ K.Outlet l)
        [passesCode it done decls' y body skip] := hbody.passes hskip hmid
    have hstopped := hpasses.stop hstop ht' hmid hle
    have hclosed : Neat (Between id hi) (fun l => l = done ∨ K.Outlet l)
        ([passesCode it done decls' y body skip] ++ stop ++
          if stop ≠ [] ∧ n.kind = .forOfStatement then
            [.expr (.callEnv Engine.closeIterator [.var it])] else []) := by
      refine hstopped.appendNone ?_
      split
      . exact .expr .nil
      . exact .nil
    refine ⟨by omega, Neat.block (.expr ?_)⟩
    have hall := hclosed.close (.inl rfl) hdone fun hp => Nat.lt_irrefl _ hp.1
    rw [List.append_assoc, List.append_assoc, ← List.append_assoc stop] at hall
    refine hall.mono ?_ fun _ h => h
    rintro p (hp | rfl)
    . exact hp.mono (by omega) (Nat.le_refl _)
    . exact ⟨Nat.lt_trans hk hid, by change id ≤ hi; omega⟩
  | @switch K lo mid hi labels n t x functions dflt tests bodies stop decls d id _ hd
    _ hfunctions ht'
      ht hid hmid htests hbodies _ hstop ih =>
    obtain ⟨hle, hcases⟩ := ih hmid
    -- Jumps to the cases are settled only when all of the block is there.
    let isCase : String → Prop := fun l => ∃ j < n.items.length, l = caseLabel id j
    have hgoto : Neat (fun _ => False) (fun l => l = t.breakLabel ∨ isCase l ∨ K.Outlet l)
        [.goto (dflt.getD t.breakLabel)] := by
      refine .goto ?_
      rcases htests.default_cases with rfl | ⟨j, -, hj, rfl⟩
      . exact .inl rfl
      . exact .inr (.inl ⟨j, by omega, rfl⟩)
    have hbodies' : Neat (Item.Owns mid hi (.cases id 0 n.items))
        (fun l => l = t.breakLabel ∨ isCase l ∨ K.Outlet l) bodies := by
      refine hcases.mono (fun _ h => h) fun l hl => ?_
      exact (Scene.outlet_opening_of_isLoop_eq hl (by rw [ht])).imp_right .inr
    have hall := (hgoto.prependNone hbodies').close (p := .stop t.id) hstop rfl (by
      rintro (hp | ⟨j, -, hp⟩)
      . exact Nat.not_lt.2 (Nat.le_trans (Nat.le_of_lt hid) hmid) hp.1
      . cases hp)
    have htests' : Neat (fun _ => False) (fun l => isCase l ∨ K.Outlet l) tests :=
      htests.neat fun j _ hj => .inl ⟨j, by omega, rfl⟩
    refine ⟨by omega, Neat.block (Neat.settle isCase ?_ ?_)⟩
    . refine ((Neat.expr (Neat.appendNone (neat_functions hfunctions) htests')).prependNone
        hall).mono
        ?_ fun _ h => h
      rintro p ((hp | ⟨j, -, rfl⟩) | rfl)
      . exact hp.mono (by omega) (Nat.le_refl _)
      . exact ⟨by change lo < id; omega, by change id ≤ hi; omega⟩
      . exact ⟨by change lo < t.id; omega, by change t.id ≤ hi; omega⟩
    . rintro _ ⟨j, hj, rfl⟩
      have hplaced := hbodies.placed_cases rfl j (Nat.zero_le _) (by omega)
      simp [Stmt.placed, hplaced]
  | @case K lo mid hi id i n rest a b _ _ iha ihb =>
    obtain ⟨hle, ha⟩ := iha trivial
    obtain ⟨hle', hb⟩ := ihb (Nat.le_trans hitem hle)
    have hitem : id ≤ lo := hitem
    refine ⟨by omega, ?_⟩
    have hlabel : Neat (· = .case id i) K.Outlet [.label (caseLabel id i)] :=
      .label (p := .case id i) rfl
    refine (hlabel.append (ha.append hb ?_) ?_).mono ?_ fun _ h => h
    . rintro p hp (hp' | ⟨j, -, rfl⟩)
      . exact Nat.not_le.2 hp'.1 hp.2
      . exact Nat.not_le.2 hp.1 hitem
    . rintro _ rfl (hp | hp | ⟨j, hj, hp⟩)
      . exact Nat.not_le.2 hp.1 hitem
      . exact Nat.not_le.2 hp.1 (Nat.le_trans hitem hle)
      . cases hp
        omega
    . rintro p (rfl | hp | hp | ⟨j, hj, rfl⟩)
      . exact .inr ⟨i, Nat.le_refl _, rfl⟩
      . exact .inl (hp.mono (Nat.le_refl _) hle')
      . exact .inl (hp.mono hle (Nat.le_refl _))
      . exact .inr ⟨j, by omega, rfl⟩
  | target _ _ ht hlo hmid _ hstop ih =>
    obtain ⟨hle, hbody⟩ := ih trivial
    refine ⟨by omega, Neat.stop (hbody.mono (fun _ => .inl) fun l hl => ?_) hstop hlo hmid hle⟩
    exact Scene.outlet_opening_of_isLoop_eq hl (by rw [ht])
  | withBlock _ hlo _ _ ih =>
    obtain ⟨hle, hbody⟩ := ih trivial
    refine ⟨by omega, .expr (Neat.appendNone (c := [_]) ?_ (.expr .nil))⟩
    refine hbody.mono (fun _ hp => hp.mono hlo (Nat.le_refl _)) fun l hl => ?_
    exact (Scene.outlet_within hl).resolve_left (by simp)
  | @tryFinally K lo mid mid' mid'' hi labels n m p c st returns jumps decls decls' f k _ _ _ hid hk
      hmid _ _ hreturns hjumps _ _ ihc ihst =>
    obtain ⟨hle, hc⟩ := ihc trivial
    obtain ⟨hle', hst⟩ := ihst trivial
    have hle'' := hreturns.le
    have hprotected := (Neat.region decls' hc).close (p := .final f.id) (.inl rfl) rfl fun hp =>
      Nat.not_lt.2 (Nat.le_trans (Nat.le_of_lt hk) hmid) hp.1
    have hrest : Neat (fun _ => False) K.Outlet
        (.branch (isLeft f Pending.throwCode) (.expr (.callEnv Engine.throwValue [.var f.value]))
          .missing :: (returns ++ jumps)) :=
      Neat.prependNone (c := [_]) (.of_eq_nil rfl rfl) (hreturns.neat.prependNone hjumps.neat)
    refine ⟨by omega, Neat.block ?_⟩
    refine (hprotected.append (hst.appendNone hrest) ?_).mono ?_ fun _ h => h
    . rintro p (hp | rfl) hp'
      . exact Nat.not_le.2 hp'.1 hp.2
      . exact Nat.not_le.2 hp'.1 (by change f.id ≤ mid'; omega)
    . rintro p ((hp | rfl) | hp)
      . exact hp.mono (by omega) (by omega)
      . exact ⟨hid, by change f.id ≤ hi; omega⟩
      . exact hp.mono (by omega) hle''
  | handler _ _ hk hmid _ hmid' _ _ _ _ _ ihc ihbody =>
    obtain ⟨hle, hc⟩ := ihc trivial
    obtain ⟨hle', hbody⟩ := ihbody trivial
    have hc := hc.mono (fun _ h => h) fun l hl => (Scene.outlet_within hl).resolve_left (by simp)
    refine ⟨by omega, Neat.block ?_⟩
    refine ((hc.appendNone (.expr .nil)).block.branch (Neat.prependNone .effect hbody).block rfl rfl
      fun p hp hp' => Nat.not_le.2 hp'.1 (Nat.le_trans hp.2 hmid')).mono ?_ fun _ h => h
    rintro p (hp | hp)
    . exact hp.mono (by omega) (by omega)
    . exact hp.mono (by omega) (Nat.le_refl _)

end Numbers

/-! Functions -/

section Functions

variable {S : Setting} {E : Eval} {out : String → Prop} {c : List C.Stmt} {st : C.Stmt}

theorem Receives.neat {i : Nat} {p : Node} (h : Receives S E i p c) :
    Neat (fun _ => False) out c := by
  unfold Receives at h
  split at h
  . exact h ▸ .nil
  . split at h
    . obtain ⟨x, -, rfl⟩ := h
      exact .effect
    . obtain ⟨k, x, -, rfl⟩ := h
      exact .effect

theorem ReceivesAll.neat {i : Nat} {list : List Node} (h : ReceivesAll S E i list c) :
    Neat (fun _ => False) out c := by
  induction h with
  | nil => exact .nil
  | cons ha _ ih => exact ha.neat.prependNone ih

theorem Opens.neat (h : Opens S E c) : Neat (fun _ => False) out c := by
  obtain @⟨params, args, hparams, hargs⟩ := h
  have hyield : Neat (fun _ => False) out (yieldCode S) := by
    unfold yieldCode
    split
    . exact Neat.effect.prependNone .effect
    . exact .nil
  refine Neat.appendNone (Neat.appendNone (Neat.prependNone .effect hparams.neat) ?_) hyield
  rcases hargs with rfl | rfl
  . exact .nil
  . exact .effect

theorem Bodied.neat (h : Bodied S E st) : st.labels.Nodup ∧ st.escapes = [] := by
  obtain @⟨decls, opens, c, ends, P, lo, mid, hi, -, hopens, hc, hends⟩ := h
  obtain ⟨-, hc⟩ := hc.neat trivial
  have hends : Neat (fun _ => False) (Scene.Outlet ⟨[], [], P⟩) ends := by
    split at hends
    . exact hends ▸ .nil
    . exact hends.neat
  have hbody := (hopens.neat.prependNone hc).appendNone hends
  refine ⟨hbody.nodup, List.eq_nil_iff_forall_not_mem.2 fun l hl => ?_⟩
  rw [Stmt.mem_escapes_block] at hl
  rcases hbody.jumps l hl.1 with hl' | ⟨t, _, ht, _⟩ | ⟨f, hf, _⟩
  . exact hl.2 hl'
  . cases ht.1
  . cases hf

/--
In the code of every function of a file no label stands twice, and each jump leads to a label that
stands in a block around the jump.
-/
theorem compile_jumps_enclosed {plan : Plan} {c : Compiled} (h : plan.compile = .ok c) :
    ∃ blocks, Written plan c.code blocks ∧ ∀ b ∈ blocks,
      b.labels.Nodup ∧ b.Enclosed [] ∧ ∀ l ∈ b.gotos, b.labels.count l = 1 := by
  obtain ⟨blocks, hwritten⟩ := written_of_compile h
  refine ⟨blocks, hwritten, hwritten.forall_mem fun fn b hb => ?_⟩
  obtain ⟨hnodup, hescapes⟩ := hb.neat
  rw [Stmt.labels_core] at hnodup
  rw [Stmt.escapes_core] at hescapes
  refine ⟨hnodup, (Stmt.enclosed_iff b []).2 (by simp [hescapes]), fun l hl => ?_⟩
  refine List.count_eq_one_of_mem hnodup ((Stmt.mem_of_mem_gotos b hl).resolve_left ?_)
  simp [hescapes]

/-- The program `for (;;) { try { break; } finally {} }`. -/
def leavingPlan : Plan :=
  let exit : Node := .mk 5 default (.breakStatement "") []
  let attempt : Node := .mk 3 default .tryStatement
    [.node .block (.mk 4 default .block [.node .item exit]),
      .node .finalizer (.mk 6 default .block [])]
  let loop : Node := .mk 2 default .forStatement [.node .body attempt]
  let body : Node := .mk 1 default .block [.node .item loop]
  let program : Function :=
    { name := "program", node := .mk 0 default (.functionExpression {}) [.node .body body] }
  { analysis := { bindings := { counters := ⟨7, 0⟩, functions := #[program], sites := {} } }
    source := default, settings := {} }

theorem compile_jumps_enclosed_leavingPlan :
    ∃ c blocks, leavingPlan.compile = .ok c ∧ Written leavingPlan c.code blocks ∧ ∀ b ∈ blocks,
      b.labels.Nodup ∧ b.Enclosed [] ∧ ∀ l ∈ b.gotos, b.labels.count l = 1 := by
  have hok : leavingPlan.compile.isOk = true := by decide +kernel
  cases hc : leavingPlan.compile with
  | error f =>
    rw [hc] at hok
    cases hok
  | ok c =>
    obtain ⟨blocks, h⟩ := compile_jumps_enclosed hc
    exact ⟨c, blocks, rfl, h⟩

end Functions
end Lower
end ScriptC
