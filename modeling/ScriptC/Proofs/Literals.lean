import Mathlib.Data.List.Basic
import Std.Data.String.ToNat
import ScriptC.Literals

/-!
Interning. Shapes are found again by their keys, so a table of literals is faithful exactly as far
as the keys are: lists get the shapes they ask for, and share a shape and a C name exactly when they
are equal, if and only if their keys tell them apart. Names without NUL characters are enough for
that.
-/

namespace ScriptC

theorem intercalate_inj {c : Char} {ps qs : List String} (hps : ps ≠ []) (hqs : qs ≠ [])
    (hp : ∀ p ∈ ps, c ∉ p.toList) (hq : ∀ q ∈ qs, c ∉ q.toList)
    (h : (String.singleton c).intercalate ps = (String.singleton c).intercalate qs) :
    ps = qs := by
  have hsplit : ∀ {texts : List String}, texts ≠ [] → (∀ t ∈ texts, c ∉ t.toList) →
      List.splitOn c ((String.singleton c).intercalate texts).toList =
        texts.map String.toList := by
    intro texts hne hnone
    rw [String.toList_intercalate, String.toList_singleton]
    apply List.splitOn_intercalate
    . simpa using hnone
    . simpa using hne
  have htoList : ps.map String.toList = qs.map String.toList := by
    rw [← hsplit hps hp, ← hsplit hqs hq, h]
  exact List.map_injective_iff.2 (fun _ _ => String.toList_inj.1) htoList

namespace Shape

def IsPlain (props : List String) : Prop :=
  props ≠ [] ∧ ∀ name ∈ props, '\x00' ∉ name.toList

instance (props : List String) : Decidable (IsPlain props) :=
  inferInstanceAs (Decidable (_ ∧ _))

theorem keyOf_inj {ps qs : List String} (hp : IsPlain ps) (hq : IsPlain qs)
    (h : keyOf ps = keyOf qs) : ps = qs :=
  intercalate_inj (c := '\x00') hp.1 hq.1 hp.2 hq.2 h

def TellsApart (lists : List (List String)) : Prop :=
  ∀ ps ∈ lists, ∀ qs ∈ lists, keyOf ps = keyOf qs → ps = qs

theorem tellsApart_of_isPlain {lists : List (List String)} (h : ∀ props ∈ lists, IsPlain props) :
    TellsApart lists :=
  fun ps hp qs hq => keyOf_inj (h ps hp) (h qs hq)

end Shape

namespace Literals

def tags (t : Literals) : List (SlotKind × String) :=
  t.slots.map fun s => (s.kind, s.value)

theorem map_tag_modify (slots : List Slot) (i : Nat) (change : Slot → Slot)
    (h : ∀ s, ((change s).kind, (change s).value) = (s.kind, s.value)) :
    (slots.modify i change).map (fun s => (s.kind, s.value)) =
      slots.map fun s => (s.kind, s.value) := by
  apply List.ext_getElem?
  intro j
  rw [List.getElem?_map, List.getElem?_map, List.getElem?_modify]
  cases slots[j]? with
  | none => rfl
  | some s => by_cases hij : i = j <;> simp [hij, h]

theorem tags_prefix_assign (t : Literals) (kind : SlotKind) (value : String) :
    t.tags <+: (t.assign kind value).2.tags := by
  unfold assign
  split
  . exact List.prefix_rfl
  . simp [tags]

theorem tags_assign (t : Literals) (kind : SlotKind) (value : String) :
    (t.assign kind value).2.tags[(t.assign kind value).1]? = some (kind, value) := by
  unfold assign
  split
  . next i hi =>
    obtain ⟨hlt, hp, -⟩ := List.findIdx?_eq_some_iff_getElem.1 hi
    simp only [Bool.and_eq_true, beq_iff_eq] at hp
    simp [tags, hlt, hp]
  . simp [tags]

theorem shapes_assign (t : Literals) (kind : SlotKind) (value : String) :
    (t.assign kind value).2.shapes = t.shapes := by
  unfold assign
  split <;> rfl

def Names (t : Literals) (s : Shape) : Prop :=
  Engine.shapeField? s.props = some s.cname ∨
    ∃ i : Nat, t.tags[i]? = some (.shape, s.key) ∧ s.cname = s!"shape_{i}"

def IsKeyed (t : Literals) : Prop :=
  ∀ key s, t.shapes.lookup key = some s → s.key = key ∧ t.Names s

structure Grows (t t' : Literals) : Prop where
  tags : t.tags <+: t'.tags
  shapes : ∀ key s, t.shapes.lookup key = some s → t'.shapes.lookup key = some s

theorem Grows.refl (t : Literals) : t.Grows t := ⟨List.prefix_rfl, fun _ _ h => h⟩

theorem Grows.trans {t u v : Literals} (h : t.Grows u) (h' : u.Grows v) : t.Grows v :=
  ⟨h.tags.trans h'.tags, fun key s hs => h'.shapes key s (h.shapes key s hs)⟩

theorem Names.mono {t t' : Literals} {s : Shape} (h : t.tags <+: t'.tags) (hs : t.Names s) :
    t'.Names s := by
  rcases hs with hs | ⟨i, hi, hname⟩
  . exact .inl hs
  . refine .inr ⟨i, ?_, hname⟩
    obtain ⟨more, hmore⟩ := h
    rw [← hmore, List.getElem?_append_left (List.getElem?_eq_some_iff.1 hi).1]
    exact hi

theorem shapeField?_inj {ps qs : List String} {field : String}
    (hp : Engine.shapeField? ps = some field) (hq : Engine.shapeField? qs = some field) :
    ps = qs := by
  unfold Engine.shapeField? at hp hq
  split at hp <;> split at hq <;> simp only [Option.some.injEq, reduceCtorEq] at hp hq
  . rfl
  . exact absurd (hp.trans hq.symm) (by decide)
  . exact absurd (hp.trans hq.symm) (by decide)
  . rfl

theorem shapeField?_ne_indexed {props : List String} {i : Nat} :
    Engine.shapeField? props ≠ some s!"shape_{i}" := by
  intro h
  have hfirst := congrArg (fun o : Option String => o.bind fun s => s.toList.head?) h
  unfold Engine.shapeField? at hfirst
  split at hfirst <;> simp [toString] at hfirst

theorem Names.key_eq {t : Literals} {s s' : Shape} (hs : t.Names s) (hs' : t.Names s')
    (h : s.cname = s'.cname) : s.key = s'.key := by
  rcases hs with hs | ⟨i, hi, hname⟩ <;> rcases hs' with hs' | ⟨j, hj, hname'⟩
  . rw [h] at hs
    exact congrArg Shape.keyOf (shapeField?_inj hs hs')
  . rw [h, hname'] at hs
    exact absurd hs shapeField?_ne_indexed
  . rw [← h, hname] at hs'
    exact absurd hs' shapeField?_ne_indexed
  . rw [hname, hname'] at h
    have hij : i = j := by
      have := String.toList_inj.2 h
      simp only [toString, String.toList_append, List.append_cancel_left_eq,
        String.toList_inj] at this
      exact Nat.repr_inj.1 this
    rw [hij, hj] at hi
    simpa using hi.symm

structure Serves (t t' : Literals) : Prop extends t.Grows t' where
  keyed : t.IsKeyed → t'.IsKeyed

theorem Serves.refl (t : Literals) : t.Serves t := ⟨.refl t, id⟩

theorem Serves.trans {t u v : Literals} (h : t.Serves u) (h' : u.Serves v) : t.Serves v :=
  ⟨h.toGrows.trans h'.toGrows, fun ht => h'.keyed (h.keyed ht)⟩

theorem serves_of_shapes_eq {t t' : Literals} (htags : t.tags <+: t'.tags)
    (hshapes : t'.shapes = t.shapes) : t.Serves t' := by
  refine ⟨⟨htags, ?_⟩, ?_⟩
  . intro key s hs
    rwa [hshapes]
  . intro ht key s hs
    rw [hshapes] at hs
    exact ⟨(ht key s hs).1, (ht key s hs).2.mono htags⟩

theorem serves_assign (t : Literals) (kind : SlotKind) (value : String) :
    t.Serves (t.assign kind value).2 :=
  serves_of_shapes_eq (tags_prefix_assign t kind value) (shapes_assign t kind value)

theorem shapes_string (t : Literals) (value : String) (isKey : Bool) :
    (t.string value isKey).2.shapes = t.shapes := by
  unfold string
  split
  . rfl
  . exact shapes_assign t .string value

theorem tags_prefix_string (t : Literals) (value : String) (isKey : Bool) :
    t.tags <+: (t.string value isKey).2.tags := by
  unfold string
  split
  . exact List.prefix_rfl
  . apply (tags_prefix_assign t .string value).trans
    cases t.assign .string value with
    | mk i u =>
      have hsame := map_tag_modify u.slots i (fun s => { s with isKey := s.isKey || isKey })
        fun _ => rfl
      exact ⟨[], by rw [List.append_nil]; exact hsame.symm⟩

theorem serves_string (t : Literals) (value : String) (isKey : Bool) :
    t.Serves (t.string value isKey).2 :=
  serves_of_shapes_eq (tags_prefix_string t value isKey) (shapes_string t value isKey)

theorem serves_bigint (t : Literals) (digits : String) : t.Serves (t.bigint digits).2 :=
  serves_assign t .bigint digits

theorem shapes_keys (t : Literals) (names : List String) : (t.keys names).shapes = t.shapes := by
  unfold keys
  induction names generalizing t with
  | nil => rfl
  | cons name rest ih => exact (ih _).trans (shapes_string t name true)

theorem tags_prefix_keys (t : Literals) (names : List String) :
    t.tags <+: (t.keys names).tags := by
  unfold keys
  induction names generalizing t with
  | nil => exact List.prefix_rfl
  | cons name rest ih => exact (tags_prefix_string t name true).trans (ih _)

theorem lookup_cons_of_ne {key key' : String} {s : Shape} {shapes : List (String × Shape)}
    (h : key ≠ key') : ((key', s) :: shapes).lookup key = shapes.lookup key := by
  rw [List.lookup_cons, beq_eq_false_iff_ne.2 h]

theorem serves_insert {t : Literals} {s : Shape} {count : Nat}
    (hnew : t.shapes.lookup s.key = none) (hs : t.Names s) :
    t.Serves { t with shapes := (s.key, s) :: t.shapes, shapeCount := count } := by
  refine ⟨⟨List.prefix_rfl, ?_⟩, ?_⟩
  . intro key u hu
    have hne : key ≠ s.key := by
      rintro rfl
      rw [hnew] at hu
      cases hu
    simpa only [lookup_cons_of_ne hne] using hu
  . intro ht key u hu
    by_cases hkey : key = s.key
    . subst hkey
      simp only [List.lookup_cons_self, Option.some.injEq] at hu
      subst hu
      exact ⟨rfl, hs⟩
    . rw [lookup_cons_of_ne hkey] at hu
      exact ht key u hu

def shapeSlot (t : Literals) (props : List String) : Nat × Literals :=
  let (i, u) := (t.keys props).assign .shape (Shape.keyOf props)
  (i, { u with slots := u.slots.modify i fun s => { s with props := some props } })

theorem shapes_shapeSlot (t : Literals) (props : List String) :
    (t.shapeSlot props).2.shapes = t.shapes :=
  (shapes_assign _ _ _).trans (shapes_keys t props)

theorem tags_shapeSlot (t : Literals) (props : List String) :
    t.tags <+: (t.shapeSlot props).2.tags ∧
      (t.shapeSlot props).2.tags[(t.shapeSlot props).1]? = some (.shape, Shape.keyOf props) := by
  unfold shapeSlot
  have hmore := (tags_prefix_keys t props).trans
    (tags_prefix_assign (t.keys props) .shape (Shape.keyOf props))
  have htag := tags_assign (t.keys props) .shape (Shape.keyOf props)
  cases hiu : (t.keys props).assign .shape (Shape.keyOf props) with
  | mk i u =>
    rw [hiu] at hmore htag
    have hsame : ({ u with
        slots := u.slots.modify i fun s => { s with props := some props } } : Literals).tags =
        u.tags :=
      map_tag_modify u.slots i (fun s => { s with props := some props }) fun _ => rfl
    dsimp only at hmore htag ⊢
    rw [hsame]
    exact ⟨hmore, htag⟩

theorem cnameAt_shapeSlot (t : Literals) (props : List String) :
    (t.shapeSlot props).2.cnameAt (t.shapeSlot props).1 = s!"shape_{(t.shapeSlot props).1}" := by
  unfold shapeSlot
  have htag := tags_assign (t.keys props) .shape (Shape.keyOf props)
  cases hiu : (t.keys props).assign .shape (Shape.keyOf props) with
  | mk i u =>
    rw [hiu] at htag
    obtain ⟨hlt, -⟩ := List.getElem?_eq_some_iff.1 htag
    have hlt' : i < u.slots.length := by simpa [tags] using hlt
    simp [cnameAt, Slot.cname, List.getD_eq_getElem?_getD, hlt']

theorem shape_eq (t : Literals) (props : List String) :
    t.shape props =
      match t.shapes.lookup (Shape.keyOf props), Engine.shapeField? props with
      | some s, _ => (s, t)
      | none, some field =>
        let s : Shape := ⟨props, field, some field⟩
        (s, { t with shapes := (s.key, s) :: t.shapes })
      | none, none =>
        let (i, u) := t.shapeSlot props
        let s : Shape := ⟨props, s!"shape_{i}", none⟩
        (s, { u with shapes := (s.key, s) :: u.shapes, shapeCount := u.shapeCount + 1 }) := by
  unfold shape
  dsimp only
  cases hkey : t.shapes.lookup (Shape.keyOf props) with
  | some s => rfl
  | none =>
    cases hfield : Engine.shapeField? props with
    | some field => rfl
    | none =>
      have hname := cnameAt_shapeSlot t props
      unfold shapeSlot at hname ⊢
      dsimp only at hname ⊢
      rw [hname]
      rfl

theorem serves_shape (t : Literals) (props : List String) : t.Serves (t.shape props).2 := by
  rw [shape_eq]
  split
  . exact .refl t
  . next hnone hfield =>
    exact serves_insert (s := ⟨props, _, some _⟩) hnone (.inl hfield)
  . next hnone hfield =>
    obtain ⟨htags, htag⟩ := tags_shapeSlot t props
    have hshapes := shapes_shapeSlot t props
    apply (serves_of_shapes_eq htags hshapes).trans
    apply serves_insert (s := ⟨props, s!"shape_{(t.shapeSlot props).1}", none⟩)
    . rw [hshapes]
      exact hnone
    . exact .inr ⟨_, htag, rfl⟩

theorem lookup_shape (t : Literals) (props : List String) :
    (t.shape props).2.shapes.lookup (Shape.keyOf props) = some (t.shape props).1 := by
  rw [shape_eq]
  split
  . next h => exact h
  . exact List.lookup_cons_self
  . exact List.lookup_cons_self

end Literals

inductive Request where
  | string (value : String) (isKey : Bool)
  | bigint (digits : String)
  | shape (props : List String)

namespace Literals

def serve (t : Literals) : Request → Literals
  | .string value isKey => (t.string value isKey).2
  | .bigint digits => (t.bigint digits).2
  | .shape props => (t.shape props).2

def interned (t : Literals) : List Request → List (List String × Shape)
  | [] => []
  | r :: rest =>
    match r with
    | .shape props => (props, (t.shape props).1) :: (t.serve r).interned rest
    | _ => (t.serve r).interned rest

theorem serves_serve (t : Literals) (r : Request) : t.Serves (t.serve r) := by
  cases r with
  | string value isKey => exact serves_string t value isKey
  | bigint digits => exact serves_bigint t digits
  | shape props => exact serves_shape t props

theorem serves_foldl (t : Literals) (requests : List Request) :
    t.Serves (requests.foldl serve t) := by
  induction requests generalizing t with
  | nil => exact .refl t
  | cons r rest ih => exact (serves_serve t r).trans (ih _)

theorem lookup_of_mem_interned {t : Literals} {requests : List Request}
    {p : List String × Shape} (h : p ∈ t.interned requests) :
    (requests.foldl serve t).shapes.lookup (Shape.keyOf p.1) = some p.2 := by
  induction requests generalizing t with
  | nil => cases h
  | cons r rest ih =>
    cases r with
    | string value isKey => exact ih h
    | bigint digits => exact ih h
    | shape props =>
      rcases List.mem_cons.1 h with rfl | h
      . exact (serves_foldl (t.shape props).2 rest).shapes _ _ (lookup_shape t props)
      . exact ih h

theorem mem_interned_of_request {t : Literals} {requests : List Request} {props : List String}
    (h : .shape props ∈ requests) : props ∈ (t.interned requests).map (·.1) := by
  induction requests generalizing t with
  | nil => cases h
  | cons r rest ih =>
    cases r with
    | string value isKey => exact ih (by simpa using h)
    | bigint digits => exact ih (by simpa using h)
    | shape first =>
      rw [interned, List.map_cons, List.mem_cons]
      rcases List.mem_cons.1 h with h | h
      . left
        exact Request.shape.inj h
      . right
        exact ih h

theorem isKeyed_empty : ({} : Literals).IsKeyed := by
  intro key s hs
  cases hs

theorem key_of_mem_interned {requests : List Request} {p : List String × Shape}
    (h : p ∈ ({} : Literals).interned requests) :
    p.2.key = Shape.keyOf p.1 ∧ (requests.foldl serve {}).Names p.2 :=
  (serves_foldl {} requests).keyed isKeyed_empty _ _ (lookup_of_mem_interned h)

theorem shape_eq_iff_keyOf_eq {requests : List Request} {p q : List String × Shape}
    (hp : p ∈ ({} : Literals).interned requests) (hq : q ∈ ({} : Literals).interned requests) :
    (p.2 = q.2 ↔ Shape.keyOf p.1 = Shape.keyOf q.1) ∧
      (p.2.cname = q.2.cname ↔ Shape.keyOf p.1 = Shape.keyOf q.1) := by
  obtain ⟨hpkey, hpname⟩ := key_of_mem_interned hp
  obtain ⟨hqkey, hqname⟩ := key_of_mem_interned hq
  have hsame : Shape.keyOf p.1 = Shape.keyOf q.1 → p.2 = q.2 := by
    intro h
    have hfound := lookup_of_mem_interned hp
    rw [h, lookup_of_mem_interned hq] at hfound
    exact (Option.some.inj hfound).symm
  refine ⟨⟨?_, hsame⟩, ⟨?_, fun h => congrArg Shape.cname (hsame h)⟩⟩
  . intro h
    rw [← hpkey, ← hqkey, h]
  . intro h
    rw [← hpkey, ← hqkey]
    exact hpname.key_eq hqname h

def Holds (P : List String → Prop) (t : Literals) : Prop :=
  ∀ key s, t.shapes.lookup key = some s → P s.props

theorem holds_insert {P : List String → Prop} {t : Literals} {s : Shape} {slots : List Slot}
    {count : Nat} (ht : t.Holds P) (hs : P s.props) :
    Literals.Holds P ⟨slots, (s.key, s) :: t.shapes, count⟩ := by
  intro key u hu
  by_cases hkey : key = s.key
  . subst hkey
    simp only [List.lookup_cons_self, Option.some.injEq] at hu
    rwa [← hu]
  . rw [lookup_cons_of_ne hkey] at hu
    exact ht key u hu

theorem holds_shape {P : List String → Prop} {t : Literals} {props : List String}
    (ht : t.Holds P) (hprops : P props) : (t.shape props).2.Holds P := by
  rw [shape_eq]
  split
  . exact ht
  . exact holds_insert (s := ⟨props, _, some _⟩) ht hprops
  . dsimp only
    rw [shapes_shapeSlot]
    exact holds_insert (s := ⟨props, _, none⟩) ht hprops

theorem props_shape {t : Literals} {lists : List (List String)} {props : List String}
    (hlists : Shape.TellsApart lists) (hkeyed : t.IsKeyed) (ht : t.Holds (· ∈ lists))
    (hprops : props ∈ lists) : (t.shape props).1.props = props := by
  have hfound := lookup_shape t props
  have hmem := holds_shape ht hprops _ _ hfound
  exact hlists _ hmem _ hprops ((serves_shape t props).keyed hkeyed _ _ hfound).1

theorem holds_serve {P : List String → Prop} {t : Literals} {r : Request} (ht : t.Holds P)
    (hr : ∀ props, r = .shape props → P props) : (t.serve r).Holds P := by
  intro key s hs
  cases r with
  | string value isKey =>
    apply ht key
    rwa [serve, shapes_string] at hs
  | bigint digits =>
    apply ht key
    rwa [serve, bigint, shapes_assign] at hs
  | shape props => exact holds_shape ht (hr props rfl) key s hs

theorem props_of_mem_interned {P : List String → Prop} {t : Literals} {requests : List Request}
    {p : List String × Shape} (ht : t.Holds P)
    (hall : ∀ props, .shape props ∈ requests → P props) (h : p ∈ t.interned requests) :
    P p.2.props := by
  induction requests generalizing t with
  | nil => cases h
  | cons r rest ih =>
    have hrest : ∀ props, .shape props ∈ rest → P props :=
      fun props hprops => hall props (List.mem_cons_of_mem _ hprops)
    have hserve : (t.serve r).Holds P := by
      apply holds_serve ht
      rintro props rfl
      exact hall props List.mem_cons_self
    cases r with
    | string value isKey => exact ih hserve hrest h
    | bigint digits => exact ih hserve hrest h
    | shape props =>
      rcases List.mem_cons.1 h with rfl | h
      . exact hserve _ _ (lookup_shape t props)
      . exact ih hserve hrest h

theorem interned_faithful_iff (requests : List Request) :
    (∀ p ∈ ({} : Literals).interned requests, ∀ q ∈ ({} : Literals).interned requests,
      p.2.props = p.1 ∧ (p.2 = q.2 ↔ p.1 = q.1) ∧ (p.2.cname = q.2.cname ↔ p.1 = q.1)) ↔
      Shape.TellsApart ((({} : Literals).interned requests).map (·.1)) := by
  constructor
  . intro h ps hps qs hqs hkey
    obtain ⟨p, hp, rfl⟩ := List.mem_map.1 hps
    obtain ⟨q, hq, rfl⟩ := List.mem_map.1 hqs
    exact (h p hp q hq).2.1.1 ((shape_eq_iff_keyOf_eq hp hq).1.2 hkey)
  . intro hlists p hp q hq
    have hmem : ∀ {r}, r ∈ ({} : Literals).interned requests →
        r.1 ∈ (({} : Literals).interned requests).map (·.1) :=
      fun hr => List.mem_map_of_mem hr
    have hprops : p.2.props ∈ (({} : Literals).interned requests).map (·.1) := by
      apply props_of_mem_interned _ (fun _ => mem_interned_of_request) hp
      intro key s hs
      cases hs
    obtain ⟨hshape, hname⟩ := shape_eq_iff_keyOf_eq hp hq
    have hkey : Shape.keyOf p.1 = Shape.keyOf q.1 ↔ p.1 = q.1 :=
      ⟨hlists _ (hmem hp) _ (hmem hq), congrArg Shape.keyOf⟩
    refine ⟨?_, hshape.trans hkey, hname.trans hkey⟩
    exact hlists _ hprops _ (hmem hp) (key_of_mem_interned hp).1

/-- A name with a NUL character shares its shape with the list of its parts. -/
theorem interned_nul_shared :
    ({} : Literals).interned [.shape ["a\x00b"], .shape ["a", "b"]] =
      [(["a\x00b"], ⟨["a\x00b"], "shape_1", none⟩),
        (["a", "b"], ⟨["a\x00b"], "shape_1", none⟩)] := by
  decide

end Literals
end ScriptC
