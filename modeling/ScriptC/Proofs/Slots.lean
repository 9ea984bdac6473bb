import Mathlib.Data.List.Nodup
import Mathlib.Data.Set.Basic
import ScriptC.Proofs.Literals

/-!
The slots behind the answers of a table of literals. Every answer is either a field of the engine or
the name of the slot that the request is found by; slots are only added at the end, so names stay,
and the names of a shape have their slots before it.
-/

namespace ScriptC

namespace Engine

theorem stringField?_eq {v field : String} (h : stringField? v = some field) :
    v ≠ "empty" ∧ field = "env->str_" ++ if v = "" then "empty" else v := by
  unfold stringField? at h
  split at h <;> simp only [Option.some.injEq, reduceCtorEq] at h <;> subst h <;> decide

theorem stringField?_inj {v w field : String} (hv : stringField? v = some field)
    (hw : stringField? w = some field) : v = w := by
  obtain ⟨hvne, hv⟩ := stringField?_eq hv
  obtain ⟨hwne, hw⟩ := stringField?_eq hw
  have h : (if v = "" then "empty" else v) = if w = "" then "empty" else w := by
    have := String.toList_inj.2 (hv.symm.trans hw)
    rwa [String.toList_append, String.toList_append, List.append_cancel_left_eq,
      String.toList_inj] at this
  split at h <;> split at h
  . next hv hw => rw [hv, hw]
  . exact absurd h.symm hwne
  . exact absurd h hvne
  . exact h

theorem stringField?_of_shapeField? {props : List String} {field : String}
    (h : shapeField? props = some field) : ∀ p ∈ props, (stringField? p).isSome := by
  unfold shapeField? at h
  split at h
  . decide
  . decide
  . cases h

theorem stringField?_ne_shapeField? {v field : String} {props : List String}
    (hv : stringField? v = some field) : shapeField? props ≠ some field := by
  intro hprops
  obtain ⟨-, rfl⟩ := stringField?_eq hv
  have h := congrArg (fun o : Option String => o.map fun s => s.toList.take 7) hprops
  unfold shapeField? at h
  split at h <;> simp at h

end Engine

namespace Request

def tag : Request → SlotKind × String
  | .string value _ => (.string, value)
  | .bigint digits => (.bigint, digits)
  | .shape props => (.shape, Shape.keyOf props)

def field? : Request → Option String
  | .string value _ => Engine.stringField? value
  | .bigint _ => none
  | .shape props => Engine.shapeField? props

def literal : Request → SlotKind × List String
  | .string value _ => (.string, [value])
  | .bigint digits => (.bigint, [digits])
  | .shape props => (.shape, props)

def keyNames : Request → List String
  | .string value isKey => if isKey then [value] else []
  | .bigint _ => []
  | .shape props => props

def IsPlain : Request → Prop
  | .shape props => Shape.IsPlain props
  | _ => True

instance (r : Request) : Decidable r.IsPlain :=
  match r with
  | .shape props => inferInstanceAs (Decidable (Shape.IsPlain props))
  | .string .. | .bigint _ => inferInstanceAs (Decidable True)

theorem tag_eq_of_literal_eq {r s : Request} (h : r.literal = s.literal) :
    r.tag = s.tag ∧ r.field? = s.field? := by
  cases r <;> cases s <;> simp_all [literal, tag, field?]

theorem literal_eq_of_tag_eq {r s : Request} (hr : r.IsPlain) (hs : s.IsPlain)
    (h : r.tag = s.tag) : r.literal = s.literal := by
  cases r <;> cases s <;> simp_all [literal, tag]
  exact Shape.keyOf_inj hr hs h

theorem literal_eq_of_field?_eq {r s : Request} {field : String} (hr : r.field? = some field)
    (hs : s.field? = some field) : r.literal = s.literal := by
  cases r with
  | bigint digits => cases hr
  | string v isKey =>
    cases s with
    | bigint digits => cases hs
    | string w isKey' => rw [literal, literal, Engine.stringField?_inj hr hs]
    | shape props => exact absurd hs (Engine.stringField?_ne_shapeField? hr)
  | shape ps =>
    cases s with
    | bigint digits => cases hs
    | string v isKey => exact absurd hr (Engine.stringField?_ne_shapeField? hs)
    | shape qs => rw [literal, literal, Literals.shapeField?_inj hr hs]

end Request

namespace Literals

def slotName (kind : SlotKind) (i : Nat) : String :=
  if kind = .shape then s!"shape_{i}" else s!"lit_{i}"

theorem slotName_inj {kind kind' : SlotKind} {i j : Nat}
    (h : slotName kind i = slotName kind' j) : i = j := by
  have h := String.toList_inj.2 h
  unfold slotName at h
  split at h <;> split at h <;>
    simp only [toString, String.toList_append] at h
  . rw [List.append_cancel_left_eq, String.toList_inj] at h
    exact Nat.repr_inj.1 h
  . simp at h
  . simp at h
  . rw [List.append_cancel_left_eq, String.toList_inj] at h
    exact Nat.repr_inj.1 h

theorem field?_ne_slotName {r : Request} {kind : SlotKind} {i : Nat} :
    r.field? ≠ some (slotName kind i) := by
  intro h
  have hslot : (slotName kind i).toList.head? ≠ some 'e' := by
    unfold slotName
    split <;> simp [toString]
  cases r with
  | string v isKey =>
    obtain ⟨-, hv⟩ := Engine.stringField?_eq h
    simp [hv] at hslot
  | bigint digits => cases h
  | shape props =>
    apply hslot
    unfold Request.field? Engine.shapeField? at h
    dsimp only at h
    split at h
    . rw [← Option.some.inj h]
      simp
    . rw [← Option.some.inj h]
      simp
    . cases h

def Gives (t : Literals) (r : Request) (name : String) : Prop :=
  r.field? = some name ∨
    r.field? = none ∧ ∃ i : Nat, t.tags[i]? = some r.tag ∧ name = slotName r.tag.1 i

theorem Gives.mono {t t' : Literals} {r : Request} {name : String} (h : t.tags <+: t'.tags)
    (hr : t.Gives r name) : t'.Gives r name := by
  rcases hr with hr | ⟨hr, i, hi, hname⟩
  . exact .inl hr
  . refine .inr ⟨hr, i, ?_, hname⟩
    obtain ⟨more, hmore⟩ := h
    rw [← hmore, List.getElem?_append_left (List.getElem?_eq_some_iff.1 hi).1]
    exact hi

theorem Gives.eq_iff {t : Literals} {r s : Request} {name name' : String} (ht : t.tags.Nodup)
    (hr : t.Gives r name) (hs : t.Gives s name') (hrp : r.IsPlain) (hsp : s.IsPlain) :
    name = name' ↔ r.literal = s.literal := by
  constructor
  . rintro rfl
    rcases hr with hr | ⟨-, i, hi, hname⟩ <;> rcases hs with hs | ⟨-, j, hj, hname'⟩
    . exact Request.literal_eq_of_field?_eq hr hs
    . exact absurd (hname' ▸ hr) field?_ne_slotName
    . exact absurd (hname ▸ hs) field?_ne_slotName
    . apply Request.literal_eq_of_tag_eq hrp hsp
      have hij := slotName_inj (hname.symm.trans hname')
      rw [hij, hj] at hi
      exact (Option.some.inj hi).symm
  . intro h
    obtain ⟨htag, hfield⟩ := Request.tag_eq_of_literal_eq h
    rcases hr with hr | ⟨hr, i, hi, hname⟩ <;> rcases hs with hs | ⟨hs, j, hj, hname'⟩
    . exact Option.some.inj (hr.symm.trans (hfield.trans hs))
    . rw [hfield, hs] at hr
      cases hr
    . rw [hfield, hs] at hr
      cases hr
    . have hij : i = j := by
        obtain ⟨hlt, hi⟩ := List.getElem?_eq_some_iff.1 hi
        obtain ⟨hlt', hj⟩ := List.getElem?_eq_some_iff.1 hj
        exact (List.Nodup.getElem_inj_iff ht).1 (hi.trans (htag.trans hj.symm))
      rw [hname, hname', htag, hij]

/--
A table in which some strings were used as keys and some lists had their shapes asked for: slots are
found by their tags, carry the right flags, and come after those that they refer to.
-/
structure Kept (keyed : Set String) (lists : Set (List String)) (t : Literals) : Prop where
  nodup : t.tags.Nodup
  noField : ∀ v, (.string, v) ∈ t.tags → Engine.stringField? v = none
  flag : ∀ s ∈ t.slots, s.kind = .string → (s.isKey = true ↔ s.value ∈ keyed)
  slotted : ∀ v ∈ keyed, Engine.stringField? v = none → (.string, v) ∈ t.tags
  props : ∀ s ∈ t.slots, s.props.isSome ↔ s.kind = .shape
  ready : ∀ (i : Nat) (s : Slot) (ps : List String), t.slots[i]? = some s → s.props = some ps →
    ps ∈ lists ∧
      ∀ p ∈ ps, Engine.stringField? p = none → ∃ j < i, t.tags[j]? = some (.string, p)
  listed : ∀ ps ∈ lists, ∀ p ∈ ps, p ∈ keyed
  shapes : ∀ key s, t.shapes.lookup key = some s →
    s.key = key ∧ s.props ∈ lists ∧ t.Gives (.shape s.props) s.cname

theorem kept_empty : Kept ∅ ∅ {} := by
  constructor <;> simp [tags]

section Kept

variable {keyed : Set String} {lists : Set (List String)} {t : Literals}

theorem mem_tags_of_mem_slots {s : Slot} (h : s ∈ t.slots) : (s.kind, s.value) ∈ t.tags :=
  List.mem_map.2 ⟨s, h, rfl⟩

theorem Kept.cname_eq (ht : Kept keyed lists t) {s : Slot} (hs : s ∈ t.slots) (i : Nat) :
    s.cname i = slotName s.kind i := by
  unfold Slot.cname slotName
  by_cases hkind : s.kind = .shape
  . rw [if_pos ((ht.props s hs).2 hkind), if_pos hkind]
  . rw [if_neg (fun h => hkind ((ht.props s hs).1 h)), if_neg hkind]

theorem getElem?_tags {i : Nat} : t.tags[i]? = t.slots[i]?.map fun s => (s.kind, s.value) :=
  List.getElem?_map

theorem Kept.cnameAt_eq (ht : Kept keyed lists t) {i : Nat} {tag : SlotKind × String}
    (hi : t.tags[i]? = some tag) : t.cnameAt i = slotName tag.1 i := by
  rw [getElem?_tags] at hi
  obtain ⟨s, hs, rfl⟩ := Option.map_eq_some_iff.1 hi
  rw [cnameAt, List.getD_eq_getElem?_getD, hs]
  exact ht.cname_eq (List.mem_of_getElem? hs) i

theorem index?_eq_none_iff {kind : SlotKind} {value : String} :
    t.index? kind value = none ↔ (kind, value) ∉ t.tags := by
  simp [index?, tags, List.findIdx?_eq_none_iff]

theorem assign_eq_of_not_mem {kind : SlotKind} {value : String} (h : (kind, value) ∉ t.tags) :
    t.assign kind value =
      (t.slots.length, { t with slots := t.slots ++ [{ kind, value }] }) := by
  unfold assign
  rw [index?_eq_none_iff.2 h]

theorem assign_eq_of_mem {kind : SlotKind} {value : String} (h : (kind, value) ∈ t.tags) :
    ∃ i, t.assign kind value = (i, t) ∧ t.tags[i]? = some (kind, value) := by
  have htag := tags_assign t kind value
  unfold assign at htag ⊢
  split at htag
  . next i hi =>
    exact ⟨i, rfl, htag⟩
  . next hi => exact absurd h (index?_eq_none_iff.1 hi)

theorem tags_push (slot : Slot) :
    ({ t with slots := t.slots ++ [slot] } : Literals).tags =
      t.tags ++ [(slot.kind, slot.value)] := by
  simp [tags]

theorem Kept.push (ht : Kept keyed lists t) (slot : Slot)
    (hnew : (slot.kind, slot.value) ∉ t.tags)
    (hfield : slot.kind = .string → Engine.stringField? slot.value = none)
    (hprops : slot.props.isSome ↔ slot.kind = .shape)
    (hready : ∀ ps, slot.props = some ps → ps ∈ lists) :
    Kept (keyed ∪ {v | v = slot.value ∧ slot.kind = .string ∧ slot.isKey = true}) lists
      { t with slots := t.slots ++ [slot] } := by
  have hmore : t.tags <+: ({ t with slots := t.slots ++ [slot] } : Literals).tags :=
    tags_push slot ▸ List.prefix_append ..
  constructor
  case nodup =>
    rw [tags_push]
    exact ht.nodup.append (List.nodup_singleton _) (by simpa using hnew)
  case noField =>
    intro v hv
    rw [tags_push, List.mem_append, List.mem_singleton] at hv
    rcases hv with hv | hv
    . exact ht.noField v hv
    . obtain ⟨hkind, rfl⟩ := Prod.mk.inj hv
      exact hfield hkind.symm
  case flag =>
    intro s hs hstring
    rcases List.mem_append.1 hs with hs | hs
    . have hne : ¬(s.value = slot.value ∧ slot.kind = .string ∧ slot.isKey = true) := by
        rintro ⟨hvalue, hkind, -⟩
        apply hnew
        rw [← hvalue, hkind, ← hstring]
        exact mem_tags_of_mem_slots hs
      simpa [hne] using ht.flag s hs hstring
    . rw [List.mem_singleton] at hs
      subst hs
      have hvalue : s.value ∉ keyed := by
        intro h
        apply hnew
        rw [hstring]
        exact ht.slotted s.value h (hfield hstring)
      simp [hvalue, hstring]
  case slotted =>
    intro v hv hnone
    rw [tags_push, List.mem_append]
    rcases hv with hv | ⟨rfl, hkind, -⟩
    . exact .inl (ht.slotted v hv hnone)
    . exact .inr (by simp [hkind])
  case props =>
    intro s hs
    rcases List.mem_append.1 hs with hs | hs
    . exact ht.props s hs
    . rw [List.mem_singleton.1 hs]
      exact hprops
  case ready =>
    intro i s ps hs hps
    -- The names of a list are keys, so they have their slots among the old ones.
    have hslotted : ps ∈ lists → ∀ p ∈ ps, Engine.stringField? p = none →
        ∃ j < t.slots.length, t.tags[j]? = some (.string, p) := by
      intro hlist p hp hnone
      obtain ⟨j, hj⟩ := List.mem_iff_getElem?.1 (ht.slotted p (ht.listed ps hlist p hp) hnone)
      refine ⟨j, ?_, hj⟩
      simpa [tags] using (List.getElem?_eq_some_iff.1 hj).1
    have hkeep : ∀ {j : Nat} {tag}, t.tags[j]? = some tag →
        ({ t with slots := t.slots ++ [slot] } : Literals).tags[j]? = some tag := by
      intro j tag hj
      rw [tags_push, List.getElem?_append_left (List.getElem?_eq_some_iff.1 hj).1]
      exact hj
    rw [List.getElem?_append] at hs
    split at hs
    . obtain ⟨hlist, hprops⟩ := ht.ready i s ps hs hps
      refine ⟨hlist, fun p hp hnone => ?_⟩
      obtain ⟨j, hj, htag⟩ := hprops p hp hnone
      exact ⟨j, hj, hkeep htag⟩
    . next hi =>
      rw [List.mem_singleton.1 (List.mem_of_getElem? hs)] at hps
      refine ⟨hready ps hps, fun p hp hnone => ?_⟩
      obtain ⟨j, hj, htag⟩ := hslotted (hready ps hps) p hp hnone
      exact ⟨j, by omega, hkeep htag⟩
  case listed => exact fun ps hps p hp => .inl (ht.listed ps hps p hp)
  case shapes =>
    intro key s hs
    obtain ⟨hkey, hlist, hname⟩ := ht.shapes key s hs
    exact ⟨hkey, hlist, hname.mono hmore⟩

theorem Kept.mark (ht : Kept keyed lists t) {i : Nat} {value : String} (isKey : Bool)
    (hi : t.tags[i]? = some (.string, value)) :
    Kept (keyed ∪ {v | v = value ∧ isKey = true}) lists
      { t with slots := t.slots.modify i fun s => { s with isKey := s.isKey || isKey } } := by
  have htags : ({ t with
      slots := t.slots.modify i fun s => { s with isKey := s.isKey || isKey } } : Literals).tags =
      t.tags :=
    map_tag_modify t.slots i (fun s => { s with isKey := s.isKey || isKey }) fun _ => rfl
  -- Every slot comes from one of the old table that differs at most in the flag.
  have hold : ∀ {j s}, (t.slots.modify i fun s => { s with isKey := s.isKey || isKey })[j]? =
      some s → ∃ u, t.slots[j]? = some u ∧ u.kind = s.kind ∧ u.value = s.value ∧
        u.props = s.props ∧ s.isKey = (u.isKey || (isKey && i == j)) := by
    intro j s hs
    rw [List.getElem?_modify] at hs
    obtain ⟨u, hu, rfl⟩ := Option.map_eq_some_iff.1 hs
    refine ⟨u, hu, ?_⟩
    by_cases hij : i = j <;> simp [hij]
  constructor
  case nodup =>
    rw [htags]
    exact ht.nodup
  case noField =>
    rw [htags]
    exact ht.noField
  case flag =>
    intro s hs hstring
    obtain ⟨j, hj⟩ := List.mem_iff_getElem?.1 hs
    obtain ⟨u, hu, hkind, hvalue, -, hkey⟩ := hold hj
    have hflag := ht.flag u (List.mem_of_getElem? hu) (hkind.trans hstring)
    have hsame : i = j ↔ s.value = value := by
      have hj : t.tags[j]? = some (.string, s.value) := by
        rw [getElem?_tags, hu, Option.map_some, hkind, hstring, hvalue]
      constructor
      . rintro rfl
        exact (Prod.mk.inj (Option.some.inj (hj.symm.trans hi))).2
      . rintro rfl
        obtain ⟨hlt, hi⟩ := List.getElem?_eq_some_iff.1 hi
        obtain ⟨hlt', hj⟩ := List.getElem?_eq_some_iff.1 hj
        exact (List.Nodup.getElem_inj_iff ht.nodup).1 (hi.trans hj.symm)
    rw [hkey, ← hvalue] at *
    simp [hflag, ← hsame, and_comm]
  case slotted =>
    intro v hv hnone
    rw [htags]
    rcases hv with hv | ⟨rfl, -⟩
    . exact ht.slotted v hv hnone
    . exact List.mem_of_getElem? hi
  case props =>
    intro s hs
    obtain ⟨j, hj⟩ := List.mem_iff_getElem?.1 hs
    obtain ⟨u, hu, hkind, -, hprops, -⟩ := hold hj
    rw [← hkind, ← hprops]
    exact ht.props u (List.mem_of_getElem? hu)
  case ready =>
    intro j s ps hj hps
    obtain ⟨u, hu, -, -, hprops, -⟩ := hold hj
    rw [htags]
    exact ht.ready j u ps hu (hprops.trans hps)
  case listed => exact fun ps hps p hp => .inl (ht.listed ps hps p hp)
  case shapes =>
    intro key s hs
    obtain ⟨hkey, hlist, hname⟩ := ht.shapes key s hs
    exact ⟨hkey, hlist, hname.mono (htags ▸ List.prefix_rfl)⟩

theorem Kept.addKeyed (ht : Kept keyed lists t) (more : Set String)
    (hmore : ∀ v ∈ more, v ∈ keyed ∨ (Engine.stringField? v).isSome) :
    Kept (keyed ∪ more) lists t := by
  refine { ht with flag := ?_, slotted := ?_, listed := ?_ }
  . intro s hs hstring
    rw [ht.flag s hs hstring]
    refine ⟨.inl, fun h => h.elim id fun h => (hmore _ h).elim id fun hfield => ?_⟩
    have hnone := ht.noField s.value (hstring ▸ mem_tags_of_mem_slots hs)
    rw [hnone] at hfield
    cases hfield
  . rintro v (hv | hv) hnone
    . exact ht.slotted v hv hnone
    . rcases hmore v hv with hv | hfield
      . exact ht.slotted v hv hnone
      . rw [hnone] at hfield
        cases hfield
  . exact fun ps hps p hp => .inl (ht.listed ps hps p hp)

theorem Kept.string (ht : Kept keyed lists t) (value : String) (isKey : Bool) :
    Kept (keyed ∪ {v | v = value ∧ isKey = true}) lists (t.string value isKey).2 ∧
      (t.string value isKey).2.Gives (.string value isKey) (t.string value isKey).1 := by
  unfold Literals.string
  cases hfield : Engine.stringField? value with
  | some field =>
    refine ⟨ht.addKeyed _ ?_, .inl hfield⟩
    rintro v ⟨rfl, -⟩
    exact .inr (by rw [hfield]; rfl)
  | none =>
    dsimp only
    by_cases hmem : (SlotKind.string, value) ∈ t.tags
    . obtain ⟨i, hassign, hi⟩ := assign_eq_of_mem hmem
      rw [hassign]
      have hkept := ht.mark isKey hi
      have htag := (map_tag_modify t.slots i
        (fun s => { s with isKey := s.isKey || isKey }) fun _ => rfl)
      have hi' : ({ t with slots := t.slots.modify i fun s =>
          { s with isKey := s.isKey || isKey } } : Literals).tags[i]? = some (.string, value) := by
        rw [← hi]
        exact congrArg (·[i]?) htag
      exact ⟨hkept, .inr ⟨hfield, i, hi', hkept.cnameAt_eq hi'⟩⟩
    . rw [assign_eq_of_not_mem hmem]
      have hkept := ht.push { kind := .string, value, isKey } hmem (fun _ => hfield)
        (by simp) (by simp)
      have hslots : ((t.slots ++ [({ kind := .string, value } : Slot)]).modify t.slots.length
          fun s => { s with isKey := s.isKey || isKey }) =
          t.slots ++ [{ kind := .string, value, isKey }] := by
        simp [List.modify_eq_take_drop]
      dsimp only
      rw [hslots]
      have hi : ({ t with slots := t.slots ++ [{ kind := .string, value, isKey }] } :
          Literals).tags[t.slots.length]? = some (.string, value) := by
        simp [tags]
      refine ⟨?_, .inr ⟨hfield, _, hi, hkept.cnameAt_eq hi⟩⟩
      simpa using hkept

theorem Kept.bigint (ht : Kept keyed lists t) (digits : String) :
    Kept keyed lists (t.bigint digits).2 ∧
      (t.bigint digits).2.Gives (.bigint digits) (t.bigint digits).1 := by
  have hkept : Kept keyed lists (t.assign .bigint digits).2 := by
    by_cases hmem : (SlotKind.bigint, digits) ∈ t.tags
    . obtain ⟨i, hassign, -⟩ := assign_eq_of_mem hmem
      rw [hassign]
      exact ht
    . rw [assign_eq_of_not_mem hmem]
      simpa using ht.push { kind := .bigint, value := digits } hmem (by simp) (by simp)
        (by simp)
  have htag := tags_assign t .bigint digits
  exact ⟨hkept, .inr ⟨rfl, _, htag, hkept.cnameAt_eq htag⟩⟩

theorem Kept.keys (ht : Kept keyed lists t) (names : List String) :
    Kept (keyed ∪ {v | v ∈ names}) lists (t.keys names) := by
  unfold Literals.keys
  induction names generalizing t keyed with
  | nil => simpa using ht
  | cons name rest ih =>
    have := ih (ht.string name true).1
    have hnames : keyed ∪ {v | v ∈ name :: rest} =
        keyed ∪ {v | v = name ∧ true = true} ∪ {v | v ∈ rest} := by
      ext v
      simp only [Set.mem_union, Set.mem_ofPred_eq, List.mem_cons, and_true, or_assoc]
    rw [hnames]
    exact this

theorem Kept.addList (ht : Kept keyed lists t) {props : List String}
    (hprops : ∀ p ∈ props, p ∈ keyed) : Kept keyed (lists ∪ {props}) t := by
  refine { ht with ready := ?_, listed := ?_, shapes := ?_ }
  . intro i s ps hs hps
    obtain ⟨hlist, hready⟩ := ht.ready i s ps hs hps
    exact ⟨.inl hlist, hready⟩
  . rintro ps (hps | rfl)
    . exact ht.listed ps hps
    . exact hprops
  . intro key s hs
    obtain ⟨hkey, hlist, hname⟩ := ht.shapes key s hs
    exact ⟨hkey, .inl hlist, hname⟩

theorem Kept.addShape (ht : Kept keyed lists t) {s : Shape} {count : Nat} (hs : s.props ∈ lists)
    (hname : t.Gives (.shape s.props) s.cname) :
    Kept keyed lists { t with shapes := (s.key, s) :: t.shapes, shapeCount := count } := by
  refine { ht with shapes := ?_ }
  intro key u hu
  by_cases hkey : key = s.key
  . subst hkey
    simp only [List.lookup_cons_self, Option.some.injEq] at hu
    subst hu
    exact ⟨rfl, hs, hname⟩
  . rw [lookup_cons_of_ne hkey] at hu
    exact ht.shapes key u hu

def Found (t : Literals) : Prop :=
  ∀ key, (.shape, key) ∈ t.tags → t.shapes.lookup key ≠ none

theorem mem_tags_assign {kind : SlotKind} {value : String} {tag : SlotKind × String}
    (h : tag ∈ (t.assign kind value).2.tags) : tag ∈ t.tags ∨ tag = (kind, value) := by
  by_cases hmem : (kind, value) ∈ t.tags
  . obtain ⟨i, hassign, -⟩ := assign_eq_of_mem hmem
    rw [hassign] at h
    exact .inl h
  . rw [assign_eq_of_not_mem hmem, tags_push, List.mem_append, List.mem_singleton] at h
    exact h

theorem mem_tags_string {value : String} {isKey : Bool} {tag : SlotKind × String}
    (h : tag ∈ (t.string value isKey).2.tags) : tag ∈ t.tags ∨ tag = (.string, value) := by
  unfold Literals.string at h
  split at h
  . exact .inl h
  . apply mem_tags_assign
    have hsame := map_tag_modify (t.assign .string value).2.slots (t.assign .string value).1
      (fun s => { s with isKey := s.isKey || isKey }) fun _ => rfl
    exact (congrArg (tag ∈ ·) hsame).mp h

theorem Found.string (ht : t.Found) (value : String) (isKey : Bool) :
    (t.string value isKey).2.Found := by
  intro key hkey
  rw [shapes_string]
  rcases mem_tags_string hkey with hkey | hkey
  . exact ht key hkey
  . cases hkey

theorem Found.bigint (ht : t.Found) (digits : String) : (t.bigint digits).2.Found := by
  intro key hkey
  rw [Literals.bigint, shapes_assign]
  rcases mem_tags_assign hkey with hkey | hkey
  . exact ht key hkey
  . cases hkey

theorem Found.keys (ht : t.Found) (names : List String) : (t.keys names).Found := by
  unfold Literals.keys
  induction names generalizing t with
  | nil => exact ht
  | cons name rest ih => exact ih (ht.string name true)

theorem Found.shapeSlot_eq (ht : t.Found) {props : List String}
    (hnew : t.shapes.lookup (Shape.keyOf props) = none) :
    (.shape, Shape.keyOf props) ∉ (t.keys props).tags ∧
      t.shapeSlot props = ((t.keys props).slots.length, { t.keys props with
        slots := (t.keys props).slots ++
          [{ kind := .shape, value := Shape.keyOf props, props := some props }] }) := by
  have hmem : (SlotKind.shape, Shape.keyOf props) ∉ (t.keys props).tags := by
    intro h
    apply ht.keys props _ h
    rw [shapes_keys]
    exact hnew
  refine ⟨hmem, ?_⟩
  unfold shapeSlot
  rw [assign_eq_of_not_mem hmem]
  simp [List.modify_eq_take_drop]

theorem Found.shape (ht : t.Found) (props : List String) : (t.shape props).2.Found := by
  have hinsert : ∀ {u : Literals} {s : Shape} {count : Nat},
      (∀ key, (.shape, key) ∈ u.tags → key = s.key ∨ u.shapes.lookup key ≠ none) →
      Literals.Found { u with shapes := (s.key, s) :: u.shapes, shapeCount := count } := by
    intro u s count hu key hkey
    by_cases h : key = s.key
    . rw [h, List.lookup_cons_self]
      simp
    . rw [lookup_cons_of_ne h]
      exact (hu key hkey).resolve_left h
  rw [shape_eq]
  split
  . exact ht
  . exact hinsert (s := ⟨props, _, some _⟩) fun key hkey => .inr (ht key hkey)
  . next hnone hfield =>
    obtain ⟨-, heq⟩ := ht.shapeSlot_eq hnone
    rw [heq]
    refine hinsert (s := ⟨props, _, none⟩) fun key hkey => ?_
    rw [tags_push, List.mem_append, List.mem_singleton] at hkey
    rcases hkey with hkey | hkey
    . exact .inr (ht.keys props key hkey)
    . exact .inl (Prod.mk.inj hkey).2

theorem Kept.shape (ht : Kept keyed lists t) (hfound : t.Found) {props : List String}
    (hlists : ∀ ps ∈ lists, Shape.IsPlain ps) (hprops : Shape.IsPlain props) :
    Kept (keyed ∪ {v | v ∈ props}) (lists ∪ {props}) (t.shape props).2 ∧
      (t.shape props).2.Gives (.shape props) (t.shape props).1.cname := by
  have hall : ∀ p ∈ props, p ∈ keyed ∪ {v | v ∈ props} := fun p hp => .inr hp
  rw [shape_eq]
  split
  . next s hs =>
    obtain ⟨hkey, hlist, hname⟩ := ht.shapes _ s hs
    have hsame : s.props = props := Shape.keyOf_inj (hlists _ hlist) hprops hkey
    rw [hsame] at hlist hname
    refine ⟨(ht.addKeyed _ fun v hv => .inl ?_).addList hall, hname⟩
    exact ht.listed props hlist v hv
  . next field hnone hfield =>
    have hkept := (ht.addKeyed {v | v ∈ props} fun v hv => .inr
      (Engine.stringField?_of_shapeField? hfield v hv)).addList hall
    exact ⟨hkept.addShape (s := ⟨props, field, some field⟩) (.inr rfl) (.inl hfield), .inl hfield⟩
  . next hnone hfield =>
    obtain ⟨hmem, heq⟩ := hfound.shapeSlot_eq hnone
    rw [heq]
    have hkept := ((ht.keys props).addList hall).push
      { kind := .shape, value := Shape.keyOf props, props := some props } hmem
      (by simp) (by simp) fun ps hps => .inr (Option.some.inj hps).symm
    have hname : Literals.Gives { t.keys props with
        slots := (t.keys props).slots ++
          [{ kind := .shape, value := Shape.keyOf props, props := some props }] }
        (.shape props) s!"shape_{(t.keys props).slots.length}" := by
      refine .inr ⟨hfield, (t.keys props).slots.length, ?_, rfl⟩
      simp [tags, Request.tag]
    simp only [reduceCtorEq, Bool.false_eq_true, and_false, Set.ofPred_false,
      Set.union_empty] at hkept
    exact ⟨hkept.addShape (s := ⟨props, _, none⟩) (.inr rfl) hname, hname⟩

end Kept

def answer (t : Literals) : Request → String
  | .string value isKey => (t.string value isKey).1
  | .bigint digits => (t.bigint digits).1
  | .shape props => (t.shape props).1.cname

def answers (t : Literals) : List Request → List (Request × String)
  | [] => []
  | r :: rest => (r, t.answer r) :: (t.serve r).answers rest

structure Serving (asked : List Request) (t : Literals) : Prop where
  kept : Kept {v | ∃ r ∈ asked, v ∈ r.keyNames} {ps | .shape ps ∈ asked} t
  found : t.Found

section Serving

variable {asked : List Request} {t : Literals}

theorem Serving.step (ht : Serving asked t) {r : Request} (hasked : ∀ s ∈ asked, s.IsPlain)
    (hr : r.IsPlain) :
    Serving (asked ++ [r]) (t.serve r) ∧ (t.serve r).Gives r (t.answer r) := by
  have hkeys : {v | ∃ s ∈ asked ++ [r], v ∈ s.keyNames} =
      {v | ∃ s ∈ asked, v ∈ s.keyNames} ∪ {v | v ∈ r.keyNames} := by
    ext v
    simp [or_and_right, exists_or]
  have hlists : {ps | .shape ps ∈ asked ++ [r]} =
      {ps | .shape ps ∈ asked} ∪ {ps | r = .shape ps} := by
    ext ps
    simp [eq_comm]
  cases r with
  | string value isKey =>
    obtain ⟨hkept, hname⟩ := ht.kept.string value isKey
    refine ⟨⟨?_, ht.found.string value isKey⟩, hname⟩
    have hown : {v | v ∈ (Request.string value isKey).keyNames} =
        {v | v = value ∧ isKey = true} := by
      ext v
      cases isKey <;> simp [Request.keyNames]
    rw [hkeys, hlists, hown]
    simpa [Literals.serve] using hkept
  | bigint digits =>
    obtain ⟨hkept, hname⟩ := ht.kept.bigint digits
    refine ⟨⟨?_, ht.found.bigint digits⟩, hname⟩
    have hown : {v | v ∈ (Request.bigint digits).keyNames} = ∅ := by
      ext v
      simp [Request.keyNames]
    rw [hkeys, hlists, hown]
    simpa [Literals.serve] using hkept
  | shape props =>
    obtain ⟨hkept, hname⟩ := ht.kept.shape ht.found (fun ps hps => hasked _ hps) hr
    refine ⟨⟨?_, ht.found.shape props⟩, hname⟩
    have hown : {ps | Request.shape props = .shape ps} = {props} := by
      ext ps
      exact ⟨fun h => (Request.shape.inj h).symm, fun h => congrArg Request.shape h.symm⟩
    rw [hkeys, hlists, hown]
    exact hkept

theorem Serving.run (ht : Serving asked t) (requests : List Request)
    (hplain : ∀ r ∈ asked ++ requests, r.IsPlain) :
    Serving (asked ++ requests) (requests.foldl serve t) ∧
      ∀ p ∈ t.answers requests, (requests.foldl serve t).Gives p.1 p.2 := by
  induction requests generalizing asked t with
  | nil => simpa [answers] using ht
  | cons r rest ih =>
    have hasked : ∀ s ∈ asked, s.IsPlain := fun s hs => hplain s (by simp [hs])
    obtain ⟨hserve, hname⟩ := ht.step hasked (hplain r (by simp))
    obtain ⟨hrest, hnames⟩ := ih hserve (by simpa using hplain)
    refine ⟨by simpa using hrest, ?_⟩
    rintro p hp
    rcases List.mem_cons.1 hp with rfl | hp
    . exact hname.mono (serves_foldl (t.serve r) rest).tags
    . exact hnames p hp

theorem serving_nil : Serving [] {} := by
  refine ⟨?_, by simp [Found, tags]⟩
  simpa using kept_empty

end Serving

def cnames (t : Literals) : List String := t.named.map (·.1)

def assigned? : C.Stmt → Option String
  | .expr (.assign (.raw name _) op _) => if op = "=" then some name else none
  | _ => none

section Names

variable {keyed : Set String} {lists : Set (List String)} {t : Literals}

theorem decls_names : t.decls.map (·.name) = t.cnames := by
  simp [decls, cnames]

theorem assigned_initializers : t.initializers.filterMap assigned? = t.cnames := by
  simp [initializers, cnames, assigned?, C.Expr.set, C.Expr.var, List.filterMap_map,
    Function.comp_def]

theorem Kept.cnames_eq (ht : Kept keyed lists t) :
    t.cnames = t.tags.mapIdx fun i tag => slotName tag.1 i := by
  apply List.ext_getElem?
  intro i
  simp only [cnames, named, tags, List.getElem?_mapIdx, List.getElem?_map, Option.map_map]
  cases hs : t.slots[i]? with
  | none => rfl
  | some s => simp [ht.cname_eq (List.mem_of_getElem? hs) i]

theorem Kept.cnames_nodup (ht : Kept keyed lists t) : t.cnames.Nodup := by
  rw [ht.cnames_eq, List.nodup_iff_injective_getElem]
  intro i j h
  simp only [List.getElem_mapIdx] at h
  exact Fin.ext (slotName_inj h)

theorem Kept.mem_cnames (ht : Kept keyed lists t) {i : Nat} {tag : SlotKind × String}
    (hi : t.tags[i]? = some tag) : slotName tag.1 i ∈ t.cnames := by
  rw [ht.cnames_eq]
  apply List.mem_of_getElem? (i := i)
  simp [hi]

theorem Kept.cnames_prefix {keyed' : Set String} {lists' : Set (List String)} {t' : Literals}
    (ht : Kept keyed lists t) (ht' : Kept keyed' lists' t') (h : t.tags <+: t'.tags) :
    t.cnames <+: t'.cnames := by
  obtain ⟨more, hmore⟩ := h
  rw [ht.cnames_eq, ht'.cnames_eq, ← hmore, List.mapIdx_append]
  exact List.prefix_append ..

theorem getElem?_initializers {i : Nat} : t.initializers[i]? =
    t.slots[i]?.map fun s => .expr (.set (.var (s.cname i)) (t.initial s)) := by
  simp [initializers, named, Function.comp_def]

theorem Kept.string_listed (ht : Kept keyed lists t) {ps : List String} {p : String}
    (hps : ps ∈ lists) (hp : p ∈ ps) : (t.string p true).2 = t := by
  unfold Literals.string
  cases hfield : Engine.stringField? p with
  | some field => rfl
  | none =>
    have hkeyed := ht.listed ps hps p hp
    obtain ⟨i, hassign, hi⟩ := assign_eq_of_mem (ht.slotted p hkeyed hfield)
    dsimp only
    rw [hassign]
    obtain ⟨s, hs, htag⟩ := Option.map_eq_some_iff.1 (getElem?_tags ▸ hi)
    obtain ⟨hkind, hvalue⟩ := Prod.mk.inj htag
    have hflag : s.isKey = true :=
      (ht.flag s (List.mem_of_getElem? hs) hkind).2 (hvalue ▸ hkeyed)
    have hslots : (t.slots.modify i fun s => { s with isKey := s.isKey || true }) = t.slots := by
      apply List.ext_getElem?
      intro j
      rw [List.getElem?_modify]
      by_cases hij : i = j
      . subst hij
        rw [hs]
        simp [← hflag]
      . simp [hij]
    dsimp only
    rw [hslots]

theorem slots_serve_of_field? {r : Request} (h : r.field?.isSome) :
    (t.serve r).slots = t.slots := by
  obtain ⟨field, hfield⟩ := Option.isSome_iff_exists.1 h
  cases r with
  | string value isKey =>
    have hvalue : Engine.stringField? value = some field := hfield
    simp [Literals.serve, Literals.string, hvalue]
  | bigint digits => cases hfield
  | shape props =>
    have hprops : Engine.shapeField? props = some field := hfield
    rw [Literals.serve, shape_eq, hprops]
    split
    . rfl
    . rfl
    . next h => cases h

theorem mem_of_mem_answers {requests : List Request} {p : Request × String}
    (h : p ∈ t.answers requests) : p.1 ∈ requests := by
  induction requests generalizing t with
  | nil => cases h
  | cons r rest ih =>
    rcases List.mem_cons.1 h with rfl | h
    . exact List.mem_cons_self
    . exact List.mem_cons_of_mem _ (ih h)

theorem Kept.initializer_string (ht : Kept keyed lists t) {i : Nat} {v : String}
    (hi : t.tags[i]? = some (.string, v)) :
    ∃ flag : Nat, (flag = 1 ↔ v ∈ keyed) ∧ flag ≤ 1 ∧
      .expr (.set (.var (slotName .string i)) (.callEnv Engine.newString
        [.lit (C.charsText v).1, .nat (C.charsText v).2, .nat flag])) ∈ t.initializers := by
  obtain ⟨s, hs, htag⟩ := Option.map_eq_some_iff.1 (getElem?_tags ▸ hi)
  obtain ⟨hkind, hvalue⟩ := Prod.mk.inj htag
  have hmem := List.mem_of_getElem? hs
  have hflag := ht.flag s hmem hkind
  refine ⟨if s.isKey then 1 else 0, ?_, ?_, ?_⟩
  . rw [← hvalue, ← hflag]
    simp
  . split <;> omega
  . apply List.mem_of_getElem? (i := i)
    rw [getElem?_initializers, hs, Option.map_some, ht.cname_eq hmem, hkind]
    simp [initial, hkind, hvalue]

theorem Kept.keys_listed (ht : Kept keyed lists t) {names : List String}
    (hnames : ∀ p ∈ names, ∃ ps ∈ lists, p ∈ ps) : t.keys names = t := by
  unfold Literals.keys
  induction names with
  | nil => rfl
  | cons name rest ih =>
    obtain ⟨ps, hps, hname⟩ := hnames name List.mem_cons_self
    rw [List.foldl_cons, ht.string_listed hps hname]
    exact ih fun p hp => hnames p (List.mem_cons_of_mem _ hp)

theorem initial_eq_newShape {s : Slot} {args : List C.Expr}
    (h : t.initial s = .callEnv Engine.newShape args) :
    s.kind = .shape ∧ args = .nat (s.props.getD []).length ::
      (s.props.getD []).map fun p => .lit (t.string p true).1 := by
  unfold initial at h
  split at h
  . exact absurd (C.Expr.call.inj h).1 (by decide)
  . exact absurd (C.Expr.call.inj h).1 (by decide)
  . next hkind => exact ⟨hkind, (List.cons.inj (C.Expr.call.inj h).2).2.symm⟩

theorem Kept.initializer_shape (ht : Kept keyed lists t) {before after : List C.Stmt}
    {name : String} {count : C.Expr} {args : List C.Expr}
    (h : t.initializers =
      before ++ .expr (.set (.var name) (.callEnv Engine.newShape (count :: args))) :: after) :
    ∀ arg ∈ args, ∃ text, arg = .lit text ∧
      ((∃ p, Engine.stringField? p = some text) ∨ text ∈ before.filterMap assigned?) := by
  have hstmt : t.initializers[before.length]? =
      some (.expr (.set (.var name) (.callEnv Engine.newShape (count :: args)))) := by
    simp [h]
  rw [getElem?_initializers] at hstmt
  obtain ⟨s, hs, hinit⟩ := Option.map_eq_some_iff.1 hstmt
  obtain ⟨hkind, hargs⟩ := initial_eq_newShape (C.Expr.assign.inj (C.Stmt.expr.inj hinit)).2.2
  obtain ⟨ps, hps⟩ := Option.isSome_iff_exists.1 ((ht.props s (List.mem_of_getElem? hs)).2 hkind)
  obtain ⟨hlist, hready⟩ := ht.ready _ s ps hs hps
  intro arg harg
  rw [(List.cons.inj hargs).2, hps, Option.getD_some] at harg
  obtain ⟨p, hp, rfl⟩ := List.mem_map.1 harg
  refine ⟨_, rfl, ?_⟩
  have hname := (ht.string p true).2
  rw [ht.string_listed hlist hp] at hname
  rcases hname with hfield | ⟨hfield, i, hi, hname⟩
  . exact .inl ⟨p, hfield⟩
  . -- The slot of the string is the one that stands before the shape.
    right
    obtain ⟨j, hj, htag⟩ := hready p hp hfield
    have hij : i = j := by
      obtain ⟨hlt, hi⟩ := List.getElem?_eq_some_iff.1 hi
      obtain ⟨hlt', hj⟩ := List.getElem?_eq_some_iff.1 htag
      exact (List.Nodup.getElem_inj_iff ht.nodup).1 (hi.trans hj.symm)
    obtain ⟨u, hu, hutag⟩ := Option.map_eq_some_iff.1 (getElem?_tags ▸ htag)
    have hfilled : before[j]? =
        some (.expr (.set (.var (slotName .string j)) (t.initial u))) := by
      rw [← List.getElem?_append_left hj, ← h, getElem?_initializers, hu, Option.map_some,
        ht.cname_eq (List.mem_of_getElem? hu), (Prod.mk.inj hutag).1]
    rw [hname, hij]
    exact List.mem_filterMap.2 ⟨_, List.mem_of_getElem? hfilled, rfl⟩

end Names

def mixedRequests : List Request :=
  [.string "a" false, .shape ["x", "length"], .bigint "1", .string "a" true,
    .shape ["value", "done"], .shape ["x", "length"]]

end Literals
end ScriptC
