import ScriptC.Proofs.Lower.Writes

/-!
The identifiers in the texts of variables. Temporaries and the cache of a function are reserved:
other texts hold no such words, so a setting can say which temporaries and cache slots code may use.
-/

namespace ScriptC

namespace C

def Unreserved (l : List Char) : Prop := ∀ word ∈ words l, isReserved word = false

variable {l l' : List Char} {c : Char}

theorem unreserved_append_cons (l l' : List Char) (hc : isNameChar c = false) :
    Unreserved (l ++ c :: l') ↔ Unreserved l ∧ Unreserved l' := by
  unfold Unreserved
  rw [words_append_cons l l' hc, List.forall_mem_append]

theorem unreserved_of_isFixedList (h : isFixedList l = true) : Unreserved l := by
  intro word hword
  have hlocal := List.all_eq_true.1 h word hword
  simp only [isLocal, Bool.not_eq_true', Bool.or_eq_false_iff] at hlocal
  simp only [isReserved, hlocal.1.1.1.1, hlocal.2, Bool.or_self]

theorem words_pointer (text : String) : words ("&" ++ text).toList = [] :: words text.toList := by
  rw [String.toList_append]
  exact words_append_cons (c := '&') [] text.toList (by decide)

theorem unreserved_cons (hc : isNameChar c = false) : Unreserved (c :: l) ↔ Unreserved l :=
  (unreserved_append_cons [] l hc).trans (and_iff_right (by unfold Unreserved; decide))

theorem unreserved_pointee (text : String) :
    Unreserved ("(*" ++ text ++ ")").toList ↔ Unreserved text.toList := by
  have htext : ("(*" ++ text ++ ")").toList = ['('] ++ '*' :: (text.toList ++ ')' :: []) := by simp
  rw [htext, unreserved_append_cons _ _ (by decide), unreserved_append_cons _ _ (by decide)]
  simp +decide [Unreserved]

theorem unreserved_closure (i : Nat) : Unreserved s!"closures[{i}]".toList := by
  have htext : s!"closures[{i}]".toList = "closures".toList ++ '[' ::
    (i.repr.toList ++ ']' :: []) := by
    simp [ToString.toString]
  rw [htext, unreserved_append_cons _ _ (by decide), unreserved_append_cons _ _ (by decide)]
  refine ⟨?_, unreserved_of_isFixedList (isFixedList_digits i), ?_⟩ <;> unfold Unreserved <;> decide

theorem unreserved_isName {last : Nat} {name : String} (h : CNames.IsName last name) :
    Unreserved name.toList := by
  intro word hword
  rw [words_of_all h.isNameChar, List.mem_singleton] at hword
  rw [hword, h.not_isReserved]

def Uses (caches : Nat → Prop) (text : String) : Prop :=
  ∀ k : Nat, ["shape_cache".toList, k.repr.toList] <:+: words text.toList → caches k

variable {caches : Nat → Prop} {text : String}

theorem uses_of_not_mem (h : "shape_cache".toList ∉ words text.toList) : Uses caches text :=
  fun _ hk => absurd (hk.subset List.mem_cons_self) h

theorem uses_of_unreserved (h : Unreserved text.toList) : Uses caches text := by
  refine uses_of_not_mem fun hmem => ?_
  have hreserved := h _ hmem
  simp [isReserved] at hreserved

theorem uses_of_isIdle (h : isIdle text = true) : Uses caches text := by
  simp only [isIdle, Bool.or_eq_true, beq_iff_eq] at h
  obtain (h | rfl) | rfl := h
  . unfold isMention at h
    split at h
    . next rest hrest =>
      simp only [Bool.and_eq_true, beq_iff_eq, Bool.not_eq_true'] at h
      obtain ⟨name, rfl⟩ := List.getLast?_eq_some_iff.1 h.1.1
      simp only [List.dropLast_concat] at h
      refine uses_of_unreserved ?_
      rw [hrest]
      change Unreserved (['('] ++ "void".toList ++ ')' :: (name ++ ';' :: []))
      rw [unreserved_append_cons _ _ (by decide), unreserved_append_cons _ _ (by decide)]
      have hname : Unreserved name := by
        intro word hword
        rw [words_of_all h.1.2, List.mem_singleton] at hword
        rw [hword]
        exact h.2
      exact ⟨by unfold Unreserved; decide, hname, by unfold Unreserved; decide⟩
    . cases h
  . exact uses_of_not_mem (by decide)
  . exact uses_of_not_mem (by decide)

theorem uses_temporary {stem : String} (hstem : stem ∈ stems) (id : Nat) :
    Uses caches (temporaryName stem id) ∧ Uses caches ("&" ++ temporaryName stem id) ∧
      Uses caches (temporaryName stem id ++ "[2]") := by
  have hwords := words_of_all (isNameChar_temporaryName hstem id)
  have hne : "shape_cache".toList ≠ (temporaryName stem id).toList := by
    intro heq
    have htemporary := isTemporary_temporaryName hstem id
    rw [← heq] at htemporary
    exact absurd htemporary (by decide)
  refine ⟨uses_of_not_mem ?_, uses_of_not_mem ?_, uses_of_not_mem ?_⟩
  . rwa [hwords, List.mem_singleton]
  . rw [words_pointer, hwords]
    simpa using hne
  . have htext : (temporaryName stem id ++ "[2]").toList =
        (temporaryName stem id).toList ++ '[' :: ['2', ']'] := by simp
    rw [htext, words_append_cons _ _ (by decide), hwords]
    simpa +decide using hne

theorem uses_slot {k : Nat} (hk : caches k) : Uses caches (Lower.slotText k ++ ".shape_id") ∧
    Uses caches (Lower.slotText k ++ ".index") ∧ Uses caches ("&" ++ Lower.slotText k) := by
  have hdigits := words_of_all (isNameChar_digits k)
  have hne : "shape_cache".toList ≠ k.repr.toList := by
    intro heq
    have hfixed := isFixedList_digits k
    rw [← heq] at hfixed
    exact absurd hfixed (by decide)
  have hinj : ∀ j : Nat, j.repr.toList = k.repr.toList → caches j := by
    intro j hj
    rw [Nat.toList_repr, Nat.toList_repr, toDigits_inj] at hj
    exact hj ▸ hk
  have htext : ∀ l, (Lower.slotText k).toList ++ l =
      "shape_cache".toList ++ '[' :: (k.repr.toList ++ ']' :: l) := by
    simp [Lower.slotText, ToString.toString]
  have hwords : ∀ l, words ((Lower.slotText k).toList ++ l) =
      "shape_cache".toList :: k.repr.toList :: words l := by
    intro l
    rw [htext, words_append_cons _ _ (by decide), words_append_cons _ _ (by decide), hdigits]
    rfl
  have huses : ∀ l, "shape_cache".toList ∉ words l → ∀ j : Nat,
      ["shape_cache".toList, j.repr.toList] <:+: words ((Lower.slotText k).toList ++ l) →
      caches j := by
    intro l hl j hj
    rw [hwords, List.infix_cons_iff, List.infix_cons_iff] at hj
    rcases hj with hj | hj | hj
    . exact hinj j (List.cons_prefix_cons.1 (List.cons_prefix_cons.1 hj).2).1
    . exact absurd (List.cons_prefix_cons.1 hj).1 hne
    . exact absurd (hj.subset List.mem_cons_self) hl
  refine ⟨fun j hj => ?_, fun j hj => ?_, fun j hj => ?_⟩
  . rw [String.toList_append] at hj
    exact huses _ (by decide) j hj
  . rw [String.toList_append] at hj
    exact huses _ (by decide) j hj
  . rw [words_pointer, List.infix_cons_iff] at hj
    rcases hj with hj | hj
    . exact absurd (List.cons_prefix_cons.1 hj).1 (by decide)
    . exact huses [] (by decide) j (by rwa [List.append_nil])

end C

namespace Lower

variable {b : Bindings} {fn d : Nat} {named : Nat → String → Prop} {text : String}

open C

theorem unreserved_of_isCell (hnamed : ∀ name, named d name → ∃ last, CNames.IsName last name)
    (h : IsCell b fn named d (.var text)) : Unreserved text.toList := by
  unfold IsCell at h
  split at h
  . obtain ⟨name, hname, heq⟩ := h
    obtain ⟨last, hname⟩ := hnamed name hname
    injection heq with heq
    rw [heq]
    split
    . exact unreserved_isName hname
    . rw [String.toList_append]
      exact (unreserved_cons (c := '&') (by decide)).2 (unreserved_isName hname)
  . obtain ⟨i, -, heq⟩ := h
    injection heq with heq
    exact heq ▸ unreserved_closure i

theorem unreserved_of_isStorage (hnamed : ∀ name, named d name → ∃ last, CNames.IsName last name)
    (h : IsStorage b fn named d text) : Unreserved text.toList := by
  unfold IsStorage at h
  split at h
  . obtain ⟨name, hname, rfl⟩ := h
    obtain ⟨last, hname⟩ := hnamed name hname
    split
    . exact (unreserved_pointee name).2 (unreserved_isName hname)
    . exact unreserved_isName hname
  . obtain ⟨i, -, rfl⟩ := h
    have htext : s!"(*closures[{i}])" = "(*" ++ s!"closures[{i}]" ++ ")" := by
      rw [← String.toList_inj]
      simp [ToString.toString]
    rw [htext, unreserved_pointee]
    exact unreserved_closure i

structure Texts where
  admits : String → Prop
  caches : Nat → Prop
  shows : Frames → Prop
  shows_of_subset : ∀ {f f' : Frames}, f.names ⊆ f'.names → shows f' → shows f
  unreserved : ∀ text, Unreserved text.toList → admits text
  slot : ∀ k, caches k → admits (slotText k ++ ".shape_id") ∧ admits (slotText k ++ ".index") ∧
    admits ("&" ++ slotText k)
  temporary : ∀ f stem (id : Nat), shows f → stem ∈ stems → temporaryName stem id ∈ f.names →
    admits (temporaryName stem id) ∧ admits ("&" ++ temporaryName stem id)

def Texts.using (caches : Nat → Prop) : Texts where
  admits := Uses caches
  caches := caches
  shows _ := True
  shows_of_subset _ _ := trivial
  unreserved _ := uses_of_unreserved
  slot _ := uses_slot
  temporary _ _ id _ hstem _ := ⟨(uses_temporary hstem id).1, (uses_temporary hstem id).2.1⟩

theorem isName_of_final {final : CNames → Prop} (hfinal : ∀ t, final t → ∃ last, t.Proper b last)
    (name : String) (h : ∃ t, final t ∧ t.name? d = some name) : ∃ last,
      CNames.IsName last name := by
  obtain ⟨t, ht, hname⟩ := h
  obtain ⟨last, hproper⟩ := hfinal t ht
  exact ⟨last, hproper.isName d name hname⟩

def Calls.reading (K : Calls) (T : Texts) 
    (hfinal : ∀ t, K.final t → ∃ last, t.Proper K.plan.analysis.bindings last)
    (hcname : ∀ child, K.makes child →
      Unreserved (K.plan.analysis.bindings.function child).cname.toList)
    (hzero : ∀ slot, K.plan.analysis.slots.get? 0 = some slot → T.caches slot) : Setting where
  __ := K
  reads := T.admits
  isFull := False
  reserved := none
  stack := 0
  shows := T.shows
  caches := T.caches
  shows_of_subset := T.shows_of_subset
  reads_fixed text h := T.unreserved text (unreserved_of_isFixedList h)
  caches_zero := hzero
  reads_slot := T.slot
  reads_function child h := T.unreserved _ (hcname child h)
  reads_cell _ _ _ h := T.unreserved _ (unreserved_of_isCell (isName_of_final hfinal) h)
  reads_storage _ _ _ h := T.unreserved _ (unreserved_of_isStorage (isName_of_final hfinal) h)
  reads_temporary := T.temporary

end Lower
end ScriptC
