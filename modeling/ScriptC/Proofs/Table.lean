import Std.Data.TreeMap
import Std.Data.TreeMap.Lemmas

/-!
Tables with numbers as keys: what is found after an entry was added or changed.
-/

namespace ScriptC.Table

variable {β : Type} {t : Std.TreeMap Nat β} {k i : Nat} {v : β} {change : β → β}

theorem get?_insert : (t.insert k v).get? i = if k = i then some v else t.get? i := by
  rw [Std.TreeMap.get?_eq_getElem?, Std.TreeMap.getElem?_insert]
  simp only [Std.LawfulEqCmp.compare_eq_iff_eq]
  rfl

theorem get?_insert_self : (t.insert k v).get? k = some v := by
  rw [get?_insert, if_pos rfl]

theorem get?_insert_of_ne (h : k ≠ i) : (t.insert k v).get? i = t.get? i := by
  rw [get?_insert, if_neg h]

theorem get?_modify : (t.modify k change).get? i =
    if k = i then (t.get? i).map change else t.get? i := by
  rw [Std.TreeMap.get?_eq_getElem?, Std.TreeMap.getElem?_modify]
  simp only [Std.LawfulEqCmp.compare_eq_iff_eq]
  split
  . next h =>
    subst h
    rfl
  . rfl

theorem getD_eq_get? {d : β} : t.getD i d = (t.get? i).getD d := by
  rw [Std.TreeMap.get?_eq_getElem?]
  exact Std.TreeMap.getD_eq_getD_getElem?

end ScriptC.Table
