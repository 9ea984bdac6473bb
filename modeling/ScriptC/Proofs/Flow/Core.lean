import ScriptC.Lower.Exit
import ScriptC.Proofs.Lower.Names

/-!
C statements without the comments and the idle lines of text in them.
-/

namespace ScriptC.C.Stmt

mutual

def core : Stmt → Stmt
  | .block decls body => .block decls (coreList body)
  | .loop decls body => .loop decls (coreList body)
  | .branch test a b => .branch test a.core b.core
  | st => st

def coreList : List Stmt → List Stmt
  | [] => []
  | .comment _ :: rest => coreList rest
  | .raw text :: rest => if C.isIdle text then coreList rest else .raw text :: coreList rest
  | st :: rest => st.core :: coreList rest

end

@[simp]
theorem coreList_nil : coreList [] = [] := by rw [coreList]

theorem coreList_cons (st : Stmt) (rest : List Stmt) :
    coreList (st :: rest) = coreList [st] ++ coreList rest := by
  cases st with
  | raw text => by_cases h : C.isIdle text <;> simp [coreList, h]
  | _ => simp [coreList]

@[simp]
theorem coreList_append (list rest : List Stmt) :
    coreList (list ++ rest) = coreList list ++ coreList rest := by
  induction list with
  | nil => simp
  | cons st list ih => rw [List.cons_append, coreList_cons, ih, coreList_cons st list,
      List.append_assoc]

theorem coreList_raws {texts : List String} (h : ∀ text ∈ texts, C.isIdle text = true) :
    coreList (texts.map Stmt.raw) = [] := by
  induction texts with
  | nil => simp
  | cons text texts ih =>
    rw [List.forall_mem_cons] at h
    rw [List.map_cons, coreList, if_pos h.1, ih h.2]

end ScriptC.C.Stmt
