import ScriptC.C.Ident
import ScriptC.CNames
import ScriptC.Engine.Entry
import ScriptC.Frames

/-!
The identifiers in C texts. Names that are made for a function belong to families that are told
apart by how they begin, and inside a family by their numbers.
-/

namespace ScriptC

namespace C

def isNameChar (c : Char) : Bool := c == '_' || c.isAlphanum

def words (l : List Char) : List (List Char) := l.splitOnP fun c => !isNameChar c

def stems : List String := ["tmp", "opt", "try", "it", "pend", "pendv"]

def isTemporary (word : List Char) : Bool :=
  stems.any fun stem => (stem.toList ++ ['_']).isPrefixOf word

def isLocal (word : List Char) : Bool :=
  isTemporary word || ['j', '_'].isPrefixOf word || ['c', '_'].isPrefixOf word ||
    word == "closures".toList || word == "shape_cache".toList

def isReserved (word : List Char) : Bool := isTemporary word || word == "shape_cache".toList

def isMention (text : String) : Bool :=
  match text.toList with
  | '(' :: 'v' :: 'o' :: 'i' :: 'd' :: ')' :: rest =>
    rest.getLast? == some ';' && rest.dropLast.all isNameChar && !isReserved rest.dropLast
  | _ => false

/-- The lines of text in the code of functions: a variable is mentioned, or a stack is set up. -/
def isIdle (text : String) : Bool :=
  isMention text || text == "stk_args[0] = func_val;" ||
    text == "stk_ptr = " ++ Engine.stackBase ++ "(env);"

/-- The names of pointers to cells. -/
def isCellName (word : List Char) : Bool := ['c', '_'].isPrefixOf word

def isFixedList (l : List Char) : Bool := (words l).all fun word => !isLocal word

def isFixed (text : String) : Bool := isFixedList text.toList

variable {l l' : List Char} {c : Char} {n : Nat} {text : String}

theorem words_append_cons (l l' : List Char) (hc : isNameChar c = false) :
    words (l ++ c :: l') = words l ++ words l' :=
  List.splitOnP_append_cons l l' (by simp [hc])

theorem words_of_all (h : l.all isNameChar = true) : words l = [l] :=
  List.splitOnP_eq_singleton fun c hc => by simpa using List.all_eq_true.1 h c hc

theorem isFixedList_append_cons (l l' : List Char) (hc : isNameChar c = false) :
    isFixedList (l ++ c :: l') = (isFixedList l && isFixedList l') := by
  simp [isFixedList, words_append_cons l l' hc]

theorem isFixedList_of_all (h : l.all isNameChar = true) : isFixedList l = !isLocal l := by
  simp [isFixedList, words_of_all h]

theorem isNameChar_of_isDigit (h : c.isDigit = true) : isNameChar c = true := by
  simp [isNameChar, Char.isAlphanum, h]

theorem isNameChar_digits (n : Nat) : n.repr.toList.all isNameChar = true := by
  rw [List.all_eq_true]
  intro c hc
  rw [Nat.toList_repr] at hc
  exact isNameChar_of_isDigit (Nat.isDigit_of_mem_toDigits (by decide) (by decide) hc)

-- A name begins with a letter, so digits are none.
theorem isLocal_of_isDigit (h : c.isDigit = true) : isLocal (c :: l) = false := by
  have hne : ∀ d : Char, d.isDigit = false → (d == c) = false := by
    rintro d hd
    rw [beq_eq_false_iff_ne]
    rintro rfl
    rw [h] at hd
    cases hd
  simp +decide [isLocal, isTemporary, stems, List.isPrefixOf_cons_cons, hne]
  constructor
  . rintro rfl
    cases h
  . rintro rfl
    cases h

theorem isFixedList_digits (n : Nat) : isFixedList n.repr.toList = true := by
  rw [isFixedList_of_all (isNameChar_digits n)]
  cases h : n.repr.toList with
  | nil =>
    rw [Nat.toList_repr] at h
    exact absurd h (Nat.toDigits_ne_nil)
  | cons c l =>
    have hc : c ∈ Nat.toDigits 10 n := by
      rw [← Nat.toList_repr, h]
      exact List.mem_cons_self
    rw [isLocal_of_isDigit (Nat.isDigit_of_mem_toDigits (by decide) (by decide) hc)]
    rfl

theorem isFixed_pointer : isFixed ("&" ++ text) = isFixed text := by
  rw [isFixed, String.toList_append]
  exact isFixedList_append_cons (c := '&') [] text.toList (by decide)

/-! Numbers -/

theorem toDigits_inj {m n : Nat} : Nat.toDigits 10 m = Nat.toDigits 10 n ↔ m = n := by
  refine ⟨fun h => ?_, fun h => h ▸ rfl⟩
  have h := congrArg (Nat.ofDigitChars 10 · 0) h
  simpa using h

theorem notMem_toDigits (n : Nat) : '_' ∉ Nat.toDigits 10 n := fun h =>
  absurd (Nat.isDigit_of_mem_toDigits (by decide) (by decide) h) (by decide)

theorem append_number_inj {m n : Nat} :
    l ++ '_' :: m.repr.toList = l' ++ '_' :: n.repr.toList ↔ l = l' ∧ m = n := by
  have hdigits : ∀ (n : Nat) (l : List Char),
      ((l ++ '_' :: n.repr.toList).reverse.takeWhile (· != '_')).reverse = n.repr.toList := by
    intro n l
    rw [List.reverse_append, List.reverse_cons, List.append_assoc,
      List.takeWhile_append_of_pos fun c hc => ?_]
    . simp
    . rw [List.mem_reverse, Nat.toList_repr] at hc
      rw [bne_iff_ne]
      rintro rfl
      exact notMem_toDigits n hc
  refine ⟨fun h => ?_, fun h => by rw [h.1, h.2]⟩
  have hnumber : m.repr.toList = n.repr.toList := by rw [← hdigits m l, h, hdigits]
  rw [hnumber, List.append_cancel_right_eq] at h
  rw [Nat.toList_repr, Nat.toList_repr] at hnumber
  exact ⟨h, toDigits_inj.1 hnumber⟩

/-! Names of the script -/

theorem isNameChar_hexDigit {upper : Bool} (h : n < 16) :
    isNameChar (Text.hexDigit upper n) = true := by
  have hall : ∀ upper, ∀ n < 16, isNameChar (Text.hexDigit upper n) = true := by decide
  exact hall upper n h

theorem isNameChar_hexDigits {upper : Bool} {width : Nat} :
    (Text.hexDigits upper width n).all isNameChar = true := by
  have hgo : ∀ fuel width n, (Text.hexDigits.go upper fuel width n).all isNameChar = true := by
    intro fuel
    induction fuel with
    | zero => exact fun _ _ => rfl
    | succ fuel ih =>
      intro width n
      rw [Text.hexDigits.go]
      split
      . rfl
      . simp only [List.all_cons, ih, isNameChar_hexDigit (Nat.mod_lt n (by decide : 16 > 0)),
          Bool.and_true]
  simpa [Text.hexDigits] using hgo _ _ _

theorem isNameChar_identChars (c : Char) : (identChars c).all isNameChar = true := by
  unfold identChars
  split
  . next h => simpa [isNameChar] using h
  . split
    . decide
    . simp only [List.cons_append, List.all_cons, List.all_append, isNameChar_hexDigits]
      decide

theorem isNameChar_identText (name : String) : (identText name).toList.all isNameChar = true := by
  unfold identText
  split
  . decide
  . simp [isNameChar_identChars]

end C

/-! Names of temporaries -/

theorem toList_temporaryName (stem : String) (id : Nat) :
    (temporaryName stem id).toList = stem.toList ++ '_' :: id.repr.toList := by
  simp [temporaryName, ToString.toString, Int.repr]

theorem temporaryName_inj {stem stem' : String} {a b : Nat} :
    temporaryName stem a = temporaryName stem' b ↔ stem = stem' ∧ a = b := by
  rw [← String.toList_inj, toList_temporaryName, toList_temporaryName, C.append_number_inj,
    String.toList_inj]

theorem isNameChar_temporaryName {stem : String} (hstem : stem ∈ C.stems) (id : Nat) :
    (temporaryName stem id).toList.all C.isNameChar = true := by
  have hall : ∀ stem ∈ C.stems, stem.toList.all C.isNameChar = true := by decide
  rw [toList_temporaryName, List.all_append, hall stem hstem, List.all_cons,
    C.isNameChar_digits]
  decide

theorem isTemporary_temporaryName {stem : String} (hstem : stem ∈ C.stems) (id : Nat) :
    C.isTemporary (temporaryName stem id).toList = true := by
  refine List.any_eq_true.2 ⟨stem, hstem, ?_⟩
  rw [toList_temporaryName, List.isPrefixOf_iff_prefix]
  exact ⟨id.repr.toList, by simp⟩

end ScriptC
