import Mathlib.Data.List.Chain
import ScriptC.C.Chars
import ScriptC.Proofs.Text

/-!
Reading C string literals. A compiler replaces trigraphs first and then reads the literals that
stand side by side character by character. Main result: it reads the units of the string that was
written.
-/

namespace ScriptC.C

def trigraph? : Char → Option Char
  | '=' => some '#'
  | '(' => some '['
  | '/' => some '\\'
  | ')' => some ']'
  | '\x27' => some '^'
  | '<' => some '\x7b'
  | '!' => some '|'
  | '>' => some '\x7d'
  | '-' => some '~'
  | _ => none

def replaceTrigraphs : List Char → List Char
  | '?' :: '?' :: c :: rest =>
    match trigraph? c with
    | some d => d :: replaceTrigraphs rest
    | none => '?' :: replaceTrigraphs ('?' :: c :: rest)
  | c :: rest => c :: replaceTrigraphs rest
  | [] => []

def simpleEscape? : Char → Option UInt16
  | '\x27' => some 0x27
  | '"' => some 0x22
  | '?' => some 0x3F
  | '\\' => some 0x5C
  | 'a' => some 7
  | 'b' => some 8
  | 'f' => some 12
  | 'n' => some 10
  | 'r' => some 13
  | 't' => some 9
  | 'v' => some 11
  | _ => none

inductive Reading where
  | between (any : Bool)
  | opening
  | inside
  | escape
  | hex (n : Option Nat)
  deriving DecidableEq

namespace Reading

def stepInside (c : Char) : Option (Reading × List UInt16) :=
  if c = '"' then some (between true, [])
  else if c = '\\' then some (escape, [])
  else if c = '\n' then none
  else some (inside, Text.unitsOf c)

def step : Reading → Char → Option (Reading × List UInt16)
  | between any, c =>
    if c = ' ' then some (between any, []) else if c = 'u' then some (opening, []) else none
  | opening, c => if c = '"' then some (inside, []) else none
  | inside, c => stepInside c
  | escape, c => if c = 'x' then some (hex none, []) else (simpleEscape? c).map (inside, [·])
  | hex n, c =>
    match Text.hexValue? c, n with
    | some d, n => some (hex (some (n.getD 0 * 16 + d)), [])
    | none, none => none
    | none, some n =>
      if n < 0x10000 then (stepInside c).map fun r => (r.1, n.toUInt16 :: r.2) else none

def read : Reading → List Char → Option (List UInt16)
  | r, [] => if r = between true then some [] else none
  | r, c :: rest => (step r c).bind fun next => (read next.1 rest).map (next.2 ++ ·)

end Reading

def readLiterals (text : String) : Option (List UInt16) :=
  Reading.read (.between false) (replaceTrigraphs text.toList)

variable {u : UInt16} {c : Char} {l : List Char} {n : Nat}

/-! Trigraphs -/

-- Every question mark has a backslash before it, so no two of them meet.
theorem replaceTrigraphs_of_isChain (h : l.IsChain fun a b => b = '?' → a = '\\') :
    replaceTrigraphs l = l := by
  induction l using replaceTrigraphs.induct with
  | case1 c rest d _ _ => simp at h
  | case2 c rest _ _ => simp at h
  | case3 c rest hne ih => rw [replaceTrigraphs.eq_2 _ _ hne, ih h.tail]
  | case4 => rfl

/-! Reading -/

namespace Reading

theorem read_cons {r next : Reading} {us : List UInt16} (h : step r c = some (next, us)) :
    read r (c :: l) = (read next l).map (us ++ ·) := by
  rw [read, h]
  rfl

theorem read_skip {r next : Reading} (h : step r c = some (next, [])) :
    read r (c :: l) = read next l := by
  rw [read_cons h]
  exact congrFun Option.map_id _

theorem step_hex_digit {o : Option Nat} {d : Nat} (hd : Text.hexValue? c = some d) :
    step (hex o) c = some (hex (some (o.getD 0 * 16 + d)), []) := by
  simp [step, hd]

theorem read_hex (hc : Text.hexValue? c = none) :
    read (hex (some u.toNat)) (c :: l) = (read inside (c :: l)).map (u :: ·) := by
  have hstep : step (hex (some u.toNat)) c = (step inside c).map fun r => (r.1, u :: r.2) := by
    simp [step, hc, show u.toNat < 0x10000 from u.toNat_lt]
  rw [read, read, hstep]
  cases step inside c with
  | none => rfl
  | some next => simp [Function.comp_def]

theorem read_digits {digits : List Char} (h : ∀ c ∈ digits, (Text.hexValue? c).isSome = true) :
    read (hex (some n)) (digits ++ l) = read (hex (some (Text.hexNumber n digits))) l := by
  induction digits generalizing n with
  | nil => rfl
  | cons c rest ih =>
    rw [List.forall_mem_cons] at h
    obtain ⟨d, hd⟩ := Option.isSome_iff_exists.1 h.1
    rw [List.cons_append, read_skip (step_hex_digit hd), Option.getD_some, ih h.2]
    simp [Text.hexNumber, hd]

theorem read_hexDigits {upper : Bool} {width : Nat} :
    read (hex none) (Text.hexDigits upper width n ++ l) = read (hex (some n)) l := by
  have hall : ∀ c ∈ Text.hexDigits upper width n, (Text.hexValue? c).isSome = true :=
    fun _ => Text.isSome_hexValue?_of_mem
  have hnumber := Text.hexNumber_hexDigits upper width n
  cases hdigits : Text.hexDigits upper width n with
  | nil => exact absurd hdigits (Text.hexDigits_ne_nil upper width n)
  | cons c rest =>
    rw [hdigits] at hall hnumber
    obtain ⟨d, hd⟩ := Option.isSome_iff_exists.1 (hall c List.mem_cons_self)
    rw [List.cons_append, read_skip (step_hex_digit hd), Option.getD_none,
      read_digits fun c hc => hall c (List.mem_cons_of_mem _ hc)]
    have htail : Text.hexNumber (0 * 16 + d) rest = n := by
      rw [← hnumber]
      simp [Text.hexNumber, hd]
    rw [htail]

end Reading

/-! Units -/

open Reading

theorem unitText_cases (u : UInt16) :
    unitText u = ('\\' :: 'x' :: Text.hexDigits true 4 u.toNat, true) ∨
    (∃ c, unitText u = (['\\', c], false) ∧ step escape c = some (inside, [u])) ∨
    ∃ c, unitText u = ([c], false) ∧ c ≠ '?' ∧ step inside c = some (inside, [u]) ∧
      (isHexUnit u = false → Text.hexValue? c = none) := by
  have hplain : ∀ n < 0x7F, 0x20 ≤ n ∧ n ≠ 0x22 ∧ n ≠ 0x5C ∧ n ≠ 0x3F →
      Char.ofNat n ≠ '?' ∧ step inside (Char.ofNat n) = some
        (inside, [n.toUInt16]) := by decide +kernel
  have hdigit : ∀ n < 0x7F, isHexUnit n.toUInt16 = false →
    Text.hexValue? (Char.ofNat n) = none := by
    decide +kernel
  by_cases hescape : u = 0x22 ∨ u = 0x5C ∨ u = 0x0A ∨ u = 0x09 ∨ u = 0x3F
  . rcases hescape with rfl | rfl | rfl | rfl | rfl
    all_goals exact .inr (.inl ⟨_, rfl, rfl⟩)
  . simp only [not_or] at hescape
    obtain ⟨hquote, hback, hline, htab, hmark⟩ := hescape
    by_cases hu : 0x20 ≤ u ∧ u < 0x7F
    . have hge : 0x20 ≤ u.toNat := UInt16.le_iff_toNat_le.1 hu.1
      have hlt : u.toNat < 0x7F := UInt16.lt_iff_toNat_lt.1 hu.2
      have hne : ∀ v : UInt16, u ≠ v → u.toNat ≠ v.toNat := fun v h h' => h (UInt16.toNat_inj.1 h')
      have hstep := hplain u.toNat hlt ⟨hge, hne _ hquote, hne _ hback, hne _ hmark⟩
      have hhex := hdigit u.toNat hlt
      rw [show u.toNat.toUInt16 = u from UInt16.ofNat_toNat] at hstep hhex
      exact .inr (.inr ⟨Char.ofNat u.toNat, by simp [unitText, hquote, hback, hline,
        htab, hmark, hu],
        hstep.1, hstep.2, hhex⟩)
    . have hu : (decide (0x20 ≤ u) && decide (u < 0x7F)) = false := by simpa using hu
      refine .inl ?_
      simp only [unitText, beq_iff_eq, hquote, hback, hline, htab, hmark, hu, if_false]
      rfl

theorem isChain_unitText (u : UInt16) :
    (unitText u).1.IsChain (fun a b => b = '?' → a = '\\') ∧ '?' ∉ (unitText u).1.head? := by
  rcases unitText_cases u with h | ⟨c, h, -⟩ | ⟨c, h, hc, -⟩
  . have hmark : ∀ c ∈ '\\' :: 'x' :: Text.hexDigits true 4 u.toNat, c ≠ '?' := by
      simp only [List.forall_mem_cons]
      refine ⟨by decide, by decide, ?_⟩
      rintro _ hc rfl
      exact absurd (Text.isSome_hexValue?_of_mem hc) (by decide)
    rw [h]
    refine ⟨List.Pairwise.isChain (List.pairwise_iff_getElem.2 ?_), by simp⟩
    intro i j hi hj _ hc
    exact absurd hc (hmark _ (List.getElem_mem hj))
  . rw [h]
    simp
  . rw [h]
    simpa using hc

theorem read_unit : read inside ((unitText u).1 ++ l) =
    if (unitText u).2 then read (hex (some u.toNat)) l else (read inside l).map (u :: ·) := by
  rcases unitText_cases u with h | ⟨c, h, hc⟩ | ⟨c, h, -, hc, -⟩
  . rw [h]
    exact (read_skip rfl).trans ((read_skip rfl).trans read_hexDigits)
  . rw [h]
    exact (read_skip rfl).trans (read_cons hc)
  . rw [h]
    exact read_cons hc

theorem read_hex_unit {v : UInt16} (hv : isHexUnit v = false) :
    read (hex (some u.toNat)) ((unitText v).1 ++ l) =
      (read inside ((unitText v).1 ++ l)).map (u :: ·) := by
  rcases unitText_cases v with h | ⟨c, h, -⟩ | ⟨c, h, -, -, hc⟩
  . rw [h]
    exact read_hex (by decide)
  . rw [h]
    exact read_hex (by decide)
  . rw [h]
    exact read_hex (hc hv)

theorem isChain_unitsText (escaped : Bool) (us : List UInt16) :
    (unitsText escaped us).IsChain (fun a b => b = '?' → a = '\\') ∧
      '?' ∉ (unitsText escaped us).head? := by
  induction us generalizing escaped with
  | nil => simp [unitsText]
  | cons u us ih =>
    obtain ⟨hunit, hhead⟩ := isChain_unitText u
    have happend : ((unitText u).1 ++ unitsText (unitText u).2 us).IsChain
        (fun a b => b = '?' → a = '\\') ∧
          '?' ∉ ((unitText u).1 ++ unitsText (unitText u).2 us).head? := by
      refine ⟨List.isChain_append.2 ⟨hunit, (ih _).1, ?_⟩, ?_⟩
      . rintro a - b hb rfl
        exact absurd hb (ih _).2
      . rw [List.head?_append]
        cases h : (unitText u).1.head? with
        | none => simpa using (ih _).2
        | some c => simpa [h] using hhead
    unfold unitsText
    dsimp only
    rw [List.append_assoc]
    split
    . refine ⟨List.isChain_append.2 ⟨by simp, happend.1, ?_⟩, by simp⟩
      rintro a - b hb rfl
      exact absurd hb happend.2
    . exact happend

theorem read_unitsText (us : List UInt16) :
    read inside (unitsText false us ++ ['"']) = some us ∧
      ∀ u : UInt16, read (hex (some u.toNat)) (unitsText true us ++ ['"']) = some (u :: us) := by
  induction us with
  | nil =>
    refine ⟨rfl, fun u => ?_⟩
    rw [unitsText, List.nil_append, read_hex (by decide)]
    rfl
  | cons v us ih =>
    have hinside : read inside ((unitText v).1 ++ (unitsText (unitText v).2 us ++ ['"'])) =
        some (v :: us) := by
      rw [read_unit]
      split
      . next hescape => rw [hescape, ih.2]
      . next hescape =>
        rw [Bool.not_eq_true] at hescape
        rw [hescape, ih.1]
        rfl
    unfold unitsText
    dsimp only
    refine ⟨by simpa using hinside, fun u => ?_⟩
    rw [Bool.true_and, List.append_assoc, List.append_assoc]
    split
    . refine (read_hex (by decide)).trans ?_
      have hquote : ∀ l, read inside ('"' :: ' ' :: 'u' :: '"' :: l) = read inside l := fun l =>
        (read_skip rfl).trans ((read_skip rfl).trans ((read_skip rfl).trans (read_skip rfl)))
      exact congrArg (Option.map (u :: ·)) ((hquote _).trans hinside)
    . next hv =>
      rw [Bool.not_eq_true] at hv
      rw [List.nil_append, read_hex_unit hv, hinside]
      rfl

theorem toList_charsText (s : String) : (charsText s).1.toList =
    ['u', '"'] ++ (unitsText false (Text.units s.toList) ++ ['"']) := by
  simp [charsText]

theorem replaceTrigraphs_charsText (s : String) :
    replaceTrigraphs (charsText s).1.toList = (charsText s).1.toList := by
  obtain ⟨hchain, hhead⟩ := isChain_unitsText false (Text.units s.toList)
  rw [toList_charsText]
  apply replaceTrigraphs_of_isChain
  refine List.isChain_append.2 ⟨by simp, List.isChain_append.2 ⟨hchain, by simp, by simp⟩, ?_⟩
  rintro a - b hb rfl
  rw [List.head?_append] at hb
  cases h : (unitsText false (Text.units s.toList)).head? with
  | none => simp [h] at hb
  | some c => exact absurd (by simpa [h] using hb) hhead

theorem readLiterals_charsText (s : String) :
    readLiterals (charsText s).1 = some (Text.units s.toList) := by
  rw [readLiterals, replaceTrigraphs_charsText, toList_charsText]
  exact (read_skip rfl).trans ((read_skip rfl).trans (read_unitsText _).1)

/--
The literal of a string is read as the units of the string, which are as many as its length says. So
different strings have different literals.
-/
theorem charsText_faithful (s : String) :
    replaceTrigraphs (charsText s).1.toList = (charsText s).1.toList ∧
      readLiterals (charsText s).1 = some (Text.units s.toList) ∧
      (charsText s).2 = (Text.units s.toList).length ∧
      ∀ t : String, (charsText t).1 = (charsText s).1 → t = s := by
  refine ⟨replaceTrigraphs_charsText s, readLiterals_charsText s, rfl, fun t ht => ?_⟩
  have h := readLiterals_charsText t
  rw [ht, readLiterals_charsText, Option.some_inj, Text.units_inj, String.toList_inj] at h
  exact h.symm

example : readLiterals "u\"\\x00E9\" u\"a\\\\\"" = some [0xE9, 0x61, 0x5C] := by decide +kernel

end ScriptC.C
