import Mathlib.Data.List.Induction
import Mathlib.Data.Prod.Lex
import ScriptC.Proofs.Text.Utf8
import ScriptC.Source

/-!
The place that an offset stands for: the line is told by the line feeds before it, the column by the
code points after the last of them. Queries find it by halving in a table of the starts of lines,
which the first of them fills.
-/

namespace ScriptC.Source

open Text

variable {n : Nat} {b : UInt8} {start bytes l : List UInt8}

/-! Halving -/

theorem search_eq {test : Nat → Option Bool} {k low high : Nat} (hlow : low ≤ k) (hhigh : k ≤ high)
    (htest : ∀ i, low ≤ i → i < high → test i = some (decide (k ≤ i))) :
    search test low high = some k := by
  fun_induction search test low high with
  | case1 low high hlt ih₁ ih₂ =>
    rw [htest _ (by omega) (by omega), Option.bind_eq_bind, Option.bind_some]
    by_cases hk : k ≤ (low + high) / 2
    . rw [decide_eq_true hk, if_pos rfl]
      exact ih₁ hlow hk fun i hi hi' => htest i hi (by omega)
    . rw [decide_eq_false hk, if_neg Bool.false_ne_true]
      exact ih₂ (by omega) hhigh fun i hi hi' => htest i (by omega) hi'
  | case2 low high hle => rw [show low = k by omega]

/-! The table of the starts of lines -/

theorem lineStartsFrom_append {i : Nat} {starts : Array Nat} (before after : List UInt8) :
    lineStartsFrom i starts (before ++ after) =
      lineStartsFrom (i + before.length) (lineStartsFrom i starts before) after := by
  induction before generalizing i starts with
  | nil => rfl
  | cons b before ih =>
    rw [List.cons_append, lineStartsFrom, lineStartsFrom, ih, List.length_cons, Nat.add_assoc,
      Nat.add_comm 1]

theorem exists_more_starts (i : Nat) (starts : Array Nat) (bytes : List UInt8) :
    ∃ more, (lineStartsFrom i starts bytes).toList = starts.toList ++ more ∧ ∀ x ∈ more, i < x := by
  induction bytes generalizing i starts with
  | nil => exact ⟨[], (List.append_nil _).symm, by simp⟩
  | cons b bytes ih =>
    rw [lineStartsFrom]
    split
    . obtain ⟨more, hmore, hlt⟩ := ih (i + 1) (starts.push (i + 1))
      refine ⟨(i + 1) :: more, by simp [hmore], ?_⟩
      rw [List.forall_mem_cons]
      exact ⟨Nat.lt_succ_self i, fun x hx => Nat.lt_of_succ_lt (hlt x hx)⟩
    . obtain ⟨more, hmore, hlt⟩ := ih (i + 1) starts
      exact ⟨more, hmore, fun x hx => Nat.lt_of_succ_lt (hlt x hx)⟩

/-! The last line -/

def lastLine (line : Nat) (start : List UInt8) : List UInt8 → Nat × List UInt8
  | [] => (line, start.reverse)
  | b :: bytes =>
    if b == 0x0A then lastLine (line + 1) [] bytes else lastLine line (b :: start) bytes

theorem lastLine_concat : lastLine n start (bytes ++ [b]) =
    if b = 0x0A then ((lastLine n start bytes).1 + 1, [])
    else ((lastLine n start bytes).1, (lastLine n start bytes).2 ++ [b]) := by
  induction bytes generalizing n start with
  | nil => by_cases hb : b = 0x0A <;> simp [lastLine, hb]
  | cons c bytes ih =>
    rw [List.cons_append, lastLine, lastLine]
    split <;> exact ih

theorem lastLine_append_of_not_mem (h : 0x0A ∉ l) : lastLine n start (bytes ++ l) =
    ((lastLine n start bytes).1, (lastLine n start bytes).2 ++ l) := by
  induction l using List.reverseRecOn with
  | nil => simp
  | append_singleton l b ih =>
    rw [List.mem_append, List.mem_singleton, not_or] at h
    rw [← List.append_assoc, lastLine_concat, if_neg (Ne.symm h.2), ih h.1, List.append_assoc]

structure SplitsAtLine (bytes head line : List UInt8) : Prop where
  whole : bytes = head ++ line
  ended : head = [] ∨ head.getLast? = some 0x0A
  single : 0x0A ∉ line

theorem lastLine_eq (bytes : List UInt8) : ∃ head line, SplitsAtLine bytes head line ∧
    lastLine 1 [] bytes = (1 + head.count 0x0A, line) := by
  induction bytes using List.reverseRecOn with
  | nil => exact ⟨[], [], ⟨rfl, .inl rfl, List.not_mem_nil⟩, rfl⟩
  | append_singleton bytes b ih =>
    obtain ⟨head, line, ⟨rfl, hended, hsingle⟩, heq⟩ := ih
    rw [lastLine_concat, heq]
    by_cases hb : b = 0x0A
    . refine ⟨head ++ line ++ [b], [], ⟨(List.append_nil _).symm, ?_, List.not_mem_nil⟩, ?_⟩
      . simp [hb]
      . simp [hb, List.count_eq_zero.2 hsingle]
        omega
    . refine ⟨head, line ++ [b], ⟨List.append_assoc .., hended, ?_⟩, if_neg hb⟩
      simpa [hsingle] using Ne.symm hb

theorem lineFeed_not_mem {x : Char} (hx : x ≠ '\n') : 0x0A ∉ String.utf8EncodeChar x := by
  intro h
  have heq : x.toNat = '\n'.toNat := (spells_utf8EncodeChar x).eq_toNat_of_mem h (by decide)
  exact hx (Char.toNat_inj.1 heq)

def placeOf (bytes : List UInt8) : Nat × Nat :=
  ((lastLine 1 [] bytes).1, (decode (lastLine 1 [] bytes).2).length + 1)

theorem lineStarts_concat (bytes : List UInt8) (b : UInt8) : lineStarts (bytes ++ [b]) =
    if b = 0x0A then (lineStarts bytes).push (bytes.length + 1) else lineStarts bytes := by
  unfold lineStarts
  rw [lineStartsFrom_append, Nat.zero_add]
  by_cases hb : b = 0x0A <;> simp [lineStartsFrom, hb]

/--
The starts of the lines before an offset: as many as there are lines, the last one of the last line.
-/
structure HasStarts (bytes : List UInt8) (starts : List Nat) : Prop where
  length : starts.length = (lastLine 1 [] bytes).1
  last : ∃ start, starts.getLast? = some start ∧ start ≤ bytes.length ∧
    bytes.drop start = (lastLine 1 [] bytes).2
  le : ∀ start ∈ starts, start ≤ bytes.length

theorem hasStarts_lineStarts (bytes : List UInt8) : HasStarts bytes (lineStarts bytes).toList := by
  induction bytes using List.reverseRecOn with
  | nil => exact ⟨rfl, ⟨0, rfl, Nat.le_refl 0, rfl⟩, by simp [lineStarts, lineStartsFrom]⟩
  | append_singleton bytes b ih =>
    obtain ⟨start, hlast, hle, hdrop⟩ := ih.last
    rw [lineStarts_concat]
    by_cases hb : b = 0x0A
    . rw [if_pos hb]
      constructor
      case length => simp [lastLine_concat, hb, ih.length]
      case last =>
        refine ⟨bytes.length + 1, by simp, by simp, ?_⟩
        rw [lastLine_concat, if_pos hb, List.drop_eq_nil_of_le (by simp)]
      case le =>
        intro x hx
        rw [Array.toList_push, List.mem_append, List.mem_singleton] at hx
        rw [List.length_append, List.length_singleton]
        rcases hx with hx | rfl
        . exact Nat.le_succ_of_le (ih.le x hx)
        . exact Nat.le_refl _
    . rw [if_neg hb]
      constructor
      case length => rw [lastLine_concat, if_neg hb, ih.length]
      case last =>
        refine ⟨start, hlast, by simp; omega, ?_⟩
        rw [lastLine_concat, if_neg hb, List.drop_append_of_le_length hle, hdrop]
      case le =>
        intro x hx
        rw [List.length_append]
        exact Nat.le_add_right_of_le (ih.le x hx)

/-! Queries -/

theorem lineTable_run (s : Source) {table : Option (Array Nat)}
    (h : table = none ∨ table = some (lineStarts s.content)) :
    s.lineTable.run table = some (lineStarts s.content, some (lineStarts s.content)) := by
  rcases h with rfl | rfl <;> rfl

theorem search_lineStarts (before after : List UInt8) :
    search (fun i => (lineStarts (before ++ after))[i]?.map fun start =>
      decide (before.length < start))
      0 (lineStarts (before ++ after)).size = some (lineStarts before).size := by
  obtain ⟨more, hmore, hlt⟩ := exists_more_starts before.length (lineStarts before) after
  have hstarts : (lineStarts (before ++ after)).toList = (lineStarts before).toList ++ more := by
    rw [lineStarts, lineStartsFrom_append, Nat.zero_add]
    exact hmore
  have hsize : (lineStarts (before ++ after)).size = (lineStarts before).size + more.length := by
    rw [← Array.length_toList, hstarts, List.length_append]
    rfl
  have hlength : (lineStarts before).toList.length = (lineStarts before).size := rfl
  refine search_eq (Nat.zero_le _) (by omega) fun i _ hi => ?_
  rw [← Array.getElem?_toList, hstarts]
  by_cases hk : (lineStarts before).size ≤ i
  . have hin : i - (lineStarts before).size < more.length := by omega
    rw [List.getElem?_append_right (by simpa using hk), hlength, List.getElem?_eq_getElem hin,
      Option.map_some, decide_eq_true hk,
      decide_eq_true (hlt _ (List.getElem_mem hin))]
  . have hin : i < (lineStarts before).toList.length := by simpa using hk
    rw [List.getElem?_append_left hin, List.getElem?_eq_getElem hin, Option.map_some,
      decide_eq_false hk, decide_eq_false]
    exact Nat.not_lt.2 ((hasStarts_lineStarts before).le _ (List.getElem_mem hin))

theorem start_lineStarts (before after : List UInt8) : ∃ start,
    (lineStarts before).size ≠ 0 ∧
      (lineStarts (before ++ after))[(lineStarts before).size - 1]? = some start ∧
      start ≤ before.length ∧ before.drop start = (lastLine 1 [] before).2 := by
  obtain ⟨start, hlast, hle, hdrop⟩ := (hasStarts_lineStarts before).last
  obtain ⟨more, hmore, -⟩ := exists_more_starts before.length (lineStarts before) after
  have hsize : (lineStarts before).toList.length ≠ 0 := by
    rw [ne_eq, List.length_eq_zero_iff]
    intro hnil
    rw [hnil] at hlast
    cases hlast
  rw [Array.length_toList] at hsize
  refine ⟨start, hsize, ?_, hle, hdrop⟩
  rw [← Array.getElem?_toList, lineStarts, lineStartsFrom_append, Nat.zero_add, ← lineStarts, hmore,
    List.getElem?_append_left (by rw [Array.length_toList]; omega), ← hlast,
    List.getLast?_eq_getElem?, Array.length_toList]

/-- Every query succeeds, whatever table the ones before it left. -/
theorem locate_run (s : Source) (offset : Int) {table : Option (Array Nat)}
    (h : table = none ∨ table = some (lineStarts s.content)) :
    (s.locate offset).run table =
      some (placeOf (s.content.take (s.clamp offset)), some (lineStarts s.content)) := by
  generalize hbefore : s.content.take (s.clamp offset) = before
  have hcontent : s.content = before ++ s.content.drop (s.clamp offset) := by
    rw [← hbefore, List.take_append_drop]
  have hlength : s.clamp offset = before.length := by
    rw [← hbefore, List.length_take, clamp]
    omega
  generalize s.content.drop (s.clamp offset) = after at hcontent
  obtain ⟨start, hsize, hstart, hle, hdrop⟩ := start_lineStarts before after
  have hslice : slice? s.content start before.length = some (lastLine 1 [] before).2 := by
    rw [slice?, if_pos ⟨hle, by simp [hcontent]⟩, hcontent, List.take_left, hdrop]
  have hlines : (lineStarts before).size = (lastLine 1 [] before).1 := by
    rw [← Array.length_toList]
    exact (hasStarts_lineStarts before).length
  unfold locate
  rw [StateT.run_bind, lineTable_run s h]
  simp only [Option.bind_eq_bind, Option.bind_some]
  rw [hlength, hcontent, search_lineStarts]
  rw [hcontent] at hslice
  simp only [StateT.run_bind, StateT.run_monadLift, monadLift_self, Option.bind_eq_bind,
    Option.bind_some, if_neg hsize, hstart, hslice, Option.pure_def, StateT.run_pure]
  rw [hlines]
  rfl

theorem run_mapM_locate (s : Source) (offsets : List Int) {table : Option (Array Nat)}
    (h : table = none ∨ table = some (lineStarts s.content)) : ∃ table',
      (offsets.mapM s.locate).run table =
        some (offsets.map fun o => placeOf (s.content.take (s.clamp o)), table') ∧
      (table' = none ∨ table' = some (lineStarts s.content)) := by
  induction offsets generalizing table with
  | nil => exact ⟨table, rfl, h⟩
  | cons o offsets ih =>
    obtain ⟨table', hrun, htable⟩ := ih (.inr rfl)
    refine ⟨table', ?_, htable⟩
    rw [List.mapM_cons, StateT.run_bind, locate_run s o h]
    simp only [Option.bind_eq_bind, Option.bind_some, StateT.run_bind, hrun, StateT.run_pure,
      Option.pure_def, List.map_cons]

theorem lineAndColumn_eq (s : Source) (offset : Int) :
    s.lineAndColumn offset = placeOf (s.content.take (s.clamp offset)) := by
  rw [lineAndColumn, locate_run s offset (.inl rfl)]
  rfl

theorem lastLine_encode_concat {text : List Char} {x : Char} :
    lastLine 1 [] (encode (text ++ [x])) = if x = '\n' then
      ((lastLine 1 [] (encode text)).1 + 1, [])
      else ((lastLine 1 [] (encode text)).1,
        (lastLine 1 [] (encode text)).2 ++ String.utf8EncodeChar x) := by
  rw [encode_append, encode_cons, encode_nil, List.append_nil]
  split
  . next hx =>
    rw [hx, show String.utf8EncodeChar '\n' = [0x0A] from rfl, lastLine_concat, if_pos rfl]
  . next hx => exact lastLine_append_of_not_mem (lineFeed_not_mem hx)

theorem exists_lastLine_encode (text : List Char) :
    ∃ line, (lastLine 1 [] (encode text)).2 = encode line := by
  induction text using List.reverseRecOn with
  | nil => exact ⟨[], rfl⟩
  | append_singleton text x ih =>
    obtain ⟨line, hline⟩ := ih
    rw [lastLine_encode_concat]
    split
    . exact ⟨[], rfl⟩
    . exact ⟨line ++ [x], by simp [hline]⟩

theorem placeOf_lt_concat (text : List Char) (x : Char) :
    toLex (placeOf (encode text)) < toLex (placeOf (encode (text ++ [x]))) := by
  obtain ⟨line, hline⟩ := exists_lastLine_encode text
  rw [Prod.Lex.toLex_lt_toLex, placeOf, placeOf, lastLine_encode_concat]
  split
  . exact .inl (Nat.lt_succ_self _)
  . right
    have hmore : encode line ++ String.utf8EncodeChar x = encode (line ++ [x]) := by simp
    rw [hline, hmore, decode_encode, decode_encode]
    simp

theorem lineAndColumn_boundary {s : Source} {text : List Char} (hs : s.content = encode text)
    (k : Nat) : s.lineAndColumn (encode (text.take k)).length = placeOf (encode (text.take k)) := by
  have hparts : s.content = encode (text.take k) ++ encode (text.drop k) := by
    rw [← encode_append, List.take_append_drop, hs]
  have hclamp : s.clamp (encode (text.take k)).length = (encode (text.take k)).length := by
    rw [clamp, Int.toNat_natCast, hparts, List.length_append]
    omega
  rw [lineAndColumn_eq, hclamp, hparts, List.take_left]

/-- The place of an offset: the lines before it, and the code points of its line up to it. -/
structure StandsAt (s : Source) (offset : Int) (place : Nat × Nat) : Prop where
  counts : ∃ before after head line, s.content = before ++ after ∧
    (before.length : Int) = max 0 (min offset s.content.length) ∧ SplitsAtLine before head line ∧
    (∃ points, CodePoints line points) ∧ ∀ points, CodePoints line points →
      place = (1 + before.count 0x0A, 1 + points.length)

theorem standsAt_placeOf (s : Source) (offset : Int) :
    StandsAt s offset (placeOf (s.content.take (s.clamp offset))) := by
  obtain ⟨head, line, hsplit, heq⟩ := lastLine_eq (s.content.take (s.clamp offset))
  refine ⟨_, _, head, line, (List.take_append_drop (s.clamp offset) s.content).symm, ?_, hsplit,
    ⟨_, codePoints_decode line⟩, fun points hpoints => ?_⟩
  . rw [List.length_take, clamp]
    omega
  . rw [hsplit.whole, List.count_append, List.count_eq_zero.2 hsplit.single, hpoints.eq_decode,
      ← hsplit.whole, placeOf, heq, Nat.add_comm 1 (decode line).length]
    rfl

/--
Whatever was asked before, a query for an offset, which is brought into the content first, finds its
place: it counts the line feeds before it and the code points between the last of them and it. In
content that is well-formed the place grows from each boundary between characters to the next.
-/
theorem lineAndColumn_counts (s : Source) :
    (∀ (earlier : List Int) (offset : Int), ∃ places table table' place,
      (earlier.mapM s.locate).run none = some (places, table) ∧
      (s.locate offset).run table = some (place, table') ∧ StandsAt s offset place ∧
      s.lineAndColumn offset = place) ∧
    ∀ text : List Char, s.content = encode text → ∀ i j, i < j → j ≤ text.length →
      toLex (s.lineAndColumn (encode (text.take i)).length) <
        toLex (s.lineAndColumn (encode (text.take j)).length) := by
  constructor
  . intro earlier offset
    obtain ⟨table, hrun, htable⟩ := run_mapM_locate s earlier (.inl rfl)
    exact ⟨_, table, _, _, hrun, locate_run s offset htable, standsAt_placeOf s offset,
      lineAndColumn_eq s offset⟩
  . intro text hs i j hij hj
    have hstep (k : Nat) (hk : k < text.length) :
        toLex (placeOf (encode (text.take k))) < toLex (placeOf (encode (text.take (k + 1)))) := by
      rw [List.take_succ_eq_append_getElem hk]
      exact placeOf_lt_concat _ _
    rw [lineAndColumn_boundary hs, lineAndColumn_boundary hs]
    induction j, hij using Nat.le_induction with
    | base => exact hstep i hj
    | succ k hk ih => exact (ih (by omega)).trans (hstep k hj)

/-- Two lines, the first with a letter of two bytes, at their start and at the second line. -/
theorem lineAndColumn_counts_twoLines :
    let s : Source := ⟨"a.js", "a.js", encode ['é', '\n', 'x']⟩
    s.content = encode ['é', '\n', 'x'] ∧ toLex (s.lineAndColumn 0) < toLex
      (s.lineAndColumn 3) := by
  intro s
  refine ⟨rfl, ?_⟩
  exact (lineAndColumn_counts s).2 ['é', '\n', 'x'] rfl 0 2 (by decide) (by decide)

end ScriptC.Source
