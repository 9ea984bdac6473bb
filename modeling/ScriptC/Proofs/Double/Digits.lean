import Mathlib.Algebra.Order.Field.Power
import Mathlib.Tactic
import ScriptC.Double.Shortest

/-!
Digits without a leading zero are what their number is written as. A number of steps on a decimal
grid keeps its value when the zeros at the end of its digits move into the place of the point.
-/

namespace ScriptC.Double

def number (digits : List Char) : Nat := Nat.ofDigitChars 10 digits 0

@[simp]
theorem number_toDigits (n : Nat) : number (Nat.toDigits 10 n) = n := Nat.ofDigitChars_ten_toDigits

theorem number_append (l m : List Char) : number (l ++ m) = number l * 10 ^
    m.length + number m := by
  rw [number, Nat.ofDigitChars_append, Nat.ofDigitChars_eq_ofDigitChars_zero, Nat.mul_comm]
  rfl

@[simp]
theorem number_replicate (j : Nat) : number (List.replicate j '0') = 0 := by
  induction j with
  | zero => rfl
  | succ j ih => rw [List.replicate_succ', number_append, ih]; rfl

def IsNumeral (l : List Char) : Prop := ∀ c ∈ l, c.isDigit = true

theorem isNumeral_toDigits (n : Nat) : IsNumeral (Nat.toDigits 10 n) :=
  fun _ => Nat.isDigit_of_mem_toDigits (by decide) (by decide)

theorem isNumeral_replicate (j : Nat) : IsNumeral (List.replicate j '0') := by
  intro c hc
  rw [List.eq_of_mem_replicate hc]
  rfl

theorem isNumeral_append {l m : List Char} : IsNumeral (l ++ m) ↔ IsNumeral l ∧ IsNumeral m :=
  List.forall_mem_append

theorem exists_digitChar {c : Char} (h : c.isDigit = true) : ∃ n < 10, c = n.digitChar := by
  obtain ⟨hlow, hhigh⟩ := Char.isDigit_iff_toNat.1 h
  simp only [Char.reduceToNat] at hlow hhigh
  refine ⟨c.toNat - 48, by omega, Char.toNat_inj.1 ?_⟩
  rw [Nat.toNat_digitChar_of_lt_ten (by omega)]
  omega

theorem number_digitChar {n : Nat} (h : n < 10) : number [n.digitChar] = n := by
  rw [← Nat.toDigits_of_lt_base h, number_toDigits]

theorem number_lt {l : List Char} (h : IsNumeral l) : number l < 10 ^ l.length := by
  induction l using List.reverseRecOn with
  | nil => decide
  | append_singleton l c ih =>
    obtain ⟨hl, hc⟩ := isNumeral_append.1 h
    obtain ⟨n, hn, rfl⟩ := exists_digitChar (hc c (by simp))
    have := ih hl
    rw [number_append, number_digitChar hn, List.length_append, List.length_singleton, pow_succ]
    omega

structure IsLeading (l : List Char) : Prop where
  isNumeral : IsNumeral l
  head : ∃ c, l.head? = some c ∧ c ≠ '0'

theorem IsLeading.ne_nil {l : List Char} (h : IsLeading l) : l ≠ [] := by
  rintro rfl
  exact absurd h.head (by simp)

theorem IsLeading.pow_le {l : List Char} (h : IsLeading l) : 10 ^ (l.length - 1) ≤ number l := by
  obtain ⟨hl, c, hc, hne⟩ := h
  obtain ⟨m, rfl⟩ := List.head?_eq_some_iff.1 hc
  obtain ⟨n, hn, rfl⟩ := exists_digitChar (hl c (by simp))
  have hpos : n ≠ 0 := mt Nat.digitChar_eq_zero.2 hne
  rw [← List.singleton_append, number_append, number_digitChar hn]
  calc 10 ^ m.length
    _ ≤ n * 10 ^ m.length := Nat.le_mul_of_pos_left _ (by omega)
    _ ≤ n * 10 ^ m.length + number m := Nat.le_add_right ..

theorem IsLeading.toDigits_number {l : List Char} (h : IsLeading l) :
    Nat.toDigits 10 (number l) = l := by
  induction l using List.reverseRecOn with
  | nil => exact absurd rfl h.ne_nil
  | append_singleton l c ih =>
    obtain ⟨hl, hc⟩ := isNumeral_append.1 h.isNumeral
    obtain ⟨n, hn, rfl⟩ := exists_digitChar (hc c (by simp))
    rw [number_append, number_digitChar hn, List.length_singleton, pow_one]
    cases l with
    | nil =>
      rw [show number [] = 0 from rfl, Nat.zero_mul, Nat.zero_add, Nat.toDigits_of_lt_base hn]
      rfl
    | cons a l =>
      have hleading : IsLeading (a :: l) := ⟨hl, h.head⟩
      have hpos := Nat.lt_of_lt_of_le (Nat.pow_pos (by decide)) hleading.pow_le
      rw [Nat.mul_comm, ← Nat.toDigits_append_toDigits (by decide) hpos hn, ih hleading,
        Nat.toDigits_of_lt_base hn]

theorem isLeading_toDigits {n : Nat} (h : 0 < n) : IsLeading (Nat.toDigits 10 n) := by
  refine ⟨isNumeral_toDigits n, ?_⟩
  induction n using Nat.strongRecOn with
  | ind n ih =>
    rw [Nat.toDigits_eq_if (by decide)]
    split
    . exact ⟨_, rfl, mt Nat.digitChar_eq_zero.1 (by omega)⟩
    . obtain ⟨c, hc, hne⟩ := ih (n / 10) (by omega) (by omega)
      exact ⟨c, (List.head?_append_of_ne_nil _ Nat.toDigits_ne_nil).trans hc, hne⟩

theorem stripZeros_concat (l : List Char) (c : Char) :
    stripZeros (l ++ [c]) = if c = '0' then stripZeros l else l ++ [c] := by
  simp only [stripZeros, List.reverse_append, List.reverse_singleton, List.singleton_append,
    List.dropWhile_cons, beq_iff_eq]
  split <;> simp

theorem stripZeros_append (l : List Char) : ∃ j, stripZeros l ++ List.replicate j '0' = l := by
  induction l using List.reverseRecOn with
  | nil => exact ⟨0, rfl⟩
  | append_singleton l c ih =>
    rw [stripZeros_concat]
    split
    . next hc =>
      obtain ⟨j, hj⟩ := ih
      exact ⟨j + 1, by rw [List.replicate_succ', ← List.append_assoc, hj, hc]⟩
    . exact ⟨0, List.append_nil _⟩

structure IsSignificant (l : List Char) : Prop extends IsLeading l where
  last : l.getLast? ≠ some '0'

theorem IsSignificant.not_dvd {l : List Char} (h : IsSignificant l) : ¬ 10 ∣ number l := by
  intro hdvd
  have hle : 10 ≤ number l :=
    Nat.le_of_dvd (Nat.lt_of_lt_of_le (Nat.pow_pos (by decide)) h.pow_le) hdvd
  have hlast := h.last
  rw [← h.toDigits_number, Nat.toDigits_of_base_le (by decide) hle, List.getLast?_concat,
    Nat.mod_eq_zero_of_dvd hdvd] at hlast
  exact hlast rfl

theorem isSignificant_stripZeros {l : List Char} (h : IsLeading l) :
    IsSignificant (stripZeros l) := by
  obtain ⟨j, hj⟩ := stripZeros_append l
  obtain ⟨c, hc, hne⟩ := h.head
  refine ⟨⟨(isNumeral_append.1 (hj ▸ h.isNumeral)).1, c, ?_, hne⟩, ?_⟩
  . cases hstrip : stripZeros l with
    | nil =>
      rw [hstrip, List.nil_append] at hj
      refine absurd (List.eq_of_mem_replicate (n := j) ?_) hne
      exact hj ▸ List.mem_of_mem_head? hc
    | cons a m => rwa [← hj, hstrip] at hc
  . clear * -
    induction l using List.reverseRecOn with
    | nil => decide
    | append_singleton l c ih =>
      rw [stripZeros_concat]
      split
      . exact ih
      . next hc => simpa using hc

def Decimal.value (d : Decimal) : ℚ := number d.digits * 10 ^ (d.point - d.digits.length)

theorem value_ofSteps (s : Nat) (g : Int) : (Decimal.ofSteps s g).value = s * 10 ^ g := by
  obtain ⟨j, hj⟩ := stripZeros_append (Nat.toDigits 10 s)
  have hnumber : s = number (stripZeros (Nat.toDigits 10 s)) * 10 ^ j := by
    rw [← number_toDigits s]
    conv => lhs; rw [← hj, number_append, number_replicate, List.length_replicate, Nat.add_zero]
    rw [number_toDigits]
  have hlength := congrArg List.length hj
  rw [List.length_append, List.length_replicate] at hlength
  rw [Decimal.value, Decimal.ofSteps, ← hlength]
  dsimp only
  rw [show g + ((stripZeros (Nat.toDigits 10 s)).length + j : Nat) -
    (stripZeros (Nat.toDigits 10 s)).length = j + g by push_cast; ring, zpow_add₀ (by norm_num)]
  conv => rhs; rw [hnumber]
  push_cast
  rw [zpow_natCast, mul_assoc]

end ScriptC.Double
