import Mathlib.Algebra.Group.Nat.Defs
import Mathlib.Tactic.Common
import ScriptC.Text.Hex
import ScriptC.Text.Utf16

/-!
Writing that can be taken back: the digits of a number tell the number, and the units of a text tell
the text.
-/

namespace ScriptC.Text

/-! Base sixteen -/

def hexNumber (n : Nat) (digits : List Char) : Nat :=
  digits.foldl (fun a c => a * 16 + (hexValue? c).getD 0) n

theorem hexValue?_hexDigit (upper : Bool) {n : Nat} (h : n < 16) :
    hexValue? (hexDigit upper n) = some n := by
  have hall : ∀ upper, ∀ n < 16, hexValue? (hexDigit upper n) = some n := by decide
  exact hall upper n h

theorem isSome_hexValue?_of_mem_go {upper : Bool} {fuel width n : Nat} {c : Char}
    (h : c ∈ hexDigits.go upper fuel width n) : (hexValue? c).isSome = true := by
  induction fuel generalizing width n with
  | zero => cases h
  | succ fuel ih =>
    rw [hexDigits.go] at h
    split at h
    . cases h
    . rcases List.mem_cons.1 h with rfl | h
      . rw [hexValue?_hexDigit upper (Nat.mod_lt n (by decide))]
        rfl
      . exact ih h

theorem isSome_hexValue?_of_mem {upper : Bool} {width n : Nat} {c : Char}
    (h : c ∈ hexDigits upper width n) : (hexValue? c).isSome = true :=
  isSome_hexValue?_of_mem_go (List.mem_reverse.1 h)

-- The digits are produced from the last one on, so the induction sees them that way round.
theorem foldr_go (upper : Bool) {fuel width n : Nat} (h : n < 16 ^ fuel) :
    (hexDigits.go upper fuel width n).foldr (fun c a => a * 16 + (hexValue? c).getD 0) 0 = n := by
  induction fuel generalizing width n with
  | zero =>
    obtain rfl : n = 0 := by simpa using h
    rfl
  | succ fuel ih =>
    rw [hexDigits.go]
    split
    . next hn =>
      obtain ⟨rfl, -⟩ : n = 0 ∧ width = 0 := by simpa using hn
      rfl
    . have hq : n / 16 < 16 ^ fuel := by
        rw [Nat.pow_succ] at h
        exact Nat.div_lt_of_lt_mul (by omega)
      rw [List.foldr_cons, ih hq, hexValue?_hexDigit upper (Nat.mod_lt n (by decide))]
      exact Nat.div_add_mod' n 16

theorem hexNumber_hexDigits (upper : Bool) (width n : Nat) :
    hexNumber 0 (hexDigits upper width n) = n := by
  have hfuel : n < 16 ^ (n.log2 + width + 1) :=
    calc n < 2 ^ (n.log2 + 1) := Nat.lt_log2_self
      _ ≤ 16 ^ (n.log2 + 1) := Nat.pow_le_pow_left (by decide) _
      _ ≤ 16 ^ (n.log2 + width + 1) := Nat.pow_le_pow_right (by decide) (by omega)
  rw [hexNumber, hexDigits, List.foldl_reverse]
  exact foldr_go upper hfuel

theorem hexDigits_ne_nil (upper : Bool) (width n : Nat) : hexDigits upper width n ≠ [] := by
  rw [hexDigits, Ne, List.reverse_eq_nil_iff, hexDigits.go, if_neg (by simp)]
  exact List.cons_ne_nil _ _

/-! Units -/

theorem toNat_lt_of_char (c : Char) : c.toNat < 0x110000 ∧
    ¬(0xD800 ≤ c.toNat ∧ c.toNat < 0xE000) := by
  have h := c.valid
  simp only [UInt32.isValidChar, Nat.isValidChar] at h
  simp only [Char.toNat]
  omega

theorem isSurrogate_toUInt16 {n : Nat} (h : n < 0x10000) :
    isSurrogate n.toUInt16 = decide (0xD800 ≤ n ∧ n ≤ 0xDFFF) := by
  have hn : n.toUInt16.toNat = n := UInt16.toNat_ofNat_of_lt' h
  simp [isSurrogate, UInt16.le_iff_toNat_le, hn]

theorem isLowSurrogate_toUInt16 {n : Nat} (h : n < 0x10000) :
    isLowSurrogate n.toUInt16 = decide (0xDC00 ≤ n ∧ n ≤ 0xDFFF) := by
  have hn : n.toUInt16.toNat = n := UInt16.toNat_ofNat_of_lt' h
  simp [isLowSurrogate, UInt16.le_iff_toNat_le, hn]

theorem ofUnits_cons_of_not_isSurrogate {a : UInt16} (h : isSurrogate a = false)
    (rest : List UInt16) : ofUnits (a :: rest) = Char.ofNat a.toNat :: ofUnits rest := by
  cases rest with
  | nil => simp [ofUnits, single, h]
  | cons b rest => simp [ofUnits, single, h]

theorem unitsOf_cases (c : Char) :
    (∃ u, unitsOf c = [u] ∧ isSurrogate u = false ∧ Char.ofNat u.toNat = c) ∨
      ∃ a b, unitsOf c = [a, b] ∧ isSurrogate a = true ∧ isLowSurrogate a = false ∧
        isLowSurrogate b = true ∧ pairOf a b = c := by
  obtain ⟨hlt, hgap⟩ := toNat_lt_of_char c
  unfold unitsOf
  dsimp only
  split
  . next hsmall =>
    refine .inl ⟨_, rfl, ?_, ?_⟩
    . rw [isSurrogate_toUInt16 hsmall, decide_eq_false_iff_not]
      omega
    . rw [show c.toNat.toUInt16.toNat = c.toNat from UInt16.toNat_ofNat_of_lt' hsmall,
        Char.ofNat_toNat]
  . next hlarge =>
    generalize hhigh : 0xD800 + (c.toNat - 0x10000) / 0x400 = high
    generalize hlow : 0xDC00 + (c.toNat - 0x10000) % 0x400 = low
    have hh : high < 0x10000 := by omega
    have hl : low < 0x10000 := by omega
    refine .inr ⟨_, _, rfl, ?_, ?_, ?_, ?_⟩
    . rw [isSurrogate_toUInt16 hh, decide_eq_true_eq]
      omega
    . rw [isLowSurrogate_toUInt16 hh, decide_eq_false_iff_not]
      omega
    . rw [isLowSurrogate_toUInt16 hl, decide_eq_true_eq]
      omega
    . rw [pairOf, show high.toUInt16.toNat = high from UInt16.toNat_ofNat_of_lt' hh,
        show low.toUInt16.toNat = low from UInt16.toNat_ofNat_of_lt' hl,
        show 0x10000 + (high - 0xD800) * 0x400 + (low - 0xDC00) = c.toNat by omega]
      exact Char.ofNat_toNat c

theorem ofUnits_unitsOf (c : Char) (rest : List UInt16) :
    ofUnits (unitsOf c ++ rest) = c :: ofUnits rest := by
  rcases unitsOf_cases c with ⟨u, hu, hsingle, rfl⟩ | ⟨a, b, hab, ha, ha', hb, rfl⟩
  . rw [hu, List.singleton_append, ofUnits_cons_of_not_isSurrogate hsingle]
  . rw [hab]
    simp [ofUnits, ha, ha', hb]

theorem ofUnits_units (text : List Char) : ofUnits (units text) = text := by
  induction text with
  | nil => rfl
  | cons c text ih => rw [units, List.flatMap_cons, ofUnits_unitsOf, ← units, ih]

theorem units_inj {a b : List Char} : units a = units b ↔ a = b :=
  ⟨fun h => by rw [← ofUnits_units a, h, ofUnits_units], fun h => h ▸ rfl⟩

end ScriptC.Text
