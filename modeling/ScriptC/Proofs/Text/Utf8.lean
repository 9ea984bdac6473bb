import Mathlib.Data.Nat.Init
import ScriptC.Proofs.Text

/-!
What is read from the front of bytes is the encoding of a character, wherever one stands there.
-/

namespace ScriptC.Text

def IsTail (b : UInt8) : Prop := 0x80 ≤ b.toNat ∧ b.toNat ≤ 0xBF

inductive Spells : List UInt8 → Nat → Prop where
  | one {b : UInt8} (hb : b.toNat < 0x80) : Spells [b] b.toNat
  | two {b c : UInt8} (hb : 0xC2 ≤ b.toNat ∧ b.toNat ≤ 0xDF) (hc : IsTail c) :
    Spells [b, c] (b.toNat % 32 * 64 + c.toNat % 64)
  | three {b c d : UInt8} (hb : 0xE0 ≤ b.toNat ∧ b.toNat ≤ 0xEF) (hc : IsTail c)
    (hmin : b.toNat = 0xE0 → 0xA0 ≤ c.toNat) (hmax : b.toNat = 0xED → c.toNat ≤ 0x9F)
    (hd : IsTail d) : Spells [b, c, d] ((b.toNat % 16 * 64 + c.toNat % 64) * 64 + d.toNat % 64)
  | four {b c d e : UInt8} (hb : 0xF0 ≤ b.toNat ∧ b.toNat ≤ 0xF4) (hc : IsTail c)
    (hmin : b.toNat = 0xF0 → 0x90 ≤ c.toNat) (hmax : b.toNat = 0xF4 → c.toNat ≤ 0x8F)
    (hd : IsTail d) (he : IsTail e) : Spells [b, c, d, e]
      (((b.toNat % 8 * 64 + c.toNat % 64) * 64 + d.toNat % 64) * 64 + e.toNat % 64)

variable {b : UInt8} {bytes rest tail : List UInt8} {v : Nat} {x : Char}

theorem toNat_ofNat {k : Nat} (hk : k < 256) : (UInt8.ofNat k).toNat = k :=
  UInt8.toNat_ofNat_of_lt' hk

theorem ofNat_eq {k : Nat} (h : k = b.toNat) : UInt8.ofNat k = b := by
  rw [h, UInt8.ofNat_toNat]

theorem spells_utf8EncodeChar (x : Char) : Spells (String.utf8EncodeChar x) x.toNat := by
  obtain ⟨hlt, hgap⟩ := toNat_lt_of_char x
  unfold String.utf8EncodeChar
  rw [show x.val.toNat = x.toNat from rfl]
  dsimp only
  generalize x.toNat = v at hlt hgap ⊢
  split
  . have hone : (UInt8.ofNat v).toNat = v := toNat_ofNat (by omega)
    simpa only [hone] using Spells.one (b := .ofNat v) (by omega)
  . have htail (k : Nat) : (UInt8.ofNat (k % 64 + 128)).toNat = k % 64 + 128 :=
      toNat_ofNat (by omega)
    have htail' (k : Nat) : IsTail (.ofNat (k % 64 + 128)) := by
      rw [IsTail, htail]
      omega
    split
    . have hb : (UInt8.ofNat (v / 64 % 32 + 192)).toNat = v / 64 % 32 + 192 :=
        toNat_ofNat (by omega)
      have hspells := Spells.two (b := .ofNat (v / 64 % 32 + 192)) (by omega) (htail' v)
      rwa [hb, htail, show (v / 64 % 32 + 192) % 32 * 64 + (v % 64 + 128) % 64 =
        v by omega] at hspells
    . split
      . have hb : (UInt8.ofNat (v / 4096 % 16 + 224)).toNat = v / 4096 % 16 + 224 :=
          toNat_ofNat (by omega)
        have hspells := Spells.three (b := .ofNat (v / 4096 % 16 + 224)) (by omega)
          (htail' (v / 64))
          (by rw [hb, htail]; omega) (by rw [hb, htail]; omega) (htail' v)
        rwa [hb, htail, htail, show ((v / 4096 % 16 + 224) % 16 * 64 +
          (v / 64 % 64 + 128) % 64) * 64 +
          (v % 64 + 128) % 64 = v by omega] at hspells
      . have hb : (UInt8.ofNat (v / 262144 % 8 + 240)).toNat = v / 262144 % 8 + 240 :=
          toNat_ofNat (by omega)
        have hspells := Spells.four (b := .ofNat (v / 262144 % 8 + 240)) (by omega)
          (htail' (v / 4096)) (by rw [hb, htail]; omega) (by rw [hb, htail]; omega)
            (htail' (v / 64))
          (htail' v)
        rwa [hb, htail, htail, htail, show (((v / 262144 % 8 + 240) % 8 * 64 +
          (v / 4096 % 64 + 128) % 64) * 64 + (v / 64 % 64 + 128) % 64) * 64 +
          (v % 64 + 128) % 64 = v by omega] at hspells

theorem Spells.isValidChar (h : Spells bytes v) : v.isValidChar := by
  unfold Nat.isValidChar
  cases h with
  | one hb => omega
  | two hb hc => omega
  | three hb hc hmin hmax hd =>
    unfold IsTail at hc hd
    omega
  | four hb hc hmin hmax hd he =>
    unfold IsTail at hc hd he
    omega

-- A byte below those of long spellings stands for itself wherever it is.
theorem Spells.eq_toNat_of_mem (h : Spells bytes v) (hb : b ∈ bytes) (hlow : b.toNat < 0x80) :
    v = b.toNat := by
  cases h with
  | one => rw [List.mem_singleton.1 hb]
  | two hfirst hc | three hfirst hc | four hfirst hc =>
    simp only [IsTail] at *
    simp only [List.mem_cons, List.not_mem_nil, or_false] at hb
    rcases hb with rfl | rfl | rfl | rfl <;> omega

theorem toNat_ofNat_of_isValidChar (h : v.isValidChar) : (Char.ofNat v).toNat = v := by
  rw [Char.ofNat, dif_pos h]
  rfl

theorem Spells.toNat_ofNat (h : Spells bytes v) : (Char.ofNat v).toNat = v :=
  toNat_ofNat_of_isValidChar h.isValidChar

theorem Spells.eq_utf8EncodeChar (h : Spells bytes v) :
    bytes = String.utf8EncodeChar (Char.ofNat v) := by
  unfold String.utf8EncodeChar
  rw [show (Char.ofNat v).val.toNat = v from h.toNat_ofNat]
  dsimp only
  cases h with
  | one hb => rw [if_pos (by omega), UInt8.ofNat_toNat]
  | two hb hc =>
    unfold IsTail at hc
    rw [if_neg (by omega), if_pos (by omega)]
    simp only [List.cons.injEq, and_true]
    exact ⟨(ofNat_eq (by omega)).symm, (ofNat_eq (by omega)).symm⟩
  | three hb hc hmin hmax hd =>
    unfold IsTail at hc hd
    rw [if_neg (by omega), if_neg (by omega), if_pos (by omega)]
    simp only [List.cons.injEq, and_true]
    exact ⟨(ofNat_eq (by omega)).symm, (ofNat_eq (by omega)).symm, (ofNat_eq (by omega)).symm⟩
  | four hb hc hmin hmax hd he =>
    unfold IsTail at hc hd he
    rw [if_neg (by omega), if_neg (by omega), if_neg (by omega)]
    simp only [List.cons.injEq, and_true]
    exact ⟨(ofNat_eq (by omega)).symm, (ofNat_eq (by omega)).symm, (ofNat_eq (by omega)).symm,
      (ofNat_eq (by omega)).symm⟩

theorem isTail_iff : isTail b ↔ IsTail b := by
  simp [isTail, IsTail, UInt8.le_iff_toNat_le]

theorem lead_eq (b : UInt8) : Lead.of? b =
    if 0xC2 ≤ b.toNat ∧ b.toNat ≤ 0xDF then some ⟨1, 0x80, 0xBF⟩
    else if 0xE0 ≤ b.toNat ∧ b.toNat ≤ 0xEF then
      some ⟨2, if b.toNat = 0xE0 then 0xA0 else 0x80, if b.toNat = 0xED then 0x9F else 0xBF⟩
    else if 0xF0 ≤ b.toNat ∧ b.toNat ≤ 0xF4 then
      some ⟨3, if b.toNat = 0xF0 then 0x90 else 0x80, if b.toNat = 0xF4 then 0x8F else 0xBF⟩
    else none := by
  have hnat : (0xC2 : UInt8).toNat = 0xC2 ∧ (0xDF : UInt8).toNat = 0xDF ∧
    (0xE0 : UInt8).toNat = 0xE0 ∧
      (0xED : UInt8).toNat = 0xED ∧ (0xE1 : UInt8).toNat = 0xE1 ∧ (0xEF : UInt8).toNat = 0xEF ∧
      (0xF0 : UInt8).toNat = 0xF0 ∧ (0xF1 : UInt8).toNat = 0xF1 ∧ (0xF3 : UInt8).toNat = 0xF3 ∧
      (0xF4 : UInt8).toNat = 0xF4 := by decide
  simp only [Lead.of?, UInt8.le_iff_toNat_le, Bool.and_eq_true, decide_eq_true_eq, beq_iff_eq,
    ← UInt8.toNat_inj, hnat]
  generalize b.toNat = n
  split_ifs <;> first | rfl | omega

theorem within_iff (low high : UInt8) {c : UInt8} {p q : Prop} [Decidable p] [Decidable q]
    (hlow : 0x80 ≤ low.toNat) (hhigh : high.toNat ≤ 0xBF) :
    ((if p then low else 0x80) ≤ c ∧ c ≤ if q then high else 0xBF) ↔
      IsTail c ∧ (p → low.toNat ≤ c.toNat) ∧ (q → c.toNat ≤ high.toNat) := by
  have hmin : (if p then low else 0x80).toNat = if p then low.toNat else 0x80 := by split <;> rfl
  have hmax : (if q then high else 0xBF).toNat = if q then high.toNat else 0xBF := by split <;> rfl
  rw [UInt8.le_iff_toNat_le, UInt8.le_iff_toNat_le, IsTail, hmin, hmax]
  by_cases hp : p <;> by_cases hq : q <;>
    simp only [hp, hq, if_true, if_false, true_implies, false_implies, and_true, true_and] <;> omega

theorem readChar_of_spells {l : List UInt8} (h : Spells l v) (hl : b :: bytes = l ++ rest) :
    readChar b bytes = (some (Char.ofNat v), rest) := by
  have hascii : b < 0x80 ↔ b.toNat < 0x80 := UInt8.lt_iff_toNat_lt
  cases h with
  | one hb =>
    obtain ⟨rfl, rfl⟩ := List.cons.inj hl
    rw [readChar, if_pos (hascii.2 hb)]
  | two hb hc =>
    obtain ⟨rfl, rfl⟩ := List.cons.inj hl
    rw [readChar, if_neg (by rw [hascii]; omega), lead_eq, if_pos hb]
    simpa [takeTails, leadBits, isTail] using isTail_iff.2 hc
  | three hb hc hmin hmax hd =>
    obtain ⟨rfl, rfl⟩ := List.cons.inj hl
    rw [readChar, if_neg (by rw [hascii]; omega), lead_eq, if_neg (by omega), if_pos hb]
    have hrange := (within_iff 0xA0 0x9F (by decide) (by decide)).2 ⟨hc, hmin, hmax⟩
    simp [takeTails, leadBits, isTail_iff.2 hd, hrange]
  | four hb hc hmin hmax hd he =>
    obtain ⟨rfl, rfl⟩ := List.cons.inj hl
    rw [readChar, if_neg (by rw [hascii]; omega), lead_eq, if_neg (by omega), if_neg (by omega),
      if_pos hb]
    have hrange := (within_iff 0x90 0x8F (by decide) (by decide)).2 ⟨hc, hmin, hmax⟩
    simp [takeTails, leadBits, isTail_iff.2 hd, isTail_iff.2 he, hrange]

theorem takeTails_succ {n a : Nat} (h : takeTails (n + 1) a bytes = (0, v, rest)) :
    ∃ d more, bytes = d :: more ∧ IsTail d ∧
      takeTails n (a * 64 + d.toNat % 64) more = (0, v, rest) := by
  cases bytes with
  | nil => simp [takeTails] at h
  | cons d more =>
    rw [takeTails] at h
    split at h
    . next hd => exact ⟨d, more, rfl, isTail_iff.1 hd, h⟩
    . simp at h

theorem spells_of_readChar (h : readChar b bytes = (some x, rest)) :
    ∃ l v, Spells l v ∧ x = Char.ofNat v ∧ b :: bytes = l ++ rest := by
  have hascii : b < 0x80 ↔ b.toNat < 0x80 := UInt8.lt_iff_toNat_lt
  unfold readChar at h
  split at h
  . next hb =>
    cases h
    exact ⟨[b], _, .one (hascii.1 hb), rfl, rfl⟩
  . cases hlead : Lead.of? b with
    | none => simp [hlead] at h
    | some lead =>
      cases bytes with
      | nil => simp [hlead] at h
      | cons c more =>
        simp only [hlead] at h
        split at h
        . next hc =>
          simp only [Bool.and_eq_true, decide_eq_true_eq] at hc
          generalize htaken : takeTails _ _ more = taken at h
          obtain ⟨k, v, left⟩ := taken
          obtain ⟨hk, rfl⟩ := Prod.mk.inj h
          obtain ⟨rfl, hx⟩ : k = 0 ∧ Char.ofNat v = x := by simpa using hk
          rw [lead_eq] at hlead
          split at hlead
          . next hb =>
            cases hlead
            cases htaken
            exact ⟨[b, c], _, .two hb (isTail_iff.1 (by simpa [isTail] using hc)), hx.symm, rfl⟩
          . split at hlead
            . next hb =>
              cases hlead
              obtain ⟨hc, hmin, hmax⟩ := (within_iff 0xA0 0x9F (by decide) (by decide)).1 hc
              obtain ⟨d, more, rfl, hd, htaken⟩ := takeTails_succ htaken
              cases htaken
              exact ⟨[b, c, d], _, .three hb hc hmin hmax hd, hx.symm, rfl⟩
            . split at hlead
              . next hb =>
                cases hlead
                obtain ⟨hc, hmin, hmax⟩ := (within_iff 0x90 0x8F (by decide) (by decide)).1 hc
                obtain ⟨d, more, rfl, hd, htaken⟩ := takeTails_succ htaken
                obtain ⟨e, more, rfl, he, htaken⟩ := takeTails_succ htaken
                cases htaken
                exact ⟨[b, c, d, e], _, .four hb hc hmin hmax hd he, hx.symm, rfl⟩
              . cases hlead
        . cases h

theorem readChar_eq_some_iff :
    readChar b bytes = (some x, rest) ↔ b :: bytes = String.utf8EncodeChar x ++ rest := by
  constructor
  . intro h
    obtain ⟨l, v, hspells, rfl, hl⟩ := spells_of_readChar h
    rw [hl, hspells.eq_utf8EncodeChar]
  . intro h
    rw [readChar_of_spells (spells_utf8EncodeChar x) h, Char.ofNat_toNat]

theorem exists_utf8EncodeChar_eq (x : Char) : ∃ b tail, String.utf8EncodeChar x = b :: tail :=
  List.exists_cons_of_ne_nil (String.utf8EncodeChar_ne_nil)

theorem decode_utf8EncodeChar_append : decode (String.utf8EncodeChar x ++ rest) = some x ::
    decode rest := by
  obtain ⟨b, tail, hx⟩ := exists_utf8EncodeChar_eq x
  have hread : readChar b (tail ++ rest) = (some x, rest) := by
    rw [readChar_eq_some_iff, hx, List.cons_append]
  rw [hx, List.cons_append, decode]
  split
  . next h =>
    obtain ⟨hc, rfl⟩ := Prod.mk.inj (h.symm.trans hread)
    exact congrArg (· :: decode _) hc
  . next h => cases h.symm.trans hread

theorem decode_cons_of_not_spelled (h : ∀ x, ¬ String.utf8EncodeChar x <+: b :: bytes) :
    decode (b :: bytes) = none :: decode bytes := by
  rw [decode]
  split
  . next x rest hread => exact absurd ⟨rest, (readChar_eq_some_iff.1 hread).symm⟩ (h x)
  . rfl

theorem repair_utf8EncodeChar_append : repair (String.utf8EncodeChar x ++ rest) = x ::
    repair rest := by
  obtain ⟨b, tail, hx⟩ := exists_utf8EncodeChar_eq x
  have hread : readChar b (tail ++ rest) = (some x, rest) := by
    rw [readChar_eq_some_iff, hx, List.cons_append]
  rw [hx, List.cons_append, repair]
  split
  next h =>
  obtain ⟨rfl, rfl⟩ := Prod.mk.inj (h.symm.trans hread)
  rfl

@[simp]
theorem encode_nil : encode [] = [] := rfl

@[simp]
theorem encode_cons {text : List Char} : encode (x :: text) = String.utf8EncodeChar
    x ++ encode text :=
  rfl

@[simp]
theorem encode_append {text more : List Char} : encode (text ++ more) = encode
    text ++ encode more :=
  List.flatMap_append

theorem decode_encode (text : List Char) : decode (encode text) = text.map some := by
  induction text with
  | nil => rw [encode_nil, decode, List.map_nil]
  | cons x text ih => rw [encode_cons, decode_utf8EncodeChar_append, ih, List.map_cons]

theorem repair_encode (text : List Char) : repair (encode text) = text := by
  induction text with
  | nil => rw [encode_nil, repair]
  | cons x text ih => rw [encode_cons, repair_utf8EncodeChar_append, ih]

inductive CodePoints : List UInt8 → List (Option Char) → Prop where
  | nil : CodePoints [] []
  | char {x : Char} {rest : List UInt8} {points : List (Option Char)} (h : CodePoints rest points) :
    CodePoints (String.utf8EncodeChar x ++ rest) (some x :: points)
  | stray {b : UInt8} {bytes : List UInt8} {points : List (Option Char)}
    (hb : ∀ x, ¬ String.utf8EncodeChar x <+: b :: bytes) (h : CodePoints bytes points) :
    CodePoints (b :: bytes) (none :: points)

theorem codePoints_decode (bytes : List UInt8) : CodePoints bytes (decode bytes) := by
  induction hn : bytes.length using Nat.strong_induction_on generalizing bytes with
  | _ n ih =>
    cases bytes with
    | nil =>
      rw [decode]
      exact .nil
    | cons b bytes =>
      subst hn
      by_cases h : ∃ x, String.utf8EncodeChar x <+: b :: bytes
      . obtain ⟨x, rest, hrest⟩ := h
        have hlt : rest.length < (b :: bytes).length := by
          have := List.length_pos_iff.2 (String.utf8EncodeChar_ne_nil (c := x))
          rw [← hrest, List.length_append]
          omega
        rw [← hrest, decode_utf8EncodeChar_append]
        exact .char (ih _ hlt rest rfl)
      . rw [not_exists] at h
        rw [decode_cons_of_not_spelled h]
        exact .stray h (ih _ (by simp) bytes rfl)

theorem CodePoints.eq_decode {points : List (Option Char)} (h : CodePoints bytes points) :
    points = decode bytes := by
  induction h with
  | nil => rw [decode]
  | char _ ih => rw [decode_utf8EncodeChar_append, ih]
  | stray hb _ ih => rw [decode_cons_of_not_spelled hb, ih]

end ScriptC.Text
