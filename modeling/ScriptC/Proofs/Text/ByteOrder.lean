import ScriptC.Proofs.Text.Utf8
import ScriptC.Source

/-!
A text is read back from each of its encodings, and whatever is decoded is well-formed, by every
decoder that does as it is documented to. The decoder that scripts are read with is one.
-/

namespace ScriptC.Text

def ByteOrder.bytes : ByteOrder → UInt16 → List UInt8
  | .little, u => [u.toUInt8, (u >>> 8).toUInt8]
  | .big, u => [(u >>> 8).toUInt8, u.toUInt8]

def ByteOrder.encodeChar (order : ByteOrder) (c : Char) : List UInt8 :=
  (unitsOf c).flatMap order.bytes

def ByteOrder.encode (order : ByteOrder) (text : List Char) : List UInt8 :=
  text.flatMap order.encodeChar

def utf8Mark : List UInt8 := [0xEF, 0xBB, 0xBF]

def ByteOrder.mark : ByteOrder → List UInt8
  | .little => [0xFF, 0xFE]
  | .big => [0xFE, 0xFF]

/--
Bytes as text in an encoding. Where the encoding of no character stands, some of the bytes are taken
together and replaced.
-/
inductive ReadAs (enc : Char → List UInt8) : List UInt8 → List Char → Prop where
  | nil : ReadAs enc [] []
  | char {c : Char} {rest : List UInt8} {text : List Char} (h : ReadAs enc rest text) :
    ReadAs enc (enc c ++ rest) (c :: text)
  | ill {bad rest : List UInt8} {text : List Char} (hbad : bad ≠ [])
    (hnone : ∀ c, ¬enc c <+: bad ++ rest) (h : ReadAs enc rest text) :
    ReadAs enc (bad ++ rest) (replacement :: text)

/--
What is documented of a decoder that byte order marks can override: a mark selects the encoding and
is removed once; without one the bytes are UTF-8.
-/
structure Decoder.Documented (d : Decoder) : Prop where
  finishes : ∀ raw, (d raw).fault = none
  utf8 : ∀ rest, (d (utf8Mark ++ rest)).text = rest
  utf16 : ∀ (order : ByteOrder) (rest : List UInt8), ∃ text,
    (d (order.mark ++ rest)).text = Text.encode text ∧ ReadAs order.encodeChar rest text
  bare : ∀ raw, ¬utf8Mark <+: raw → (∀ order : ByteOrder, ¬order.mark <+: raw) → ∃ text,
    (d raw).text = Text.encode text ∧ ReadAs String.utf8EncodeChar raw text

/-! Encodings that can be read back -/

/-- Encodings of characters none of which begins another one. -/
structure IsPrefixFree (enc : Char → List UInt8) : Prop where
  ne_nil : ∀ c, enc c ≠ []
  eq_of_begins : ∀ c d rest, enc c <+: enc d ++ rest → c = d

theorem ReadAs.eq_of_encoded {enc : Char → List UInt8} {bytes : List UInt8} {text text' : List Char}
    (henc : IsPrefixFree enc) (h : ReadAs enc bytes text') (hbytes : bytes = text.flatMap enc) :
    text' = text := by
  induction h generalizing text with
  | nil =>
    cases text with
    | nil => rfl
    | cons c text =>
      rw [List.flatMap_cons] at hbytes
      exact absurd (List.append_eq_nil_iff.1 hbytes.symm).1 (henc.ne_nil c)
  | @char c rest text' _ ih =>
    cases text with
    | nil => exact absurd (List.append_eq_nil_iff.1 hbytes).1 (henc.ne_nil c)
    | cons d text =>
      rw [List.flatMap_cons] at hbytes
      obtain rfl := henc.eq_of_begins c d _ ⟨rest, hbytes⟩
      rw [ih (List.append_cancel_left hbytes)]
  | @ill bad rest text' hbad hnone _ ih =>
    cases text with
    | nil => exact absurd (List.append_eq_nil_iff.1 hbytes).1 hbad
    | cons d text =>
      rw [List.flatMap_cons] at hbytes
      exact absurd ⟨_, hbytes.symm⟩ (hnone d)

theorem isPrefixFree_utf8 : IsPrefixFree String.utf8EncodeChar where
  ne_nil _ := String.utf8EncodeChar_ne_nil
  eq_of_begins c d rest := by
    rintro ⟨more, hmore⟩
    have hrepair := congrArg repair hmore
    rw [repair_utf8EncodeChar_append, repair_utf8EncodeChar_append, List.cons.injEq] at hrepair
    exact hrepair.1

/-! Units and their bytes -/

variable {order : ByteOrder}

theorem unit_bytes (order : ByteOrder) (u : UInt16) :
    ∃ a b, order.bytes u = [a, b] ∧ order.unit a b = u := by
  have hsum : u.toUInt8.toUInt16 + (256 : UInt16) * (u >>> 8).toUInt8.toUInt16 = u := by
    apply UInt16.toNat_inj.1
    have := u.toNat_lt
    simp [Nat.shiftRight_eq_div_pow]
    omega
  cases order with
  | little => exact ⟨_, _, rfl, hsum⟩
  | big => exact ⟨_, _, rfl, (UInt16.add_comm ..).trans hsum⟩

theorem bytes_unit (order : ByteOrder) (a b : UInt8) : order.bytes (order.unit a b) = [a, b] := by
  have hlow : ∀ x y : UInt8, (x.toUInt16 + 256 * y.toUInt16).toUInt8 = x := by
    intro x y
    apply UInt8.toNat_inj.1
    have := x.toNat_lt
    simp
  have hhigh : ∀ x y : UInt8, ((x.toUInt16 + 256 * y.toUInt16) >>> 8).toUInt8 = y := by
    intro x y
    apply UInt8.toNat_inj.1
    have := x.toNat_lt
    have := y.toNat_lt
    simp [Nat.shiftRight_eq_div_pow]
    omega
  cases order with
  | little => rw [ByteOrder.unit, ByteOrder.bytes, hlow, hhigh]
  | big => rw [ByteOrder.unit, UInt16.add_comm, ByteOrder.bytes, hlow, hhigh]

theorem units_bytes_append (u : UInt16) (rest : List UInt8) :
    order.units (order.bytes u ++ rest) = (u :: (order.units rest).1, (order.units rest).2) := by
  obtain ⟨a, b, hbytes, hunit⟩ := unit_bytes order u
  rw [hbytes, List.cons_append, List.singleton_append, ByteOrder.units, hunit]

theorem units_flatMap_append (us : List UInt16) (rest : List UInt8) :
    order.units (us.flatMap order.bytes ++ rest) =
      (us ++ (order.units rest).1, (order.units rest).2) := by
  induction us with
  | nil => rfl
  | cons u us ih => rw [List.flatMap_cons, List.append_assoc, units_bytes_append, ih]; rfl

theorem exists_units (order : ByteOrder) (bytes : List UInt8) : ∃ tail : List UInt8,
    bytes = (order.units bytes).1.flatMap order.bytes ++ tail ∧
      (tail = [] ∧ (order.units bytes).2 = false ∨ tail ≠ [] ∧ (order.units bytes).2 = true) ∧
      order.units tail = ([], (order.units bytes).2) := by
  fun_induction ByteOrder.units order bytes with
  | case1 => exact ⟨[], rfl, .inl ⟨rfl, rfl⟩, rfl⟩
  | case2 b => exact ⟨[b], rfl, .inr ⟨by simp, rfl⟩, rfl⟩
  | case3 a b rest us odd hrest ih =>
    obtain ⟨tail, hbytes, hcase, htail⟩ := ih
    rw [hrest] at hbytes hcase htail
    exact ⟨tail, by rw [List.flatMap_cons, bytes_unit, List.append_assoc, ← hbytes]; rfl, hcase,
      htail⟩

theorem unitsOf_ofNat {u : UInt16} (h : isSurrogate u = false) :
    unitsOf (Char.ofNat u.toNat) = [u] := by
  have hlt := u.toNat_lt
  have hvalid : u.toNat.isValidChar := by
    simp only [isSurrogate, Bool.and_eq_false_iff, decide_eq_false_iff_not, UInt16.not_le,
      UInt16.lt_iff_toNat_lt] at h
    simp only [Nat.isValidChar]
    rcases h with h | h
    . exact .inl h
    . exact .inr ⟨h, by omega⟩
  rw [unitsOf, toNat_ofNat_of_isValidChar hvalid, if_pos (by simpa using hlt)]
  simp

theorem unitsOf_pairOf {a b : UInt16} (ha : isSurrogate a = true) (ha' : isLowSurrogate a = false)
    (hb : isLowSurrogate b = true) : unitsOf (pairOf a b) = [a, b] := by
  simp only [isSurrogate, isLowSurrogate, Bool.and_eq_true, Bool.and_eq_false_iff,
    decide_eq_true_eq, decide_eq_false_iff_not, UInt16.le_iff_toNat_le] at ha ha' hb
  have ha₀ : 0xD800 ≤ a.toNat ∧ a.toNat < 0xDC00 := by
    have h := ha.2
    simp at ha ha' h
    omega
  have hb₀ : 0xDC00 ≤ b.toNat ∧ b.toNat < 0xE000 := by
    simp at hb
    omega
  have hnat : (pairOf a b).toNat = 0x10000 + (a.toNat - 0xD800) * 0x400 + (b.toNat - 0xDC00) := by
    rw [pairOf, toNat_ofNat_of_isValidChar]
    simp only [Nat.isValidChar]
    omega
  rw [unitsOf, hnat, if_neg (by omega),
    show 0xD800 + (0x10000 + (a.toNat - 0xD800) * 0x400 + (b.toNat - 0xDC00) - 0x10000) / 0x400 =
      a.toNat by omega,
    show 0xDC00 + (0x10000 + (a.toNat - 0xD800) * 0x400 + (b.toNat - 0xDC00) - 0x10000) % 0x400 =
      b.toNat by omega]
  simp

theorem ofFileUnits_unitsOf (c : Char) (rest : List UInt16) :
    ofFileUnits (unitsOf c ++ rest) = c :: ofFileUnits rest := by
  rcases unitsOf_cases c with ⟨u, hu, hsingle, rfl⟩ | ⟨a, b, hab, ha, ha', hb, rfl⟩
  . rw [hu]
    cases rest <;> simp [ofFileUnits, single, hsingle]
  . rw [hab]
    simp [ofFileUnits, ha, ha', hb]

theorem isPrefixFree_encodeChar (order : ByteOrder) : IsPrefixFree order.encodeChar where
  ne_nil c := by
    obtain ⟨u, us, hunits⟩ : ∃ u us, unitsOf c = u :: us := by
      rcases unitsOf_cases c with ⟨u, hu, -⟩ | ⟨a, b, hab, -⟩
      . exact ⟨u, [], hu⟩
      . exact ⟨a, [b], hab⟩
    obtain ⟨a, b, hbytes, -⟩ := unit_bytes order u
    rw [ByteOrder.encodeChar, hunits, List.flatMap_cons, hbytes]
    exact List.cons_ne_nil _ _
  eq_of_begins c d rest := by
    rintro ⟨more, hmore⟩
    have hunits := congrArg (fun bytes => ofFileUnits (order.units bytes).1) hmore
    simp only [ByteOrder.encodeChar, units_flatMap_append, ofFileUnits_unitsOf, List.cons.injEq]
      at hunits
    exact hunits.1

/-! The decoder that scripts are read with -/

theorem takeTails_suffix (n acc : Nat) (bytes : List UInt8) :
    (takeTails n acc bytes).2.2 <:+ bytes := by
  fun_induction takeTails n acc bytes with
  | case1 | case2 | case4 => exact List.suffix_refl _
  | case3 n acc b bytes _ ih => exact ih.trans (List.suffix_cons b bytes)

theorem readChar_suffix (b : UInt8) (bytes : List UInt8) : (readChar b bytes).2 <:+ bytes := by
  unfold readChar
  split
  . exact List.suffix_refl _
  . split
    . exact List.suffix_refl _
    . split
      . exact List.suffix_refl _
      . split
        . exact (takeTails_suffix ..).trans (List.suffix_cons ..)
        . exact List.suffix_refl _

theorem readAs_repair (bytes : List UInt8) : ReadAs String.utf8EncodeChar bytes (repair bytes) := by
  fun_induction repair bytes with
  | case1 => exact .nil
  | case2 b bytes c rest hread _ ih =>
    cases c with
    | some x =>
      rw [readChar_eq_some_iff.1 hread]
      exact .char ih
    | none =>
      have hsuffix : rest <:+ bytes := by simpa [hread] using readChar_suffix b bytes
      obtain ⟨bad, rfl⟩ := hsuffix
      change ReadAs _ ((b :: bad) ++ rest) _
      refine .ill (List.cons_ne_nil _ _) ?_ ih
      rintro x ⟨more, hmore⟩
      cases hread.symm.trans (readChar_eq_some_iff.2 hmore.symm)

/-- A surrogate that is no first half of a pair begins no character. -/
theorem not_begins_surrogate (order : ByteOrder) {a : UInt16} (us : List UInt16) {tail : List UInt8}
    (htail : (order.units tail).1 = []) (ha : isSurrogate a = true)
    (hpair : isLowSurrogate a = true ∨ ∀ b ∈ us.head?, isLowSurrogate b = false) (c : Char) :
    ¬order.encodeChar c <+: (a :: us).flatMap order.bytes ++ tail := by
  rintro ⟨more, hmore⟩
  have hunits := congrArg (fun bytes => (order.units bytes).1) hmore
  simp only [ByteOrder.encodeChar, units_flatMap_append, htail, List.append_nil] at hunits
  rcases unitsOf_cases c with ⟨u, hu, hsingle, -⟩ | ⟨h, l, hab, -, hhigh, hlow, -⟩
  . rw [hu, List.singleton_append, List.cons.injEq] at hunits
    rw [hunits.1, ha] at hsingle
    cases hsingle
  . rw [hab, List.cons_append, List.singleton_append, List.cons.injEq] at hunits
    obtain ⟨rfl, hus⟩ := hunits
    rcases hpair with hpair | hpair
    . rw [hpair] at hhigh
      cases hhigh
    . rw [hpair l (by rw [← hus]; rfl)] at hlow
      cases hlow

theorem readAs_single {a : UInt16} (us : List UInt16) {tail : List UInt8} {text : List Char}
    (htail : (order.units tail).1 = [])
    (hpair : isLowSurrogate a = true ∨
      ∀ b ∈ us.head?, isLowSurrogate b = false ∨ isSurrogate a = false)
    (h : ReadAs order.encodeChar (us.flatMap order.bytes ++ tail) text) :
    ReadAs order.encodeChar ((a :: us).flatMap order.bytes ++ tail) (single a :: text) := by
  unfold single
  cases ha : isSurrogate a with
  | true =>
    have hnone := not_begins_surrogate order us htail ha
      (hpair.imp_right fun h b hb => (h b hb).resolve_right (by rw [ha]; simp))
    rw [List.flatMap_cons, List.append_assoc] at hnone ⊢
    obtain ⟨x, y, hbytes, -⟩ := unit_bytes order a
    exact .ill (by rw [hbytes]; exact List.cons_ne_nil _ _) hnone h
  | false =>
    have hchar : order.bytes a = order.encodeChar (Char.ofNat a.toNat) := by
      rw [ByteOrder.encodeChar, unitsOf_ofNat ha, List.flatMap_singleton]
    rw [List.flatMap_cons, List.append_assoc, hchar]
    exact .char h

theorem readAs_ofFileUnits (us : List UInt16) {tail : List UInt8} {text : List Char}
    (htail : (order.units tail).1 = []) (h : ReadAs order.encodeChar tail text) :
    ReadAs order.encodeChar (us.flatMap order.bytes ++ tail) (ofFileUnits us ++ text) := by
  fun_induction ofFileUnits us with
  | case1 => exact h
  | case2 a => exact readAs_single [] htail (.inr (by simp)) h
  | case3 a b rest hpair ih =>
    rw [Bool.and_eq_true] at hpair
    cases ha : isLowSurrogate a with
    | true =>
      have hnone := not_begins_surrogate order (b :: rest) htail hpair.1 (.inl ha)
      rw [if_pos rfl]
      rw [List.flatMap_cons, List.flatMap_cons, ← List.append_assoc, List.append_assoc] at hnone ⊢
      obtain ⟨x, y, hbytes, -⟩ := unit_bytes order a
      exact .ill (by rw [hbytes]; exact List.cons_ne_nil _ _) hnone ih
    | false =>
      have hchar : order.bytes a ++ order.bytes b = order.encodeChar (pairOf a b) := by
        rw [ByteOrder.encodeChar, unitsOf_pairOf hpair.1 ha hpair.2]
        simp
      rw [if_neg Bool.false_ne_true, List.flatMap_cons, List.flatMap_cons, ← List.append_assoc,
        hchar, List.append_assoc]
      exact .char ih
  | case4 a b rest hpair ih =>
    refine readAs_single _ htail (.inr ?_) ih
    rintro b' ⟨⟩
    cases hb : isLowSurrogate b with
    | false => exact .inl rfl
    | true => exact .inr (by simpa [hb] using hpair)

theorem readAs_byteOrder_decode (order : ByteOrder) (bytes : List UInt8) :
    ReadAs order.encodeChar bytes (order.decode bytes) := by
  obtain ⟨tail, hbytes, hcase, htail⟩ := exists_units order bytes
  have hlast : ReadAs order.encodeChar tail (if (order.units bytes).2 then
    [replacement] else []) := by
    rcases hcase with ⟨rfl, hodd⟩ | ⟨hne, hodd⟩
    . rw [hodd]
      exact .nil
    . rw [hodd, if_pos rfl, ← List.append_nil tail]
      refine .ill hne ?_ .nil
      rintro c ⟨more, hmore⟩
      have hunits := congrArg (fun bytes => (order.units bytes).1) hmore
      simp only [ByteOrder.encodeChar, units_flatMap_append, List.append_nil, htail] at hunits
      rcases unitsOf_cases c with ⟨u, hu, -⟩ | ⟨a, b, hab, -⟩
      . simp [hu] at hunits
      . simp [hab] at hunits
  have hread := readAs_ofFileUnits (order.units bytes).1 (by rw [htail]) hlast
  rw [← hbytes] at hread
  exact hread

theorem decodeScript_of_no_mark {raw : List UInt8} (h : ¬ utf8Mark <+: raw)
    (horder : ∀ order : ByteOrder, ¬ order.mark <+: raw) :
    decodeScript raw = encode (repair raw) := by
  unfold decodeScript
  split
  . exact absurd ⟨_, rfl⟩ h
  . exact absurd ⟨_, rfl⟩ (horder .little)
  . exact absurd ⟨_, rfl⟩ (horder .big)
  . rfl

theorem documented_standard : Decoder.standard.Documented where
  finishes _ := rfl
  utf8 _ := rfl
  utf16 order rest := by
    refine ⟨order.decode rest, ?_, readAs_byteOrder_decode order rest⟩
    cases order <;> rfl
  bare raw hmark horder := ⟨repair raw, decodeScript_of_no_mark hmark horder, readAs_repair raw⟩

theorem readFile_standard (path : String) (raw : List UInt8) :
    Source.readFile .standard path raw = .ok (Source.ofFile path raw) := rfl

/-! Marks -/

theorem head?_of_mark {text : List Char} (h : utf8Mark <+: encode text) :
    text.head? = some '﻿' := by
  obtain ⟨rest, hrest⟩ := h
  rw [show utf8Mark = String.utf8EncodeChar '﻿' from rfl] at hrest
  rw [← repair_encode text, ← hrest, repair_utf8EncodeChar_append, List.head?_cons]

theorem lead_le_of_encode {b : UInt8} {bytes : List UInt8} {text : List Char}
    (h : b :: bytes = encode text) : b.toNat ≤ 0xF4 := by
  cases text with
  | nil => cases h
  | cons x text =>
    rw [encode_cons] at h
    have hspells := spells_utf8EncodeChar x
    generalize String.utf8EncodeChar x = l, x.toNat = v at h hspells
    cases hspells <;> cases h <;> omega

theorem not_mark_of_encode (order : ByteOrder) (text : List Char) :
    ¬ order.mark <+: encode text := by
  rintro ⟨rest, hrest⟩
  cases order <;> exact absurd (lead_le_of_encode hrest) (by decide)

namespace Decoder.Documented

variable {d : Decoder} (h : d.Documented) {raw : List UInt8}

include h

theorem decodeWith_eq : decodeWith d raw = .ok (d raw).text := by
  rw [decodeWith, h.finishes]

theorem exists_decoded (hmark : ¬utf8Mark <+: raw) :
    ∃ decoded, decodeWith d raw = .ok (encode decoded) := by
  rw [h.decodeWith_eq]
  by_cases horder : ∃ order : ByteOrder, order.mark <+: raw
  . obtain ⟨order, rest, rfl⟩ := horder
    obtain ⟨text, htext, -⟩ := h.utf16 order rest
    exact ⟨text, by rw [htext]⟩
  . obtain ⟨text, htext, -⟩ := h.bare raw hmark fun order hp => horder ⟨order, hp⟩
    exact ⟨text, by rw [htext]⟩

end Decoder.Documented

/--
Each encoding of a text, with its mark or without one where no mark could be meant, is decoded to
the same bytes. Only behind a UTF-8 mark can bytes be left that are ill-formed.
-/
theorem decodeWith_encodings {d : Decoder} (h : d.Documented) (text : List Char)
    (raw : List UInt8) :
    decodeWith d (utf8Mark ++ encode text) = .ok (encode text) ∧
    (∀ order : ByteOrder, decodeWith d (order.mark ++ order.encode text) = .ok (encode text)) ∧
    (text.head? ≠ some '﻿' → decodeWith d (encode text) = .ok (encode text)) ∧
    (¬ utf8Mark <+: raw → ∃ decoded, decodeWith d raw = .ok (encode decoded)) := by
  refine ⟨?_, fun order => ?_, fun hhead => ?_, h.exists_decoded⟩
  . rw [h.decodeWith_eq, h.utf8]
  . obtain ⟨decoded, hdecoded, hread⟩ := h.utf16 order (order.encode text)
    rw [h.decodeWith_eq, hdecoded, hread.eq_of_encoded (isPrefixFree_encodeChar order) rfl]
  . obtain ⟨decoded, hdecoded, hread⟩ := h.bare (encode text)
      (fun hmark => hhead (head?_of_mark hmark))
      fun order => not_mark_of_encode order text
    rw [h.decodeWith_eq, hdecoded, hread.eq_of_encoded isPrefixFree_utf8 rfl]

theorem decodeWith_encodings_clef : Decoder.standard.Documented ∧
    (decodeWith .standard [0xFE, 0xFF, 0xFE, 0xFF, 0xD8, 0x34, 0xDD, 0x1E] =
      .ok (encode ['﻿', '𝄞']) ∧
      ['𝄞'].head? ≠ some '﻿' ∧ decodeWith .standard (encode ['𝄞']) = .ok (encode ['𝄞'])) ∧
    ¬ utf8Mark <+: [0xFF, 0xFE, 0x34] ∧
      ∃ decoded, decodeWith .standard [0xFF, 0xFE, 0x34] = .ok (encode decoded) :=
  have hhead : ['𝄞'].head? ≠ some '﻿' := by decide
  have hmark : ¬ utf8Mark <+: [0xFF, 0xFE, 0x34] := by decide
  ⟨documented_standard, ⟨(decodeWith_encodings documented_standard ['﻿', '𝄞'] []).2.1 .big, hhead,
    (decodeWith_encodings documented_standard ['𝄞'] []).2.2.1 hhead⟩, hmark,
    (decodeWith_encodings documented_standard [] _).2.2.2 hmark⟩

end ScriptC.Text
