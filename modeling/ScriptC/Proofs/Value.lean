import Mathlib.Logic.ExistsUnique
import Mathlib.Tactic.Common
import ScriptC.Engine.Bits

/-!
What the bits of a value tell. Each pattern of 64 bits is a number or has one of the other tags. A
number keeps its bits in a value, and the tests that C makes on bits never hold together.
-/

namespace ScriptC

namespace Value

inductive Tag where
  | special
  | deleted
  | string
  | object
  | bigint
  | symbol
  | flagged
  deriving DecidableEq

def Tag.bits : Tag → UInt16
  | .special => tagSpecial
  | .deleted => tagDeleted
  | .string => tagString
  | .object => tagObject
  | .bigint => tagBigInt
  | .symbol => tagSymbol
  | .flagged => tagFlagged

def Has (v : Value) : Option Tag → Prop
  | none => v.isNumber = Bool.true
  | some t => v.tag = t.bits

theorem toNat_tag (v : Value) : v.tag.toNat = v.bits.toNat >>> 48 := by
  have hlt : v.bits.toNat < 2 ^ 64 := v.bits.toNat_lt
  simp only [tag, UInt64.toNat_toUInt16, UInt64.toNat_shiftRight, UInt64.reduceToNat,
    Nat.reduceMod]
  omega

theorem isNumber_iff {v : Value} : v.isNumber = Bool.true ↔ v.bits.toNat >>> 48 ≤ 0xFFF8 := by
  rw [isNumber, decide_eq_true_iff, UInt16.le_iff_toNat_le, toNat_tag]
  rfl

theorem toNat_tagged (tag : UInt16) (payload : UInt64) :
    (tagged tag (payload &&& payloadMask)).bits.toNat =
      0x1000000000000 * tag.toNat + payload.toNat % 0x1000000000000 := by
  have htag : tag.toNat < 2 ^ 16 := tag.toNat_lt
  have hmask : (payload &&& payloadMask).toNat = payload.toNat % 0x1000000000000 :=
    Nat.and_two_pow_sub_one_eq_mod payload.toNat 48
  have hshift : (tag.toUInt64 <<< 48).toNat = 0x1000000000000 * tag.toNat := by
    simp only [UInt64.toNat_shiftLeft, UInt16.toNat_toUInt64, UInt64.reduceToNat, Nat.reduceMod,
      Nat.shiftLeft_eq]
    omega
  rw [tagged, UInt64.toNat_or, hshift, hmask]
  exact (Nat.two_pow_add_eq_or_of_lt (i := 48) (Nat.mod_lt _ (by decide)) _).symm

theorem tag_tagged (tag : UInt16) (payload : UInt64) :
    (tagged tag (payload &&& payloadMask)).tag = tag := by
  rw [← UInt16.toNat_inj, toNat_tag, toNat_tagged]
  omega

theorem Tag.bits_inj {t t' : Tag} : t.bits = t'.bits ↔ t = t' := by
  cases t <;> cases t' <;> decide

theorem Tag.not_isNumber {v : Value} {t : Tag} (h : v.tag = t.bits) : v.isNumber = Bool.false := by
  rw [isNumber, h]
  cases t <;> decide

theorem exists_has (v : Value) : ∃ k, v.Has k := by
  cases hv : v.isNumber with
  | true => exact ⟨none, hv⟩
  | false =>
    have hlt : v.tag.toNat < 2 ^ 16 := v.tag.toNat_lt
    rw [← Bool.not_eq_true, isNumber_iff, ← toNat_tag] at hv
    have hbits : ∃ t : Tag, v.tag.toNat = t.bits.toNat := by
      have hcases : v.tag.toNat = 0xFFF9 ∨ v.tag.toNat = 0xFFFA ∨ v.tag.toNat = 0xFFFB ∨
          v.tag.toNat = 0xFFFC ∨ v.tag.toNat = 0xFFFD ∨ v.tag.toNat = 0xFFFE ∨
          v.tag.toNat = 0xFFFF := by omega
      rcases hcases with h | h | h | h | h | h | h
      . exact ⟨.special, h⟩
      . exact ⟨.deleted, h⟩
      . exact ⟨.string, h⟩
      . exact ⟨.object, h⟩
      . exact ⟨.bigint, h⟩
      . exact ⟨.symbol, h⟩
      . exact ⟨.flagged, h⟩
    obtain ⟨t, ht⟩ := hbits
    exact ⟨some t, UInt16.toNat_inj.1 ht⟩

theorem Has.unique {v : Value} {k k' : Option Tag} (h : v.Has k) (h' : v.Has k') : k = k' := by
  cases k with
  | none =>
    cases k' with
    | none => rfl
    | some t' => exact absurd ((Tag.not_isNumber h').symm.trans h) Bool.false_ne_true
  | some t =>
    cases k' with
    | none => exact absurd ((Tag.not_isNumber h).symm.trans h') Bool.false_ne_true
    | some t' =>
      have hbits : t.bits = t'.bits := Eq.trans (Eq.symm h) h'
      rw [Tag.bits_inj.1 hbits]

theorem Has.iff {v : Value} {k k' : Option Tag} (h : v.Has k) : v.Has k' ↔ k' = k :=
  ⟨fun h' => h'.unique h, fun heq => heq ▸ h⟩

-- What is no "no number" has at most the exponent of an infinity, so its tag stays below.
theorem isNumber_number (x : Double) : (number x).isNumber = Bool.true := by
  rw [isNumber_iff, number]
  have hlt : x.bits.toNat < 2 ^ 64 := x.bits.toNat_lt
  split
  . decide
  . next hnan =>
    simp only [Double.isNaN, Double.field, Double.fraction, Double.maxField, Double.leadingBit,
      Bool.and_eq_true, beq_iff_eq, bne_iff_ne, not_and, not_not] at hnan
    dsimp only
    omega

theorem double_number (x : Double) : (number x).double = if x.isNaN then Double.nan else x := by
  unfold number double
  split <;> rfl

theorem object_eq (id : UInt32) : object id = tagged tagObject (id.toUInt64 &&& payloadMask) := by
  have hmask : id.toUInt64 &&& payloadMask = id.toUInt64 := by
    have hlt : id.toNat < 2 ^ 32 := id.toNat_lt
    rw [← UInt64.toNat_inj]
    refine Eq.trans (Nat.and_two_pow_sub_one_eq_mod id.toUInt64.toNat 48) ?_
    rw [UInt32.toNat_toUInt64]
    omega
  rw [object, hmask]

theorem object_inj {id id' : UInt32} (h : object id = object id') : id = id' := by
  have hbits : (object id).bits.toNat = (object id').bits.toNat := by rw [h]
  have hlt : id.toNat < 2 ^ 32 := id.toNat_lt
  have hlt' : id'.toNat < 2 ^ 32 := id'.toNat_lt
  rw [object_eq, object_eq, toNat_tagged, toNat_tagged, UInt32.toNat_toUInt64,
    UInt32.toNat_toUInt64] at hbits
  rw [← UInt32.toNat_inj]
  omega

end Value

namespace Engine

structure Reading where
  before : String
  after : String
  means : Nat → Bool

def BitTest.reading : BitTest → Reading
  | .number => ⟨"((", ").raw >> 48) <= 0xFFF8", fun raw => decide (raw >>> 48 ≤ 0xFFF8)⟩
  | .object => ⟨"((", ").raw >> 48) == 0xFFFC", fun raw => raw >>> 48 == 0xFFFC⟩
  | .flagged => ⟨"((", ").raw >> 48) == 0xFFFF", fun raw => raw >>> 48 == 0xFFFF⟩
  | .deleted => ⟨"(", ").raw == 0xFFFA000000000000ULL", fun raw => raw == 0xFFFA000000000000⟩

theorem BitTest.text_eq (t : BitTest) (operand : String) :
    t.text operand = t.reading.before ++ operand ++ t.reading.after := by
  cases t with
  | number =>
    have hafter : ").raw >> 48) <= 0x" ++ Text.upperHex 0 Value.maxNumberTag.toNat =
      ").raw >> 48) <= 0xFFF8" := by decide
    rw [text, isNumberText, String.append_assoc, hafter, reading]
  | object =>
    have hafter : ").raw >> 48) == 0x" ++ signedHex Value.tagObject.toNat =
      ").raw >> 48) == 0xFFFC" := by decide
    rw [text, isObjectText, hasTagText, String.append_assoc, hafter, reading]
  | flagged =>
    have hafter : ").raw >> 48) == 0x" ++ signedHex Value.tagFlagged.toNat =
      ").raw >> 48) == 0xFFFF" := by decide
    rw [text, isFlaggedText, hasTagText, String.append_assoc, hafter, reading]
  | deleted =>
    have hafter : ").raw == " ++ bitsText Value.deleted.bits =
      ").raw == 0xFFFA000000000000ULL" := by decide
    rw [text, isDeletedText, String.append_assoc, hafter, reading]

theorem BitTest.holds_eq (t : BitTest) (v : Value) : t.holds v = t.reading.means v.bits.toNat := by
  have htag (tag : UInt16) : (v.tag == tag) = (v.bits.toNat >>> 48 == tag.toNat) := by
    rw [Bool.eq_iff_iff, beq_iff_eq, beq_iff_eq, ← Value.toNat_tag, UInt16.toNat_inj]
  cases t with
  | number =>
    rw [Bool.eq_iff_iff, holds, Value.isNumber_iff]
    exact decide_eq_true_iff.symm
  | object => exact htag _
  | flagged => exact htag _
  | deleted =>
    rw [Bool.eq_iff_iff, holds, beq_iff_eq, reading, beq_iff_eq, ← UInt64.toNat_inj.trans
      (Value.mk.injEq v.bits Value.deleted.bits).to_iff.symm]
    exact .rfl

def BitTest.tells : BitTest → Option Value.Tag
  | .number => none
  | .object => some .object
  | .flagged => some .flagged
  | .deleted => some .deleted

theorem BitTest.tells_inj {t t' : BitTest} : t.tells = t'.tells ↔ t = t' := by
  cases t <;> cases t' <;> decide

theorem BitTest.has_of_holds {t : BitTest} {v : Value} (h : t.holds v) : v.Has t.tells := by
  cases t with
  | number => exact h
  | object => exact beq_iff_eq.1 h
  | flagged => exact beq_iff_eq.1 h
  | deleted =>
    rw [beq_iff_eq.1 h]
    rfl

theorem BitTest.eq_of_holds {t t' : BitTest} {v : Value} (h : t.holds v) (h' : t'.holds v) :
    t = t' :=
  tells_inj.1 ((has_of_holds h).unique (has_of_holds h'))

end Engine

namespace Value

/--
Values stand for what was put into them. The double with any bits is a number and nothing else, and
only a "no number" is not given back as it was; what has a tag is no number; objects are told apart
by their ids; and the tests in C say what they look like and hold one at a time.
-/
theorem boxing_exact :
    (∀ bits : UInt64, (∀ k, (number ⟨bits⟩).Has k ↔ k = none) ∧
      (number ⟨bits⟩).double = if Double.isNaN ⟨bits⟩ then Double.nan else ⟨bits⟩) ∧
    (∀ v : Value, ∃! k, v.Has k) ∧
    (∀ (t : Tag) (payload : UInt64),
      (tagged t.bits (payload &&& payloadMask)).isNumber = Bool.false ∧
      ∀ k, (tagged t.bits (payload &&& payloadMask)).Has k ↔ k = some t) ∧
    (undefined.Has (some .special) ∧ null.Has (some .special) ∧ Value.false.Has (some .special) ∧
      Value.true.Has (some .special) ∧ deleted.Has (some .deleted)) ∧
    (Function.Injective object ∧ ∀ id, (object id).Has (some .object)) ∧
    (∀ (t : Engine.BitTest) (operand : String) (v : Value),
      t.text operand = t.reading.before ++ operand ++ t.reading.after ∧
      t.holds v = t.reading.means v.bits.toNat) ∧
    ∀ (t t' : Engine.BitTest) (v : Value), t.holds v ∧ t'.holds v ↔ t.holds v ∧ t = t' := by
  refine ⟨fun bits => ⟨fun k => ?_, double_number _⟩, fun v => ?_, fun t payload => ?_,
    ⟨rfl, rfl, rfl, rfl, rfl⟩, ⟨fun _ _ => object_inj, fun id => ?_⟩,
    fun t operand v => ⟨t.text_eq operand, t.holds_eq v⟩, fun t t' v => ?_⟩
  . exact Has.iff (k := none) (isNumber_number _)
  . obtain ⟨k, hk⟩ := v.exists_has
    exact ⟨k, hk, fun k' hk' => hk'.unique hk⟩
  . have htag := tag_tagged t.bits payload
    exact ⟨Tag.not_isNumber htag, fun k => Has.iff (k := some t) htag⟩
  . rw [object_eq]
    exact tag_tagged tagObject _
  . exact ⟨fun h => ⟨h.1, Engine.BitTest.eq_of_holds h.1 h.2⟩, fun h => ⟨h.1, h.2 ▸ h.1⟩⟩

end Value
end ScriptC
