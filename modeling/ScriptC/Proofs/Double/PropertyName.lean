import ScriptC.Proofs.Double.Shortest
import ScriptC.Double.Text
import ScriptC.PropertyName

/-!
The property name of a number denotes the decimal that was chosen for it, and it is an array index
exactly if the number is one.
-/

namespace ScriptC.Double

structure Numeral where
  negative : Bool
  whole : List Char
  fraction : List Char
  exponent : Option Int

def Numeral.text (n : Numeral) : List Char :=
  (if n.negative then ['-'] else []) ++ n.whole ++
    (if n.fraction = [] then [] else '.' :: n.fraction) ++
    n.exponent.elim [] fun e => 'e' :: (if e < 0 then '-' else '+') :: Nat.toDigits 10 e.natAbs

def Numeral.value (n : Numeral) : ℚ :=
  (if n.negative then -1 else 1) * number (n.whole ++ n.fraction) *
    10 ^ (n.exponent.getD 0 - n.fraction.length)

inductive Decimal.Layout (negative : Bool) (d : Decimal) : Numeral → Prop where
  | whole (hle : d.digits.length ≤ d.point) (hmax : d.point ≤ 21) : Layout negative d
    ⟨negative, d.digits ++ List.replicate (d.point.toNat - d.digits.length) '0', [], none⟩
  | inside (hpos : 0 < d.point) (hlt : d.point < d.digits.length) (hmax : d.point ≤ 21) :
    Layout negative d ⟨negative, d.digits.take d.point.toNat, d.digits.drop d.point.toNat, none⟩
  | before (hmin : -6 < d.point) (hle : d.point ≤ 0) : Layout negative d
    ⟨negative, ['0'], List.replicate (-d.point).toNat '0' ++ d.digits, none⟩
  | scientific (hfar : d.point ≤ -6 ∨ 21 < d.point) : Layout negative d
    ⟨negative, d.digits.take 1, d.digits.drop 1, some (d.point - 1)⟩

variable {x : Double} {d : Decimal} {negative : Bool} {n : Numeral}

theorem Decimal.Layout.value_eq (h : d.Layout negative n) (hd : d.digits ≠ []) :
    n.value = (if negative then -1 else 1) * d.value := by
  have hlength := List.length_pos_iff.2 hd
  rw [Numeral.value, Decimal.value, mul_assoc]
  cases h with
  | whole hle hmax =>
    congr 1
    rw [List.append_nil, number_append, number_replicate, List.length_replicate, Nat.add_zero]
    push_cast
    rw [mul_assoc, ← zpow_natCast, ← zpow_add₀ (by norm_num)]
    congr 2
    simp only [Option.getD_none, List.length_nil]
    omega
  | inside hpos hlt hmax =>
    rw [List.take_append_drop, List.length_drop]
    congr 3
    simp only [Option.getD_none]
    omega
  | before hmin hle =>
    rw [← List.append_assoc, number_append, show ['0'] = List.replicate 1 '0' from rfl,
      List.replicate_append_replicate, number_replicate, Nat.zero_mul, Nat.zero_add]
    congr 3
    simp only [Option.getD_none, List.length_append, List.length_replicate]
    omega
  | scientific hfar =>
    rw [List.take_append_drop, List.length_drop]
    congr 3
    simp only [Option.getD_some]
    omega

theorem exists_positional (negative : Bool) (hd : d.digits ≠ []) (hmin : -6 < d.point)
    (hmax : d.point ≤ 21) : ∃ n, d.Layout negative n ∧
      n.text = (if negative then ['-'] else []) ++ d.positional := by
  rw [Decimal.positional]
  by_cases hle : d.digits.length ≤ d.point
  . refine ⟨_, .whole hle hmax, ?_⟩
    simp only [Numeral.text, if_pos hle, if_true, Option.elim_none, List.append_nil]
    rfl
  . by_cases hpos : 0 < d.point
    . have hrest : d.digits.drop d.point.toNat ≠ [] := by
        rw [ne_eq, List.drop_eq_nil_iff]
        omega
      refine ⟨_, .inside hpos (by omega) hmax, ?_⟩
      simp only [Numeral.text, if_neg hle, if_pos hpos, if_neg hrest, Option.elim_none,
        List.append_nil,
        List.append_assoc]
    . refine ⟨_, .before hmin (by omega), ?_⟩
      simp only [Numeral.text, if_neg hle, if_neg hpos, List.append_eq_nil_iff, hd,
        and_false, if_false,
        Option.elim_none, List.append_nil, List.append_assoc]
      rfl

theorem exists_scientific (negative : Bool) (hfar : d.point ≤ -6 ∨ 21 < d.point) :
    ∃ n, d.Layout negative n ∧ n.text = (if negative then ['-'] else []) ++ d.scientific 1 := by
  refine ⟨_, .scientific hfar, ?_⟩
  have hwidth : 1 - (Nat.toDigits 10 (d.point - 1).natAbs).length = 0 := by
    have := Nat.length_toDigits_pos (b := 10) (n := (d.point - 1).natAbs)
    omega
  unfold Decimal.scientific
  dsimp only
  rw [hwidth]
  simp only [Numeral.text, Option.elim_some, List.isEmpty_iff, List.append_assoc]
  rfl

theorem mantissa_pos (hx : x.isZero = false) : 0 < x.mantissa := by
  unfold isZero at hx
  unfold mantissa leadingBit
  split <;> simp_all
  omega

theorem exists_propertyName (h : x.IsFinite) (hx : x.isZero = false) :
    ∃ n, (shortest x).Layout x.isNegative n ∧ x.propertyName.toList = n.text := by
  have hd := (isShortest_shortest h (mantissa_pos hx)).significant.ne_nil
  have hfield : (x.field == maxField) = false := beq_false_of_ne (Nat.ne_of_lt h)
  have hname (text : List Char) (htext : text = if -6 < (shortest x).point &&
    (shortest x).point ≤ 21
      then (shortest x).positional else (shortest x).scientific 1) :
      x.propertyName.toList = (if x.isNegative then ['-'] else []) ++ text := by
    simp only [propertyName, isNaN, isInfinite, hfield, hx, Bool.false_and,
      Bool.false_eq_true, if_false,
      ← htext]
    cases x.isNegative <;> simp
  by_cases hplain : -6 < (shortest x).point ∧ (shortest x).point ≤ 21
  . rw [hname _ (if_pos (by simpa using hplain)).symm]
    simpa only [eq_comm] using exists_positional x.isNegative hd hplain.1 hplain.2
  . rw [hname _ (if_neg (by simpa using hplain)).symm]
    simpa only [eq_comm] using exists_scientific x.isNegative (by omega)

theorem toDigits_number {l : List Char} (hl : IsNumeral l) (hne : l ≠ [])
    (hzero : l.head? = some '0' → l.length ≤ 1) : Nat.toDigits 10 (number l) = l := by
  cases l with
  | nil => exact absurd rfl hne
  | cons c l =>
    by_cases hc : c = '0'
    . rw [hc] at hzero ⊢
      rw [List.length_eq_zero_iff.1 (Nat.le_zero.1 (Nat.le_of_succ_le_succ (hzero rfl)))]
      rfl
    . exact IsLeading.toDigits_number ⟨hl, c, rfl, hc⟩

theorem head?_toDigits_zero {v : Nat} (h : (Nat.toDigits 10 v).head? = some '0') : v = 0 := by
  by_contra hv
  obtain ⟨c, hc, hne⟩ := (isLeading_toDigits (Nat.pos_of_ne_zero hv)).head
  rw [h] at hc
  exact hne (Option.some.inj hc).symm

theorem arrayIndex?_eq_some_iff {name : String} {v : Nat} :
    arrayIndex? name = some v ↔ name = toString v ∧ v < 2 ^ 32 - 1 := by
  have hnumber : (name.toList.foldl (fun n c => 10 * n + (c.toNat - '0'.toNat)) 0) =
    number name.toList := rfl
  have htext : name = toString v ↔ name.toList = Nat.toDigits 10 v := by
    rw [← String.toList_inj, Nat.toString_eq_repr, Nat.toList_repr]
  rw [arrayIndex?, hnumber, htext, show indexLimit = 2 ^ 32 - 1 from rfl]
  constructor
  . intro h
    split at h
    . cases h
    . next hform =>
      simp only [Bool.or_eq_true, Bool.and_eq_true, decide_eq_true_eq, not_or, List.isEmpty_iff,
        Bool.not_eq_true', beq_iff_eq, Bool.not_eq_false, List.all_eq_true, not_and'] at hform
      obtain ⟨⟨⟨hne, -⟩, hzero⟩, hdigits⟩ := hform
      obtain ⟨hlimit, hv⟩ := Option.ite_none_right_eq_some.1 h
      cases hv
      exact ⟨(toDigits_number hdigits hne fun h => not_lt.1 (hzero h)).symm, hlimit⟩
  . rintro ⟨hname, hlimit⟩
    have hlength : (Nat.toDigits 10 v).length ≤ 10 := by
      rw [Nat.length_toDigits_le_iff (by decide) (by decide)]
      omega
    have hzero (h : 1 < (Nat.toDigits 10 v).length) : (Nat.toDigits 10 v).head? ≠ some '0' := by
      intro hhead
      rw [head?_toDigits_zero hhead] at h
      exact absurd h (by decide)
    rw [hname, number_toDigits, if_neg, if_pos hlimit]
    simp only [Bool.or_eq_true, Bool.and_eq_true, decide_eq_true_eq, not_or, List.isEmpty_iff,
      Bool.not_eq_true', beq_iff_eq, Bool.not_eq_false, List.all_eq_true, not_and]
    exact ⟨⟨⟨Nat.toDigits_ne_nil, by omega⟩, hzero⟩, isNumeral_toDigits v⟩

theorem Numeral.text_whole (l : List Char) : Numeral.text ⟨false, l, [], none⟩ = l := by
  simp [Numeral.text]

theorem Numeral.value_of_isNumeral (h : IsNumeral n.text) : n.value = number n.text := by
  obtain ⟨negative, whole, fraction, exponent⟩ := n
  simp only [Numeral.text, isNumeral_append] at h
  obtain ⟨⟨⟨hsign, -⟩, hpoint⟩, hexponent⟩ := h
  cases negative with
  | true => exact absurd (hsign '-' (by simp)) (by decide)
  | false =>
    by_cases hfraction : fraction = []
    . cases exponent with
      | some e => exact absurd (hexponent 'e' (by simp)) (by decide)
      | none => simp [Numeral.value, Numeral.text, hfraction]
    . exact absurd (hpoint '.' (by simp [hfraction])) (by decide)

variable {v : Nat}

theorem Rounds.near {u : ℚ} (h : x.Rounds u) : |u - x.size| ≤ 2 ^ x.exponent / 2 := by
  have hpos : (0 : ℚ) < 2 ^ x.exponent := by positivity
  obtain ⟨hlower, hupper⟩ := h.le
  unfold lower at hlower
  unfold upper at hupper
  unfold size
  rw [abs_le]
  split at hlower <;> constructor <;> linarith

theorem exponent_le_of_size_lt (h : x.size < 2 ^ 33) : x.exponent ≤ -20 := by
  by_contra! hexponent
  have hmantissa : leadingBit ≤ x.mantissa := by
    unfold exponent at hexponent
    unfold mantissa
    split_ifs at hexponent ⊢
    . omega
    . omega
  have hle : (2 : ℚ) ^ (-19 : Int) ≤ 2 ^ x.exponent := zpow_le_zpow_right₀ (by norm_num) (by omega)
  have : (2 : ℚ) ^ 33 ≤ x.size := calc
    (2 : ℚ) ^ 33 = (leadingBit : ℚ) * 2 ^ (-19 : Int) := by norm_num [leadingBit]
    _ ≤ x.mantissa * 2 ^ x.exponent := by gcongr
  exact absurd h (not_lt.2 this)

theorem eq_of_abs_sub_lt_one {a b : Nat} (h : |(a : ℚ) - b| < 1) : a = b := by
  have : |(a : Int) - b| < 1 := by exact_mod_cast h
  rw [Int.abs_lt_one_iff] at this
  omega

theorem size_eq_of_rounds (hx : 0 < x.mantissa) (hv : v < 2 ^ 32) (h : x.Rounds v) :
    x.size = v := by
  have hpos : (0 : ℚ) < 2 ^ x.exponent := by positivity
  have hnear := h.near
  have hsize : x.size < 2 ^ 33 := by
    have hone : (1 : ℚ) * 2 ^ x.exponent ≤ x.size := by
      unfold size
      gcongr
      exact_mod_cast hx
    have : (v : ℚ) < 2 ^ 32 := by exact_mod_cast hv
    linarith [(abs_le.1 hnear).1]
  -- in units of the last place the number is whole, and so is any whole number
  obtain ⟨j, hj⟩ := Int.eq_ofNat_of_zero_le
    (show 0 ≤ -x.exponent by linarith [exponent_le_of_size_lt hsize])
  have hunit : (2 : ℚ) ^ x.exponent * 2 ^ j = 1 := by
    rw [← zpow_natCast, ← zpow_add₀ (by norm_num), ← hj, add_neg_cancel, zpow_zero]
  have hwhole : v * 2 ^ j = x.mantissa := by
    refine eq_of_abs_sub_lt_one ?_
    push_cast
    calc |(v : ℚ) * 2 ^ j - x.mantissa|
      _ = |((v : ℚ) - x.size) * 2 ^ j| := by rw [sub_mul, size, mul_assoc, hunit, mul_one]
      _ = |(v : ℚ) - x.size| * 2 ^ j := by rw [abs_mul,
        abs_of_pos (show (0 : ℚ) < 2 ^ j by positivity)]
      _ ≤ 2 ^ x.exponent / 2 * 2 ^ j := by gcongr
      _ < 1 := by linarith
  rw [size, ← hwhole]
  push_cast
  rw [mul_assoc, mul_comm ((2 : ℚ) ^ j), hunit, mul_one]

theorem value_lt (hd : IsNumeral d.digits) : d.value < 10 ^ d.point := by
  rw [show d.point = d.digits.length + (d.point - d.digits.length) by ring, zpow_add₀ (by norm_num),
    Decimal.value]
  gcongr
  exact_mod_cast number_lt hd

theorem value_eq_of_size (hd : x.IsShortest d) (hv : v < 2 ^ 32) (hpos : 0 < v) (h : x.size = v) :
    d.value = v := by
  have hnear := hd.rounds.near
  rw [h, abs_le] at hnear
  have hclose : (2 : ℚ) ^ x.exponent ≤ 2 ^ (-20 : Int) := by
    refine zpow_le_zpow_right₀ (by norm_num) (exponent_le_of_size_lt ?_)
    rw [h]
    exact_mod_cast hv.trans (by norm_num)
  have hone : (1 : ℚ) ≤ v := by exact_mod_cast hpos
  have hleast := hd.least v 0 (by simpa [h] using x.rounds_size)
  have hpow := (isLeading_toDigits hpos).pow_le
  rw [number_toDigits] at hpow
  have hpoint : ((Nat.toDigits 10 v).length : Int) - 2 < d.point := by
    refine (zpow_lt_zpow_iff_right₀ (a := (10 : ℚ)) (by norm_num)).1 ?_
    have hlow : (10 : ℚ) ^ ((Nat.toDigits 10 v).length - 2 : Int) * 10 ≤ v := by
      rw [← zpow_add_one₀ (by norm_num), show ((Nat.toDigits 10 v).length - 2 + 1 : Int) =
        ((Nat.toDigits 10 v).length - 1 : Nat) by
          have := Nat.length_toDigits_pos (b := 10) (n := v)
          omega, zpow_natCast]
      exact_mod_cast hpow
    have := value_lt hd.significant.isNumeral
    norm_num at hclose
    linarith
  obtain ⟨j, hj⟩ := Int.eq_ofNat_of_zero_le (show 0 ≤ d.point - d.digits.length + 1 by omega)
  have hten : ((number d.digits * 10 ^ j : Nat) : ℚ) = 10 * d.value := by
    rw [Decimal.value, mul_left_comm, ← zpow_one_add₀ (by norm_num), add_comm 1, hj]
    push_cast
    rfl
  have hwhole : number d.digits * 10 ^ j = 10 * v := by
    refine eq_of_abs_sub_lt_one ?_
    rw [hten, abs_lt]
    norm_num at hclose ⊢
    constructor <;> linarith
  rw [hwhole] at hten
  push_cast at hten
  linarith

theorem pow_le_value (hd : IsLeading d.digits) : 10 ^ (d.point - 1) ≤ d.value := by
  have hlength := List.length_pos_iff.2 hd.ne_nil
  rw [show d.point - 1 = (d.digits.length - 1 : Nat) + (d.point - d.digits.length) by omega,
    zpow_add₀ (by norm_num), zpow_natCast, Decimal.value]
  gcongr
  exact_mod_cast hd.pow_le

theorem length_le_point (hd : IsSignificant d.digits) (h : d.value = v) :
    d.digits.length ≤ d.point := by
  by_contra! hlt
  obtain ⟨j, hj⟩ := Int.eq_ofNat_of_zero_le (show 0 ≤ d.digits.length - d.point by omega)
  have hnumber : (number d.digits : ℚ) = v * 10 ^ j := by
    rw [← h, Decimal.value, mul_assoc, ← zpow_natCast, ← hj, ← zpow_add₀ (by norm_num),
      sub_add_sub_cancel, sub_self, zpow_zero, mul_one]
  refine hd.not_dvd ?_
  rw [show number d.digits = v * 10 ^ j by exact_mod_cast hnumber]
  exact (dvd_pow_self 10 (by omega)).mul_left v

theorem layout_text_of_value (hd : IsSignificant d.digits) (hv : v < 2 ^ 32) (h : d.value = v)
    (hn : d.Layout false n) : n.text = Nat.toDigits 10 v := by
  have hle := length_le_point hd h
  have hmax : d.point - 1 < 21 := by
    refine (zpow_lt_zpow_iff_right₀ (a := (10 : ℚ)) (by norm_num)).1 ?_
    refine (pow_le_value hd.toIsLeading).trans_lt ?_
    rw [h]
    exact_mod_cast hv.trans (by norm_num)
  have hpos := List.length_pos_iff.2 hd.ne_nil
  have hvalue := hn.value_eq hd.ne_nil
  cases hn with
  | inside _ hlt _ => omega
  | before _ hzero => omega
  | scientific hfar => omega
  | whole _ _ =>
    have hdigits : IsLeading (d.digits ++ List.replicate
      (d.point.toNat - d.digits.length) '0') := by
      obtain ⟨c, hc, hne⟩ := hd.head
      exact ⟨isNumeral_append.2 ⟨hd.isNumeral, isNumeral_replicate _⟩, c,
        (List.head?_append_of_ne_nil _ hd.ne_nil).trans hc, hne⟩
    rw [Numeral.value_of_isNumeral (by rw [Numeral.text_whole]; exact hdigits.isNumeral),
      Numeral.text_whole, h] at hvalue
    rw [Numeral.text_whole, ← hdigits.toDigits_number]
    congr 1
    simpa using hvalue

theorem not_isNumeral_propertyName (h : ¬ x.IsFinite) : ¬ IsNumeral x.propertyName.toList := by
  have hfield : x.field = maxField := by
    have : x.field < 2048 := Nat.mod_lt _ (by decide)
    unfold IsFinite maxField at *
    omega
  have hzero : x.isZero = false := by simp [isZero, hfield, maxField]
  intro hname
  unfold propertyName at hname
  split at hname
  . exact absurd (hname 'N' (by decide)) (by decide)
  . next hnan =>
    have hinfinite : x.isInfinite = true := by
      simpa [isNaN, isInfinite, hfield] using hnan
    refine absurd (hname 'I' ?_) (by decide)
    rw [hzero, hinfinite]
    cases x.isNegative <;> simp

theorem size_eq_zero (h : x.isZero = true) : x.size = 0 := by
  simp only [isZero, Bool.and_eq_true, beq_iff_eq] at h
  simp [size, mantissa, h]

theorem arrayIndex?_propertyName (x : Double) (v : Nat) : arrayIndex? x.propertyName = some v ↔
    x.IsFinite ∧ x.value = v ∧ v < 2 ^ 32 - 1 := by
  rw [arrayIndex?_eq_some_iff, ← and_assoc, and_congr_left_iff]
  intro hlimit
  rw [← String.toList_inj, Nat.toString_eq_repr, Nat.toList_repr]
  by_cases h : x.IsFinite
  . rw [and_iff_right h]
    by_cases hzero : x.isZero
    . have hname : x.propertyName.toList = Nat.toDigits 10 0 := by
        have hnan : x.isNaN = false := by
          simpa [isNaN] using fun hfield => absurd h (by simp [IsFinite, hfield])
        simp [propertyName, hnan, hzero]
      have hinj : Function.Injective (Nat.toDigits 10) := Function.LeftInverse.injective
        number_toDigits
      rw [hname, value, size_eq_zero hzero, neg_zero, ite_self, hinj.eq_iff]
      exact_mod_cast Iff.rfl
    . have hx := mantissa_pos (Bool.eq_false_iff.2 hzero)
      obtain ⟨n, hn, hname⟩ := exists_propertyName h (Bool.eq_false_iff.2 hzero)
      have hshortest := isShortest_shortest h hx
      have hvalue := hn.value_eq hshortest.significant.ne_nil
      have hpos := (lower_pos hx).trans_le hshortest.rounds.le.1
      have hsize := (lower_pos hx).trans x.lower_lt_size
      have hv : (0 : ℚ) ≤ v := Nat.cast_nonneg v
      have hdigits (htext : n.text = Nat.toDigits 10 v) : n.value = v := by
        rw [Numeral.value_of_isNumeral (htext ▸ isNumeral_toDigits v), htext, number_toDigits]
      rw [hname, value]
      cases hsign : x.isNegative with
      | true =>
        rw [hsign] at hvalue
        refine iff_of_false (fun htext => ?_) (fun hneg => ?_)
        . have := hdigits htext
          simp only [if_true] at hvalue
          linarith
        . simp only [if_true] at hneg
          linarith
      | false =>
        rw [hsign] at hvalue hn
        simp only [Bool.false_eq_true, if_false, one_mul] at hvalue ⊢
        constructor
        . intro htext
          refine size_eq_of_rounds hx (by omega) ?_
          rw [← hdigits htext, hvalue]
          exact hshortest.rounds
        . intro hwhole
          have hnonzero : 0 < v := by
            rw [hwhole] at hsize
            exact_mod_cast hsize
          exact layout_text_of_value hshortest.significant (by omega)
            (value_eq_of_size hshortest (by omega) hnonzero hwhole) hn
  . refine iff_of_false (fun hname => not_isNumeral_propertyName h ?_) (fun hvalue => h hvalue.1)
    exact hname ▸ isNumeral_toDigits v

/--
The name of a number is laid out by the rules of the language and denotes the shortest decimal that
reads back as it; array indices are the names of the whole numbers below the limit.
-/
theorem propertyName_canonical :
    (∀ x : Double, x.IsFinite → x.isZero = false → x.IsShortest (shortest x) ∧
      ∃ n, (shortest x).Layout x.isNegative n ∧ x.propertyName.toList = n.text ∧
        n.value = (if x.isNegative then -1 else 1) * (shortest x).value) ∧
    (∀ (name : String) (v : Nat), arrayIndex? name = some v ↔ name = toString v ∧ v < 2 ^ 32 - 1) ∧
    ∀ (x : Double) (v : Nat), arrayIndex? x.propertyName = some v ↔
      x.IsFinite ∧ x.value = v ∧ v < 2 ^ 32 - 1 := by
  refine ⟨fun x h hx => ?_, fun _ _ => arrayIndex?_eq_some_iff, arrayIndex?_propertyName⟩
  have hshortest := isShortest_shortest h (mantissa_pos hx)
  obtain ⟨n, hn, hname⟩ := exists_propertyName h hx
  exact ⟨hshortest, n, hn, hname, hn.value_eq hshortest.significant.ne_nil⟩

end ScriptC.Double
