import ScriptC.Proofs.Double.Digits

/-!
The digits that are chosen for a number read back as it, and no decimal with fewer digits does.
-/

namespace ScriptC.Double

def IsFinite (x : Double) : Prop := x.field < maxField

def size (x : Double) : ℚ := x.mantissa * 2 ^ x.exponent

def value (x : Double) : ℚ := if x.isNegative then -x.size else x.size

def lower (x : Double) : ℚ :=
  (x.mantissa - if x.fraction = 0 ∧ 1 < x.field then 1 / 4 else 1 / 2) * 2 ^ x.exponent

def upper (x : Double) : ℚ := (x.mantissa + 1 / 2) * 2 ^ x.exponent

def Rounds (x : Double) (v : ℚ) : Prop :=
  if x.mantissa % 2 = 0 then x.lower ≤ v ∧ v ≤ x.upper else x.lower < v ∧ v < x.upper

variable {x : Double} {u v w : ℚ} {g k : Int} {s : Nat}

theorem Rounds.le (h : x.Rounds v) : x.lower ≤ v ∧ v ≤ x.upper := by
  unfold Rounds at h
  split at h
  . exact h
  . exact ⟨h.1.le, h.2.le⟩

theorem rounds_of_lt (hlower : x.lower < v) (hupper : v < x.upper) : x.Rounds v := by
  unfold Rounds
  split
  . exact ⟨hlower.le, hupper.le⟩
  . exact ⟨hlower, hupper⟩

theorem Rounds.between (hu : x.Rounds u) (hw : x.Rounds w) (huv : u ≤ v) (hvw : v ≤ w) :
    x.Rounds v := by
  unfold Rounds at *
  split_ifs at *
  . exact ⟨hu.1.trans huv, hvw.trans hw.2⟩
  . exact ⟨hu.1.trans_le huv, hvw.trans_lt hw.2⟩

theorem lower_lt_size (x : Double) : x.lower < x.size := by
  unfold lower size
  have : (0 : ℚ) < 2 ^ x.exponent := by positivity
  gcongr
  split <;> linarith

theorem size_lt_upper (x : Double) : x.size < x.upper := by
  unfold upper size
  have : (0 : ℚ) < 2 ^ x.exponent := by positivity
  gcongr
  linarith

theorem rounds_size (x : Double) : x.Rounds x.size := rounds_of_lt x.lower_lt_size x.size_lt_upper

theorem raise_eq {b : Nat} (hb : b ≠ 0) (e : Int) : (raise b e : ℚ) = raise b (-e) *
    (b : ℚ) ^ e := by
  have : (b : ℚ) ≠ 0 := by exact_mod_cast hb
  obtain ⟨n, rfl | rfl⟩ := e.eq_nat_or_neg <;> simp [raise, this]

theorem raise_pos {b : Nat} (hb : b ≠ 0) (e : Int) : 0 < (raise b e : ℚ) := by
  exact_mod_cast Nat.pow_pos (Nat.pos_of_ne_zero hb)

theorem exists_unit (x : Double) (g : Int) : ∃ t : ℚ, 0 < t ∧
    ((onGrid x g).num : ℚ) = t * 2 ^ x.exponent ∧ ((onGrid x g).den : ℚ) = t * 10 ^ g := by
  refine ⟨raise 2 (-x.exponent) * raise 10 (-g), ?_, ?_, ?_⟩
  . exact mul_pos (raise_pos (by decide) _) (raise_pos (by decide) _)
  . simp only [onGrid, Nat.cast_mul, raise_eq (b := 2) (by decide) x.exponent]
    push_cast
    ring
  . simp only [onGrid, Nat.cast_mul, raise_eq (b := 10) (by decide) g]
    push_cast
    ring

theorem readsBack_iff (hx : 0 < x.mantissa) :
    (onGrid x g).readsBack s = true ↔ x.Rounds (s * 10 ^ g) := by
  obtain ⟨t, ht, hnum, hden⟩ := exists_unit x g
  have hlower : (((4 * x.mantissa - if (onGrid x g).narrow then 1 else 2) *
    (onGrid x g).num : Nat) : ℚ) =
      4 * t * x.lower := by
    rw [Nat.cast_mul, Nat.cast_sub (by split <;> omega), hnum, lower]
    by_cases hnarrow : x.fraction = 0 ∧ 1 < x.field <;> simp [onGrid, hnarrow] <;> ring
  have hupper : (((4 * x.mantissa + 2) * (onGrid x g).num : Nat) : ℚ) = 4 * t * x.upper := by
    rw [Nat.cast_mul, hnum, upper]
    push_cast
    ring
  have hsteps : ((4 * s * (onGrid x g).den : Nat) : ℚ) = 4 * t * (s * 10 ^ g) := by
    rw [Nat.cast_mul, hden]
    push_cast
    ring
  have hunit : 0 < 4 * t := by positivity
  unfold Rounds Grid.readsBack
  rw [show (onGrid x g).m = x.mantissa from rfl]
  simp only [← Nat.cast_le (α := ℚ), ← Nat.cast_lt (α := ℚ), hlower, hupper, hsteps,
    mul_le_mul_iff_right₀ hunit, mul_lt_mul_iff_right₀ hunit]
  split <;> simp_all

def Grid.below (grid : Grid) : Nat := grid.m * grid.num / grid.den

theorem below_le_size (x : Double) (g : Int) :
    (onGrid x g).below * 10 ^ g ≤ x.size ∧ x.size < ((onGrid x g).below + 1 : Nat) * 10 ^ g := by
  obtain ⟨t, ht, hnum, hden⟩ := exists_unit x g
  have hsize : (((onGrid x g).m * (onGrid x g).num : Nat) : ℚ) = t * x.size := by
    rw [show (onGrid x g).m = x.mantissa from rfl, Nat.cast_mul, hnum, size]
    ring
  have hpos : 0 < (onGrid x g).den := by
    have : 0 < ((onGrid x g).den : ℚ) := by
      rw [hden]
      positivity
    exact_mod_cast this
  have hle : (((onGrid x g).below * (onGrid x g).den : Nat) : ℚ) ≤ _ :=
    Nat.cast_le.2 (Nat.div_mul_le_self ((onGrid x g).m * (onGrid x g).num) _)
  have hlt : _ < ((((onGrid x g).below + 1) * (onGrid x g).den : Nat) : ℚ) :=
    Nat.cast_lt.2 ((Nat.div_lt_iff_lt_mul hpos).1 (Nat.lt_succ_self _))
  rw [hsize, Nat.cast_mul, hden, mul_left_comm, mul_le_mul_iff_right₀ ht] at hle
  rw [hsize, Nat.cast_mul, hden, mul_left_comm, mul_lt_mul_iff_right₀ ht] at hlt
  exact ⟨hle, hlt⟩

theorem select?_eq (grid : Grid) : ∃ a b, grid.select? = [a, b].find? grid.readsBack ∧
    (a = grid.below ∧ b = grid.below + 1 ∨ a = grid.below + 1 ∧ b = grid.below) := by
  refine ⟨_, _, rfl, ?_⟩
  have hnearer : ∀ a : Nat, a = grid.below ∨ a = grid.below + 1 →
    (a = grid.below ∧ (if a == grid.below then grid.below + 1 else grid.below) = grid.below + 1 ∨
      a = grid.below + 1 ∧ (if a == grid.below then grid.below + 1 else grid.below) =
        grid.below) := by
    rintro a (rfl | rfl) <;> simp
  apply hnearer
  unfold Grid.below
  repeat' split
  all_goals simp

theorem rounds_of_select? (hx : 0 < x.mantissa) (h : (onGrid x g).select? = some s) :
    x.Rounds (s * 10 ^ g) ∧ s ≤ (onGrid x g).below + 1 := by
  obtain ⟨a, b, hselect, hab⟩ := select?_eq (onGrid x g)
  rw [hselect] at h
  refine ⟨(readsBack_iff hx).1 (List.find?_some h), ?_⟩
  have := List.mem_of_find?_eq_some h
  simp only [List.mem_cons, List.not_mem_nil, or_false] at this
  omega

theorem select?_isSome (hx : 0 < x.mantissa) (h : x.Rounds (s * 10 ^ g)) :
    (onGrid x g).select?.isSome = true := by
  obtain ⟨a, b, hselect, hab⟩ := select?_eq (onGrid x g)
  obtain ⟨hle, hlt⟩ := below_le_size x g
  have hstep : (0 : ℚ) < 10 ^ g := by positivity
  have hnext : x.Rounds ((onGrid x g).below * 10 ^ g) ∨
      x.Rounds (((onGrid x g).below + 1 : Nat) * 10 ^ g) := by
    rcases Nat.lt_or_ge (onGrid x g).below s with hs | hs
    . refine .inr (x.rounds_size.between h hlt.le ?_)
      gcongr
      exact hs
    . refine .inl (h.between x.rounds_size ?_ hle)
      gcongr
  rw [← readsBack_iff hx, ← readsBack_iff hx] at hnext
  rw [hselect, List.find?_isSome]
  simp only [List.mem_cons, List.not_mem_nil, or_false, exists_eq_or_imp, exists_eq_left]
  rcases hab with ⟨rfl, rfl⟩ | ⟨rfl, rfl⟩
  . exact hnext
  . exact hnext.symm

theorem belowPower_iff (x : Double) (k : Int) : belowPower x k = true ↔ x.size < 10 ^ k := by
  obtain ⟨t, ht, hnum, hden⟩ := exists_unit x k
  have hleft : ((x.mantissa * raise 2 x.exponent * raise 10 (-k) : Nat) : ℚ) = t * x.size := by
    rw [Nat.mul_assoc, Nat.cast_mul, show ((raise 2 x.exponent * raise 10 (-k) : Nat) : ℚ) = _ from
      hnum,
      size]
    ring
  have hright : ((raise 10 k * raise 2 (-x.exponent) : Nat) : ℚ) = t * 10 ^ k := by
    rw [Nat.mul_comm]
    exact hden
  rw [belowPower, decide_eq_true_iff, ← Nat.cast_lt (α := ℚ), hleft, hright,
    mul_lt_mul_iff_right₀ ht]

theorem raise_le_iff {a b : Nat} (ha : a ≠ 0) (hb : b ≠ 0) (d e : Int) :
    raise a d * raise b (-e) ≤ raise b e * raise a (-d) ↔ (a : ℚ) ^ d ≤ (b : ℚ) ^ e := by
  have hpos := mul_pos (raise_pos ha (-d)) (raise_pos hb (-e))
  rw [← Nat.cast_le (α := ℚ), Nat.cast_mul, Nat.cast_mul, raise_eq ha d, raise_eq hb e,
    mul_right_comm, mul_right_comm (raise b (-e) : ℚ), mul_comm (raise b (-e) : ℚ),
    mul_le_mul_iff_right₀ hpos]

theorem guess_bounds : ∀ i ∈ List.range 2098,
    let e : Int := i - 1074
    let k := e * 30103 / 100000
    raise 10 (k - 1) * raise 2 (-e) ≤ raise 2 e * raise 10 (-(k - 1)) ∧
      raise 2 (e + 1) * raise 10 (-(k + 2)) ≤ raise 10 (k + 2) * raise 2 (-(e + 1)) := by
  decide +kernel

theorem mantissa_lt (x : Double) : x.mantissa < 2 ^ 53 := by
  have : x.fraction < leadingBit := Nat.mod_lt _ (by decide)
  unfold mantissa leadingBit at *
  split <;> omega

theorem exponent_bounds (h : x.IsFinite) : -1074 ≤ x.exponent ∧ x.exponent ≤ 971 := by
  unfold IsFinite maxField at h
  unfold exponent
  split
  . decide
  . next hfield =>
    rw [beq_iff_eq] at hfield
    omega

theorem decimalScale_bounds (h : x.IsFinite) (hx : 0 < x.mantissa) :
    (10 : ℚ) ^ (x.decimalScale - 1) ≤ x.size ∧ x.size < 10 ^ x.decimalScale := by
  obtain ⟨hlow, hhigh⟩ := exponent_bounds h
  have hlog : x.mantissa.log2 < 53 := (Nat.log2_lt hx.ne').2 x.mantissa_lt
  generalize he : (x.mantissa.log2 : Int) + x.exponent = e
  have hsize : (2 : ℚ) ^ e ≤ x.size ∧ x.size < 2 ^ (e + 1) := by
    have hle : (2 : ℚ) ^ x.mantissa.log2 ≤ x.mantissa := by
      exact_mod_cast Nat.log2_self_le hx.ne'
    have hlt : (x.mantissa : ℚ) < 2 ^ (x.mantissa.log2 + 1) := by
      exact_mod_cast Nat.lt_log2_self
    rw [size, ← he, add_right_comm, zpow_add₀ (by norm_num), zpow_add₀ (by norm_num)]
    constructor <;> gcongr <;> assumption_mod_cast
  obtain ⟨hten, htwo⟩ := guess_bounds (e + 1074).toNat (by rw [List.mem_range]; omega)
  rw [show ((e + 1074).toNat : Int) - 1074 = e by omega] at hten htwo
  rw [raise_le_iff (by decide) (by decide)] at hten htwo
  have hbelow : x.size < 10 ^ (e * 30103 / 100000 + 2) := hsize.2.trans_le htwo
  unfold decimalScale
  rw [he]
  dsimp only
  split
  . next hguess => exact ⟨hten.trans hsize.1, (belowPower_iff ..).1 hguess⟩
  . next hguess =>
    rw [belowPower_iff, not_lt] at hguess
    split
    . next hnext => exact ⟨by rwa [add_sub_cancel_right], (belowPower_iff ..).1 hnext⟩
    . next hnext =>
      rw [belowPower_iff, not_lt] at hnext
      exact ⟨by rwa [show e * 30103 / 100000 + 2 - 1 = e * 30103 / 100000 + 1 by ring], hbelow⟩

theorem step_lt_width (h : x.IsFinite) (hx : 0 < x.mantissa) :
    (10 : ℚ) ^ (x.decimalScale - 17) < x.upper - x.lower := by
  have hscale := (decimalScale_bounds h hx).1
  rw [show x.decimalScale - 1 = 16 + (x.decimalScale - 17) by ring, zpow_add₀ (by norm_num),
    size] at hscale
  have hpos : (0 : ℚ) < 2 ^ x.exponent := by positivity
  unfold upper lower
  split
  . next hnarrow =>
    have hmantissa : x.mantissa = leadingBit := by
      rw [mantissa, hnarrow.1, if_neg (by rw [beq_iff_eq]; omega), Nat.add_zero]
    rw [hmantissa] at hscale ⊢
    norm_num [leadingBit] at hscale ⊢
    linarith
  . have hmantissa : (x.mantissa : ℚ) * 2 ^ x.exponent ≤ 2 ^ 53 * 2 ^ x.exponent := by
      gcongr
      exact_mod_cast x.mantissa_lt.le
    norm_num at hscale hmantissa ⊢
    linarith

theorem select?_seventeen (h : x.IsFinite) (hx : 0 < x.mantissa) :
    (onGrid x (x.decimalScale - 17)).select?.isSome = true := by
  have hwidth := step_lt_width h hx
  obtain ⟨hle, hlt⟩ := below_le_size x (x.decimalScale - 17)
  rcases lt_or_ge x.lower ((onGrid x (x.decimalScale - 17)).below * 10 ^ (x.decimalScale - 17))
    with hlower | hlower
  . exact select?_isSome hx (rounds_of_lt hlower (hle.trans_lt x.size_lt_upper))
  . refine select?_isSome hx (rounds_of_lt (x.lower_lt_size.trans hlt) ?_)
    push_cast
    linarith

theorem findSome?_range' {α : Type} {f : Nat → Option α} {a : α} {first count : Nat}
    (h : (List.range' first count).findSome? f = some a) :
    ∃ n, first ≤ n ∧ f n = some a ∧ ∀ m, first ≤ m → m < n → f m = none := by
  induction count generalizing first with
  | zero => cases h
  | succ count ih =>
    rw [List.range'_succ, List.findSome?_cons] at h
    split at h
    . next hfirst =>
      cases h
      exact ⟨first, le_rfl, hfirst, fun m hle hlt => absurd hlt (by omega)⟩
    . next hfirst =>
      obtain ⟨n, hle, hn, hbefore⟩ := ih h
      refine ⟨n, by omega, hn, fun m hm hlt => ?_⟩
      rcases hm.eq_or_lt with rfl | hm
      . exact hfirst
      . exact hbefore m hm hlt

theorem exists_steps (h : x.IsFinite) (hx : 0 < x.mantissa) : ∃ n s : Nat, 1 ≤ n ∧
    (onGrid x (x.decimalScale - n)).select? = some s ∧ shortest x = .ofSteps s
      (x.decimalScale - n) ∧
    ∀ m : Nat, 1 ≤ m → m < n → (onGrid x (x.decimalScale - m)).select? = none := by
  unfold shortest
  dsimp only
  split
  . next d hd =>
    obtain ⟨n, hle, hn, hbefore⟩ := findSome?_range' hd
    obtain ⟨s, hs, rfl⟩ := Option.map_eq_some_iff.1 hn
    exact ⟨n, s, hle, hs, rfl, fun m hm hlt => Option.map_eq_none_iff.1 (hbefore m hm hlt)⟩
  . next hnone =>
    have hlast := Option.map_eq_none_iff.1 (List.findSome?_eq_none_iff.1 hnone 17 (by decide))
    exact absurd (select?_seventeen h hx) (by rw [← Nat.cast_ofNat, hlast]; decide)

structure IsShortest (x : Double) (d : Decimal) : Prop where
  significant : IsSignificant d.digits
  rounds : x.Rounds d.value
  least : ∀ (s : Nat) (g : Int), x.Rounds (s * 10 ^ g) → d.digits.length ≤
    (Nat.toDigits 10 s).length

theorem lower_pos (hx : 0 < x.mantissa) : 0 < x.lower := by
  have : (1 : ℚ) ≤ x.mantissa := by exact_mod_cast hx
  have : (0 : ℚ) < 2 ^ x.exponent := by positivity
  refine mul_pos ?_ this
  split <;> linarith

theorem length_stripZeros_le {n : Nat} (hn : 1 ≤ n) (hs : 0 < s) (hle : s ≤ 10 ^ n) :
    (stripZeros (Nat.toDigits 10 s)).length ≤ n := by
  have hsig := isSignificant_stripZeros (isLeading_toDigits hs)
  obtain ⟨j, hj⟩ := stripZeros_append (Nat.toDigits 10 s)
  generalize stripZeros (Nat.toDigits 10 s) = l at hsig hj ⊢
  have hnumber : number l * 10 ^ j = s := by
    rw [← number_toDigits s, ← hj, number_append, number_replicate,
      List.length_replicate, Nat.add_zero]
  by_contra! hlength
  have hpow : 10 ^ n ≤ number l :=
    (Nat.pow_le_pow_right (by decide) (by omega)).trans hsig.pow_le
  have hfirst : number l ≤ s := hnumber ▸ Nat.le_mul_of_pos_right _ (Nat.pow_pos (by decide))
  -- the only number with more digits is the power itself, and that one ends in zeros
  refine hsig.not_dvd ?_
  rw [show number l = 10 ^ n by omega]
  exact dvd_pow_self 10 (by omega)

theorem exists_rounds (h : x.IsFinite) (hx : 0 < x.mantissa) {n : Nat} (hn : 1 ≤ n)
    (hs : s < 10 ^ n) (hrounds : x.Rounds (s * 10 ^ g)) :
    ∃ s' : Nat, x.Rounds (s' * 10 ^ (x.decimalScale - n)) := by
  have hscale := (decimalScale_bounds h hx).1
  rcases lt_or_ge ((s : ℚ) * 10 ^ g) (10 ^ (x.decimalScale - 1)) with hlt | hge
  . refine ⟨10 ^ (n - 1), ?_⟩
    have hpower : ((10 ^ (n - 1) : Nat) : ℚ) * 10 ^ (x.decimalScale - n) = 10 ^
      (x.decimalScale - 1) := by
      rw [Nat.cast_pow, Nat.cast_ofNat, ← zpow_natCast, ← zpow_add₀ (by norm_num)]
      congr 1
      omega
    rw [hpower]
    exact hrounds.between x.rounds_size hlt.le hscale
  . have hexponent : x.decimalScale - 1 < n + g := by
      refine (zpow_lt_zpow_iff_right₀ (a := (10 : ℚ)) (by norm_num)).1 (hge.trans_lt ?_)
      rw [zpow_add₀ (by norm_num)]
      gcongr
      exact_mod_cast hs
    obtain ⟨j, hj⟩ := Int.le.dest (show x.decimalScale - n ≤ g by omega)
    refine ⟨s * 10 ^ j, ?_⟩
    rw [← hj, zpow_add₀ (by norm_num), mul_comm _ ((10 : ℚ) ^ (j : Int)), ← mul_assoc, zpow_natCast]
      at hrounds
    exact_mod_cast hrounds

theorem isShortest_shortest (h : x.IsFinite) (hx : 0 < x.mantissa) : x.IsShortest (shortest x) := by
  obtain ⟨n, s, hn, hselect, hshortest, hbefore⟩ := exists_steps h hx
  obtain ⟨hrounds, hle⟩ := rounds_of_select? hx hselect
  have hs : 0 < s := by
    refine Nat.pos_of_ne_zero fun hs => ?_
    have := (lower_pos hx).trans_le hrounds.le.1
    simp [hs] at this
  rw [hshortest]
  refine ⟨isSignificant_stripZeros (isLeading_toDigits hs), ?_, ?_⟩
  . rwa [value_ofSteps]
  . intro a e ha
    by_contra! hlength
    have hbelow : (onGrid x (x.decimalScale - n)).below < 10 ^ n := by
      have := (below_le_size x (x.decimalScale - n)).1.trans_lt (decimalScale_bounds h hx).2
      rw [show (10 : ℚ) ^ x.decimalScale = 10 ^ n * 10 ^ (x.decimalScale - n) by
        rw [← zpow_natCast, ← zpow_add₀ (by norm_num), add_sub_cancel],
        mul_lt_mul_iff_left₀ (by positivity)] at this
      exact_mod_cast this
    have hmost := length_stripZeros_le hn hs (by omega)
    have hpos := Nat.length_toDigits_pos (b := 10) (n := a)
    obtain ⟨s', hs'⟩ := exists_rounds h hx hpos
      ((Nat.length_toDigits_le_iff (by decide) hpos).1 le_rfl) ha
    have hsome := select?_isSome hx hs'
    rw [hbefore _ hpos (hlength.trans_le hmost)] at hsome
    cases hsome

end ScriptC.Double
