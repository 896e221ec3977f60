import Mathlib
import KernelTree.Decimal.Numeral
import KernelTree.Proofs.Decimal.Nearest

/-!
# The shortest digits read back

The shortest decimal of a number lies in the interval of the number (`Decimal.mem_shortest`): on the
finest grid that is tried a neighbour is nearer than the ends of the interval, for every format of
less than seventeen digits. Any decimal of the interval is rounded to the pattern of the number
(`Numeral.magnitudeBits_of_mem`).
-/

namespace KernelTree

namespace Decimal

/-- The rational that the decimal stands for. -/
def value (d : Decimal) : ℚ := d.digits * 10 ^ d.exponent

/-- Taking zeros off the digits leaves the number as it is. -/
theorem value_trim (d : Decimal) : d.trim.value = d.value := by
  by_cases h : d.digits ≠ 0 ∧ d.digits % 10 = 0
  · have hdigits : (d.digits : ℚ) = 10 * (d.digits / 10 : ℕ) := by
      have : d.digits = 10 * (d.digits / 10) := by omega
      exact_mod_cast this
    rw [trim, dif_pos h, value_trim, value, value, zpow_add_one₀ (by norm_num), hdigits]
    ring
  · rw [trim, dif_neg h]
termination_by d.digits
decreasing_by omega

/-! ### Decimal magnitudes -/

theorem digitCount_pos (n : ℕ) : 0 < digitCount n := Nat.length_toDigits_pos

theorem lt_pow_digitCount (n : ℕ) : n < 10 ^ digitCount n :=
  (Nat.length_toDigits_le_iff (by decide) (digitCount_pos n)).mp le_rfl

/-- The leading digit of a number is not zero. -/
theorem pow_digitCount_le {n : ℕ} (hn : 0 < n) : 10 ^ (digitCount n - 1) ≤ n := by
  rcases Nat.eq_zero_or_pos (digitCount n - 1) with hone | hmore
  · rw [hone]
    omega
  · by_contra hlt
    have : digitCount n ≤ digitCount n - 1 :=
      (Nat.length_toDigits_le_iff (by decide) hmore).mpr (not_le.mp hlt)
    omega

/-- The digits and the exponent bound a decimal between two powers of ten. -/
theorem value_bounds {d : Decimal} (hd : 0 < d.digits) :
    (10 : ℚ) ^ (digitCount d.digits + d.exponent - 1) ≤ d.value ∧
      d.value < 10 ^ (digitCount d.digits + d.exponent) := by
  have hten : (10 : ℚ) ≠ 0 := by norm_num
  have hcount := digitCount_pos d.digits
  have hlow : (10 : ℚ) ^ (digitCount d.digits - 1) ≤ d.digits := by
    exact_mod_cast pow_digitCount_le hd
  have hhigh : (d.digits : ℚ) < 10 ^ digitCount d.digits := by
    exact_mod_cast lt_pow_digitCount d.digits
  have hexponent : (digitCount d.digits + d.exponent - 1 : ℤ)
      = (digitCount d.digits - 1 : ℕ) + d.exponent := by
    omega
  constructor
  · rw [hexponent, zpow_add₀ hten, zpow_natCast, value]
    gcongr
  · rw [zpow_add₀ hten, zpow_natCast, value]
    gcongr

/-- The last whole number before the reciprocal of a quotient, as `magnitude` computes it. -/
theorem exists_before_reciprocal {num den : ℕ} (hnum : 0 < num) (hlt : num < den) :
    ∃ r, (den + num - 1) / num - 1 = r ∧ 0 < r ∧ r * num < den ∧ den ≤ (r + 1) * num := by
  have hsplit := Nat.div_add_mod (den + num - 1) num
  have hmod := Nat.mod_lt (den + num - 1) hnum
  have htwo : 2 ≤ (den + num - 1) / num := (Nat.le_div_iff_mul_le hnum).mpr (by omega)
  obtain ⟨r, hr⟩ : ∃ r, (den + num - 1) / num = r + 1 :=
    ⟨_, (Nat.sub_add_cancel (by omega)).symm⟩
  rw [hr, Nat.mul_comm, Nat.add_one_mul] at hsplit
  refine ⟨r, by omega, by omega, by omega, ?_⟩
  rw [Nat.add_one_mul]
  omega

/-- The decimal magnitude of a quotient. -/
theorem magnitude_spec {num den : ℕ} (hnum : 0 < num) (hden : 0 < den) :
    (10 : ℚ) ^ (magnitude num den - 1) ≤ num / den ∧ (num : ℚ) / den < 10 ^ magnitude num den := by
  have hnum' : (0 : ℚ) < num := by exact_mod_cast hnum
  have hden' : (0 : ℚ) < den := by exact_mod_cast hden
  unfold magnitude
  split
  case isTrue hle =>
    have hq := Nat.div_pos hle hden
    have hcount := digitCount_pos (num / den)
    have hlow := Nat.mul_le_of_le_div _ _ _ (pow_digitCount_le hq)
    have hhigh := (Nat.div_lt_iff_lt_mul hden).mp (lt_pow_digitCount (num / den))
    constructor
    · rw [le_div_iff₀ hden', show (digitCount (num / den) : ℤ) - 1
        = (digitCount (num / den) - 1 : ℕ) by omega, zpow_natCast]
      exact_mod_cast hlow
    · rw [div_lt_iff₀ hden', zpow_natCast]
      exact_mod_cast hhigh
  case isFalse hlt =>
    -- Below one, the bounds are those of the reciprocal, turned round.
    obtain ⟨r, hr, hpos, hbelow, habove⟩ := exists_before_reciprocal hnum (Nat.not_le.mp hlt)
    have hcount := digitCount_pos r
    have hlow : 10 ^ (digitCount r - 1) * num < den :=
      (Nat.mul_le_mul_right num (pow_digitCount_le hpos)).trans_lt hbelow
    have hhigh : den ≤ 10 ^ digitCount r * num :=
      habove.trans (Nat.mul_le_mul_right num (lt_pow_digitCount r))
    rw [hr, show (1 - (digitCount r : ℤ)) = -(digitCount r - 1 : ℕ) by omega,
      show -((digitCount r - 1 : ℕ) : ℤ) - 1 = -(digitCount r : ℕ) by omega, zpow_neg, zpow_neg,
      zpow_natCast, zpow_natCast]
    constructor
    · rw [inv_le_iff_one_le_mul₀ (by positivity), mul_comm, ← mul_div_assoc, one_le_div hden']
      exact_mod_cast hhigh
    · rw [lt_inv_comm₀ (by positivity) (by positivity), inv_div, lt_div_iff₀ hnum']
      exact_mod_cast hlow

/-! ### Grids -/

namespace Interval

/-- The number that the interval belongs to. -/
def center (i : Interval) : ℚ := i.middle / i.unit

/-- The test in whole numbers, for a decimal on the grid of an exponent. -/
theorem contains_grid_iff {i : Interval} (hunit : 0 < i.unit) (n : ℕ) (e : ℤ) :
    i.contains (n * Nat.pow 10 e.toNat) (Nat.pow 10 (-e).toNat) = true ↔ i.Mem (n * 10 ^ e) := by
  have hdown : 0 < Nat.pow 10 (-e).toNat := Nat.pow_pos (by decide)
  rw [contains_iff hunit hdown, Nat.cast_mul, mul_div_assoc, pow_toNat_div_pow_toNat_neg]
  rfl

/-- What is found on a grid lies in the interval. -/
theorem mem_of_onGrid? {i : Interval} {e : ℤ} {d : Decimal} (hunit : 0 < i.unit)
    (h : i.onGrid? e = some d) : i.Mem d.value := by
  unfold onGrid? at h
  dsimp only at h
  split at h
  case h_1 hlower hupper =>
    obtain rfl := Option.some.inj h
    split
    · exact (contains_grid_iff hunit _ e).mp hlower
    · exact (contains_grid_iff hunit _ e).mp hupper
  case h_2 hlower _ =>
    obtain rfl := Option.some.inj h
    exact (contains_grid_iff hunit _ e).mp hlower
  case h_3 _ hupper =>
    obtain rfl := Option.some.inj h
    exact (contains_grid_iff hunit _ e).mp hupper
  case h_4 => cases h

/-- A grid is not left out if its points lie in the interval when they are no further from the
number than half a step. -/
theorem onGrid?_isSome {i : Interval} {e : ℤ} (hunit : 0 < i.unit)
    (h : ∀ n : ℕ, |n * 10 ^ e - i.center| ≤ 10 ^ e / 2 → i.Mem (n * 10 ^ e)) :
    (i.onGrid? e).isSome = true := by
  have hstep : (0 : ℚ) < 10 ^ e := by positivity
  have hfloor : ((i.middle * Nat.pow 10 (-e).toNat / (i.unit * Nat.pow 10 e.toNat) : ℕ) : ℚ)
        ≤ i.center / 10 ^ e ∧ i.center / 10 ^ e
        < (i.middle * Nat.pow 10 (-e).toNat / (i.unit * Nat.pow 10 e.toNat) : ℕ) + 1 := by
    have hquotient := mul_pow_div_mul_pow 10 i.middle i.unit e
    rw [Nat.cast_ofNat] at hquotient
    rw [center, ← hquotient, ← Nat.floor_div_eq_div (K := ℚ)]
    exact ⟨Nat.floor_le (by positivity), Nat.lt_floor_add_one _⟩
  unfold onGrid?
  dsimp only
  generalize i.middle * Nat.pow 10 (-e).toNat / (i.unit * Nat.pow 10 e.toNat) = lower at hfloor ⊢
  rw [le_div_iff₀ hstep, div_lt_iff₀ hstep] at hfloor
  -- The number lies between two points of the grid, and one of them is near.
  have hnear : i.contains (lower * Nat.pow 10 e.toNat) (Nat.pow 10 (-e).toNat) = true ∨
      i.contains ((lower + 1) * Nat.pow 10 e.toNat) (Nat.pow 10 (-e).toNat) = true := by
    rw [contains_grid_iff hunit, contains_grid_iff hunit]
    rcases le_total (i.center - lower * 10 ^ e) (10 ^ e / 2) with hlower | hupper
    · refine .inl (h lower ?_)
      rw [abs_le]
      constructor <;> linarith
    · refine .inr (h (lower + 1) ?_)
      rw [abs_le]
      push_cast
      constructor <;> linarith
  split
  · rfl
  · rfl
  · rfl
  case h_4 hlower hupper =>
    rw [hlower, hupper] at hnear
    simp at hnear

end Interval

/-! ### Numbers of a format -/

section

open BinaryFormat

variable {f : BinaryFormat} {m : ℕ} {q : ℤ}

theorem center_of (f : BinaryFormat) (m : ℕ) (q : ℤ) : (Interval.of f m q).center = m * 2 ^ q := by
  have hpow := pow_toNat_div_pow_toNat_neg 2 q
  rw [Nat.cast_ofNat] at hpow
  rw [← hpow, Interval.center]
  show ((4 * m * Nat.pow 2 q.toNat : ℕ) : ℚ) / (4 * Nat.pow 2 (-q).toNat : ℕ) = _
  rw [Nat.cast_mul, Nat.cast_mul, Nat.cast_mul, mul_assoc, mul_div_mul_left _ _ (by norm_num),
    mul_div_assoc]

/-- **Seventeen digits suffice**: a step that is less than the number by sixteen powers of ten is
less than the ends of the interval are apart from the number. -/
theorem mem_of_near {x : ℚ} (hdigits : 2 * f.leadingBit < 10 ^ 16) (h : f.IsNumber m q)
    (hx : |x - m * 2 ^ q| ≤ m * 2 ^ q / 10 ^ 16 / 2) : (Interval.of f m q).Mem x := by
  have hpow : (0 : ℚ) < 2 ^ q := by positivity
  have hpos : (0 : ℚ) < m := by exact_mod_cast h.pos
  -- In units of the last place.
  have hnear : |x / 2 ^ q - m| ≤ m / 10 ^ 16 / 2 := by
    have hscale : x / 2 ^ q - m = (x - m * 2 ^ q) / 2 ^ q := by field_simp
    rw [hscale, abs_div, abs_of_pos hpow, div_le_iff₀ hpow]
    calc |x - m * 2 ^ q| ≤ m * 2 ^ q / 10 ^ 16 / 2 := hx
      _ = m / 10 ^ 16 / 2 * 2 ^ q := by ring
  obtain ⟨hlow, hhigh⟩ := abs_le.mp hnear
  have hsmall : (m : ℚ) / 10 ^ 16 / 2 < f.quarters m q / 4 := by
    unfold quarters
    split
    case isTrue hleading =>
      have : (2 * m : ℚ) < 10 ^ 16 := by
        rw [hleading.1]
        exact_mod_cast hdigits
      push_cast
      linarith
    case isFalse =>
      have : (m : ℚ) < 10 ^ 16 := by exact_mod_cast h.fits.trans hdigits
      push_cast
      linarith
  have hquarters : ((f.quarters m q : ℕ) : ℚ) ≤ 2 := by exact_mod_cast (f.quarters_le m q).2
  rw [mem_of_iff h.pos]
  split <;> constructor <;> linarith

/-- The shortest decimal of a number is in the interval of the number. -/
theorem mem_shortest (hdigits : 2 * f.leadingBit < 10 ^ 16) (h : f.IsNumber m q) :
    (Interval.of f m q).Mem (shortest f m q).value := by
  have hunit := unit_of_pos f m q
  have hmiddle : 0 < (Interval.of f m q).middle :=
    Nat.mul_pos (Nat.mul_pos (by decide) h.pos) (Nat.pow_pos (by decide))
  obtain ⟨hlow, -⟩ := magnitude_spec hmiddle hunit
  have hcenter : (((Interval.of f m q).middle : ℕ) : ℚ) / (Interval.of f m q).unit = m * 2 ^ q :=
    center_of f m q
  rw [hcenter] at hlow
  unfold shortest
  dsimp only
  generalize magnitude (Interval.of f m q).middle (Interval.of f m q).unit = top at hlow ⊢
  rw [value_trim]
  have hfinest : ((Interval.of f m q).onGrid? (top - 1 - (16 : ℕ))).isSome = true := by
    refine Interval.onGrid?_isSome hunit fun n hn => mem_of_near hdigits h ?_
    rw [center_of] at hn
    refine hn.trans ?_
    rw [zpow_sub₀ (by norm_num), zpow_natCast]
    gcongr
  cases hfound : ((List.range 17).map fun n : ℕ => top - 1 - (n : ℤ)).findSome?
      (Interval.of f m q).onGrid? with
  | none =>
    have hnone := List.findSome?_eq_none_iff.mp hfound (top - 1 - (16 : ℕ))
      (List.mem_map.mpr ⟨16, by decide, rfl⟩)
    rw [hnone] at hfinest
    cases hfinest
  | some d =>
    obtain ⟨e, -, hd⟩ := List.exists_of_findSome?_eq_some hfound
    exact Interval.mem_of_onGrid? hunit hd

end

end Decimal

namespace Numeral

open BinaryFormat

variable {m : ℕ} {q : ℤ}

/-- The powers of two at the ends of the format lie well within the reach of decimals. -/
theorem two_zpow_bounds {e : ℤ} (hlow : -1500 ≤ e) (hhigh : e ≤ 1500) :
    (10 : ℚ) ^ (-500 : ℤ) ≤ 2 ^ e ∧ (2 : ℚ) ^ e ≤ 10 ^ (500 : ℤ) := by
  have hcube : (2 : ℚ) ^ (1500 : ℤ) ≤ 10 ^ (500 : ℤ) := by
    calc (2 : ℚ) ^ (1500 : ℤ) = (2 ^ (3 : ℤ)) ^ (500 : ℤ) := by rw [← zpow_mul]; norm_num
      _ ≤ 10 ^ (500 : ℤ) := zpow_le_zpow_left₀ (by norm_num) (by norm_num) (by norm_num)
  constructor
  · calc (10 : ℚ) ^ (-500 : ℤ) = (10 ^ (500 : ℤ))⁻¹ := zpow_neg 10 500
      _ ≤ (2 ^ (1500 : ℤ))⁻¹ := inv_anti₀ (by positivity) hcube
      _ = 2 ^ (-1500 : ℤ) := (zpow_neg 2 1500).symm
      _ ≤ 2 ^ e := zpow_le_zpow_right₀ (by norm_num) hlow
  · exact (zpow_le_zpow_right₀ (by norm_num) hhigh).trans hcube

/-- The largest exponent of a finite double. -/
theorem exponent_le_of_finite (hfinite : double.pattern m q ≤ double.infinityBits) : q ≤ 973 := by
  have hleading : double.leadingBit = 2 ^ 52 := rfl
  have hinfinity : double.infinityBits = 2047 * 2 ^ 52 := rfl
  have hleast : double.leastExponent = -1074 := rfl
  rw [pattern, hinfinity, hleading, hleast] at hfinite
  omega

/-- A decimal in the interval of a number is within reach. -/
theorem reach_of_mem {d : Decimal} (h : double.IsNumber m q)
    (hfinite : double.pattern m q ≤ double.infinityBits)
    (hd : (Decimal.Interval.of .double m q).Mem d.value) (hdigits : 0 < d.digits) :
    -(reach : ℤ) ≤ Decimal.digitCount d.digits + d.exponent ∧
      Decimal.digitCount d.digits + d.exponent ≤ reach := by
  have hten : (1 : ℚ) < 10 := by norm_num
  have hprecision : double.precision = 53 := rfl
  have hleast : -1074 ≤ q := h.least
  have hq := exponent_le_of_finite hfinite
  obtain ⟨hlow, hhigh⟩ := Decimal.value_bounds hdigits
  have hhalf := two_zpow_le_of_mem h.pos hd
  constructor
  · have hbound := ((two_zpow_bounds (by omega) (by omega)).1.trans hhalf).trans_lt hhigh
    have := (zpow_lt_zpow_iff_right₀ hten).mp hbound
    show -(500 : ℤ) ≤ _
    omega
  · have hbound := (hlow.trans_lt (lt_of_mem h hd)).trans_le
      (two_zpow_bounds (by omega) (by omega)).2
    have := (zpow_lt_zpow_iff_right₀ hten).mp hbound
    show _ ≤ (500 : ℤ)
    omega

/-- A decimal in the interval of an eight-byte number is read as that number. -/
theorem magnitudeBits_of_mem {d : Decimal} (h : double.IsNumber m q)
    (hfinite : double.pattern m q ≤ double.infinityBits)
    (hd : (Decimal.Interval.of .double m q).Mem d.value) :
    magnitudeBits .double d = double.pattern m q := by
  have hdigits : 0 < d.digits := by
    have hpos : 0 < d.value := (zpow_pos two_pos _).trans_le (two_zpow_le_of_mem h.pos hd)
    refine Nat.pos_of_ne_zero fun hzero => hpos.ne' ?_
    rw [Decimal.value, hzero, Nat.cast_zero, zero_mul]
  obtain ⟨hlow, hhigh⟩ := reach_of_mem h hfinite hd hdigits
  have hratio : ((d.digits * Nat.pow 10 d.exponent.toNat : ℕ) : ℚ)
      / (Nat.pow 10 (-d.exponent).toNat : ℕ) = d.value := by
    rw [Nat.cast_mul, mul_div_assoc, pow_toNat_div_pow_toNat_neg]
    rfl
  unfold magnitudeBits
  dsimp only
  rw [if_neg (by omega), if_neg (by omega)]
  refine nearest_of_mem h hfinite (Nat.mul_pos hdigits (Nat.pow_pos (by decide)))
    (Nat.pow_pos (by decide)) ?_
  rw [← hratio] at hd
  exact hd

end Numeral

end KernelTree
