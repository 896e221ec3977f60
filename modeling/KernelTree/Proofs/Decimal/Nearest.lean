import Mathlib
import KernelTree.Decimal.Shortest

/-!
# Rounding to a binary format

The positive numbers of a format are the `m · 2 ^ q` of `BinaryFormat.IsNumber`, and each has one
pattern. `BinaryFormat.nearest` takes every quotient inside the interval that a number owns to the
pattern of that number (`BinaryFormat.nearest_of_mem`), whatever numerator and denominator it is
written with: the interval is one of rationals (`Decimal.Interval.Mem`).
-/

namespace KernelTree

/-! ### Powers with exponents of either sign -/

/-- A power with an exponent of either sign is a quotient of two natural ones, one of them one. -/
theorem pow_toNat_div_pow_toNat_neg (b : ℕ) (e : ℤ) :
    ((Nat.pow b e.toNat : ℕ) : ℚ) / (Nat.pow b (-e).toNat : ℕ) = (b : ℚ) ^ e := by
  cases e with
  | ofNat n => simp
  | negSucc n => simp [zpow_negSucc]

/-- Dividing a quotient by a power, in whole numbers. -/
theorem mul_pow_div_mul_pow (b num den : ℕ) (e : ℤ) :
    ((num * Nat.pow b (-e).toNat : ℕ) : ℚ) / (den * Nat.pow b e.toNat : ℕ)
      = num / den / (b : ℚ) ^ e := by
  rw [← pow_toNat_div_pow_toNat_neg b e, Nat.cast_mul, Nat.cast_mul, mul_div_mul_comm,
    div_div_eq_mul_div, mul_div_assoc]

namespace Decimal.Interval

/-- The rationals in the interval. -/
def Mem (i : Interval) (x : ℚ) : Prop :=
  if i.closed then (i.low : ℚ) / i.unit ≤ x ∧ x ≤ i.high / i.unit
  else (i.low : ℚ) / i.unit < x ∧ x < i.high / i.unit

/-- A quotient is tested for the interval by multiplying out. -/
theorem contains_iff {i : Interval} {num den : ℕ} (hunit : 0 < i.unit) (hden : 0 < den) :
    i.contains num den = true ↔ i.Mem (num / den) := by
  have hunit' : (0 : ℚ) < i.unit := by exact_mod_cast hunit
  have hden' : (0 : ℚ) < den := by exact_mod_cast hden
  unfold contains Mem
  split
  · rw [Bool.and_eq_true, decide_eq_true_eq, decide_eq_true_eq, div_le_div_iff₀ hunit' hden',
      div_le_div_iff₀ hden' hunit']
    norm_cast
  · rw [Bool.and_eq_true, decide_eq_true_eq, decide_eq_true_eq, div_lt_div_iff₀ hunit' hden',
      div_lt_div_iff₀ hden' hunit']
    norm_cast

end Decimal.Interval

namespace BinaryFormat

/-! ### The two roundings of quotients -/

/-- The whole number is nearest to the rational, and even if another is as near. -/
structure RoundsTo (x : ℚ) (n : ℕ) : Prop where
  low : (n : ℚ) - 1 / 2 ≤ x
  high : x ≤ n + 1 / 2
  tie : n % 2 = 0 ∨ (n : ℚ) - 1 / 2 < x ∧ x < n + 1 / 2

/-- The same for a quotient in whole numbers, doubled so that no half is left. -/
structure RoundsDoubled (num den n : ℕ) : Prop where
  low : 2 * (den * n) ≤ 2 * num + den
  high : 2 * num ≤ 2 * (den * n) + den
  tie : n % 2 = 0 ∨ 2 * (den * n) < 2 * num + den ∧ 2 * num < 2 * (den * n) + den

/-- The bounds on a quotient, cleared of its denominator. -/
theorem RoundsTo.doubled {num den n : ℕ} (hden : 0 < den) (h : RoundsTo (num / den) n) :
    RoundsDoubled num den n where
  low := by
    have hlow := (le_div_iff₀ (by exact_mod_cast hden : (0 : ℚ) < den)).mp h.low
    have hlow : (2 * (den * n) : ℚ) ≤ 2 * num + den := by linarith
    exact_mod_cast hlow
  high := by
    have hhigh := (div_le_iff₀ (by exact_mod_cast hden : (0 : ℚ) < den)).mp h.high
    have hhigh : (2 * num : ℚ) ≤ 2 * (den * n) + den := by linarith
    exact_mod_cast hhigh
  tie := by
    refine h.tie.imp_right fun ⟨hlow, hhigh⟩ => ?_
    have hlow := (lt_div_iff₀ (by exact_mod_cast hden : (0 : ℚ) < den)).mp hlow
    have hhigh := (div_lt_iff₀ (by exact_mod_cast hden : (0 : ℚ) < den)).mp hhigh
    have hlow : (2 * (den * n) : ℚ) < 2 * num + den := by linarith
    have hhigh : (2 * num : ℚ) < 2 * (den * n) + den := by linarith
    exact ⟨by exact_mod_cast hlow, by exact_mod_cast hhigh⟩

/-- The whole part of a quotient is its nearest number or the one below. -/
theorem RoundsDoubled.quotient {num den n : ℕ} (hden : 0 < den) (h : RoundsDoubled num den n) :
    num / den = n ∨ num / den + 1 = n := by
  have hsplit : den * (num / den) + num % den = num := Nat.div_add_mod num den
  have hmod : num % den < den := Nat.mod_lt num hden
  have hle : num / den ≤ n := by
    by_contra hlt
    have hmul : den * (n + 1) ≤ den * (num / den) := Nat.mul_le_mul_left den (by omega)
    have hhigh := h.high
    rw [Nat.mul_add] at hmul
    omega
  have hge : n ≤ num / den + 1 := by
    by_contra hlt
    have hmul : den * (num / den + 2) ≤ den * n := Nat.mul_le_mul_left den (by omega)
    have hlow := h.low
    rw [Nat.mul_add] at hmul
    omega
  omega

/-- Rounding in whole numbers finds the nearest one: the remainder says which of its two neighbours
a quotient is closer to. -/
theorem roundHalfEven_of_roundsTo {num den n : ℕ} (hden : 0 < den) (h : RoundsTo (num / den) n) :
    roundHalfEven num den = n := by
  have h := h.doubled hden
  have hlow := h.low
  have hhigh := h.high
  have htie := h.tie
  have hsplit : den * (num / den) + num % den = num := Nat.div_add_mod num den
  unfold roundHalfEven
  dsimp only
  obtain hq | hq := h.quotient hden
  · rw [hq] at hsplit ⊢
    split_ifs <;> omega
  · rw [← hq, Nat.mul_add, Nat.mul_one] at hlow hhigh htie
    split_ifs <;> omega

/-- A number lies between two powers of two. -/
theorem two_zpow_log2 {n : ℕ} (hn : 0 < n) :
    (2 : ℚ) ^ (n.log2 : ℤ) ≤ n ∧ (n : ℚ) < 2 ^ ((n.log2 : ℤ) + 1) := by
  rw [zpow_natCast]
  have hlow : 2 ^ n.log2 ≤ n := Nat.log2_self_le hn.ne'
  have hhigh : n < 2 ^ (n.log2 + 1) := Nat.lt_log2_self
  exact ⟨by exact_mod_cast hlow, by exact_mod_cast hhigh⟩

/-- The binary magnitude of a quotient. -/
theorem quotientLog2_spec {num den : ℕ} (hnum : 0 < num) (hden : 0 < den) :
    (2 : ℚ) ^ quotientLog2 num den ≤ num / den ∧
      (num : ℚ) / den < 2 ^ (quotientLog2 num den + 1) := by
  have hden' : (0 : ℚ) < den := by exact_mod_cast hden
  have htwo : (2 : ℚ) ≠ 0 := two_ne_zero
  obtain ⟨hnumlow, hnumhigh⟩ := two_zpow_log2 hnum
  obtain ⟨hdenlow, hdenhigh⟩ := two_zpow_log2 hden
  have hbelow (e : ℤ) : num * Nat.pow 2 (-e).toNat < den * Nat.pow 2 e.toNat ↔
      (num : ℚ) / den < 2 ^ e := by
    have hpos : (0 : ℚ) < (den * Nat.pow 2 e.toNat : ℕ) := by
      exact_mod_cast Nat.mul_pos hden (Nat.pow_pos (by decide))
    rw [← Nat.cast_lt (α := ℚ), ← div_lt_one hpos, mul_pow_div_mul_pow, Nat.cast_ofNat,
      div_lt_one (by positivity)]
  unfold quotientLog2
  dsimp only
  split
  case isTrue hlt =>
    refine ⟨?_, by rwa [sub_add_cancel, ← hbelow]⟩
    rw [le_div_iff₀ hden']
    calc (2 : ℚ) ^ ((num.log2 : ℤ) - den.log2 - 1) * den
        ≤ 2 ^ ((num.log2 : ℤ) - den.log2 - 1) * 2 ^ ((den.log2 : ℤ) + 1) := by gcongr
      _ = 2 ^ (num.log2 : ℤ) := by
        rw [← zpow_add₀ htwo]
        congr 1
        ring
      _ ≤ num := hnumlow
  case isFalse hge =>
    rw [hbelow, not_lt] at hge
    refine ⟨hge, ?_⟩
    rw [div_lt_iff₀ hden']
    calc (num : ℚ) < 2 ^ ((num.log2 : ℤ) + 1) := hnumhigh
      _ = 2 ^ ((num.log2 : ℤ) - den.log2 + 1) * 2 ^ (den.log2 : ℤ) := by
        rw [← zpow_add₀ htwo]
        congr 1
        ring
      _ ≤ 2 ^ ((num.log2 : ℤ) - den.log2 + 1) * den := by gcongr

/-! ### Numbers of a format -/

variable {f : BinaryFormat} {m : ℕ} {q : ℤ}

/-- The positive number `m · 2 ^ q` belongs to the format: only at the least exponent it has less
than full precision. -/
structure IsNumber (f : BinaryFormat) (m : ℕ) (q : ℤ) : Prop where
  pos : 0 < m
  fits : m < 2 * f.leadingBit
  least : f.leastExponent ≤ q
  leading : f.leastExponent < q → f.leadingBit ≤ m

/-- The pattern of `m · 2 ^ q`. The leading bit of a number with full precision counts as one more
in the exponent field. -/
def pattern (f : BinaryFormat) (m : ℕ) (q : ℤ) : ℕ :=
  (q - f.leastExponent).toNat * f.leadingBit + m

/-- The leading bit of a significand, as a rational. -/
theorem leadingBit_cast (f : BinaryFormat) :
    (f.leadingBit : ℚ) = 2 ^ ((f.precision - 1 : ℕ) : ℤ) := by
  rw [zpow_natCast]
  exact_mod_cast rfl

/-- How far below a number its interval begins, in quarters of its last place. -/
def quarters (f : BinaryFormat) (m : ℕ) (q : ℤ) : ℕ :=
  if m = f.leadingBit ∧ f.leastExponent < q then 1 else 2

/-- The lower end of an interval is nearer only where the exponent changes. -/
theorem quarters_le (f : BinaryFormat) (m : ℕ) (q : ℤ) :
    1 ≤ f.quarters m q ∧ f.quarters m q ≤ 2 := by
  unfold quarters
  split <;> omega

/-- Intervals are measured in parts of something. -/
theorem unit_of_pos (f : BinaryFormat) (m : ℕ) (q : ℤ) : 0 < (Decimal.Interval.of f m q).unit :=
  Nat.mul_pos (by decide) (Nat.pow_pos (by decide))

/-- The interval of a number, in units of its last place. -/
theorem mem_of_iff (hm : 0 < m) {x : ℚ} : (Decimal.Interval.of f m q).Mem x ↔
    if m % 2 = 0 then (m : ℚ) - f.quarters m q / 4 ≤ x / 2 ^ q ∧ x / 2 ^ q ≤ m + 1 / 2
    else (m : ℚ) - f.quarters m q / 4 < x / 2 ^ q ∧ x / 2 ^ q < m + 1 / 2 := by
  have hpow : (0 : ℚ) < 2 ^ q := by positivity
  have hbelow := f.quarters_le m q
  have hratio (k : ℕ) : ((k * Nat.pow 2 q.toNat : ℕ) : ℚ) / (4 * Nat.pow 2 (-q).toNat : ℕ)
      = k / 4 * 2 ^ q := by
    rw [Nat.cast_mul, Nat.cast_mul, mul_div_mul_comm, pow_toNat_div_pow_toNat_neg]
    norm_num
  have hlow : ((Decimal.Interval.of f m q).low : ℚ) / (Decimal.Interval.of f m q).unit
      = (m - f.quarters m q / 4) * 2 ^ q := by
    refine (hratio (4 * m - f.quarters m q)).trans ?_
    rw [Nat.cast_sub (by omega)]
    push_cast
    ring
  have hhigh : ((Decimal.Interval.of f m q).high : ℚ) / (Decimal.Interval.of f m q).unit
      = (m + 1 / 2) * 2 ^ q := by
    refine (hratio (4 * m + 2)).trans ?_
    push_cast
    ring
  have hclosed : (Decimal.Interval.of f m q).closed = decide (m % 2 = 0) := rfl
  rw [Decimal.Interval.Mem, hlow, hhigh, hclosed, le_div_iff₀ hpow, div_le_iff₀ hpow,
    lt_div_iff₀ hpow, div_lt_iff₀ hpow]
  simp only [decide_eq_true_eq]

section

variable {x : ℚ} (hm : 0 < m) (hx : (Decimal.Interval.of f m q).Mem x)
include hm hx

/-- The interval does not begin more than a quarter of the last place below the least significand
with full precision, and never more than half of it below another. -/
theorem quarters_le_of_mem : (m : ℚ) - f.quarters m q / 4 ≤ x / 2 ^ q := by
  rw [mem_of_iff hm] at hx
  split at hx
  · exact hx.1
  · exact hx.1.le

/-- What lies in the interval of a number is rounded to it on the grid of its last place. -/
theorem roundsTo_of_mem : RoundsTo (x / 2 ^ q) m := by
  have hquarters : ((f.quarters m q : ℕ) : ℚ) ≤ 2 := by exact_mod_cast (f.quarters_le m q).2
  rw [mem_of_iff hm] at hx
  split at hx
  case isTrue heven => exact ⟨by linarith, by linarith, .inl heven⟩
  case isFalse => exact ⟨by linarith, by linarith, .inr ⟨by linarith, by linarith⟩⟩

/-- The interval of a number begins at half of its last place or above. -/
theorem two_zpow_le_of_mem : (2 : ℚ) ^ (q - 1) ≤ x := by
  have hpow : (0 : ℚ) < 2 ^ q := by positivity
  have hone : (1 : ℚ) ≤ m := by exact_mod_cast hm
  have hlow := (roundsTo_of_mem hm hx).low
  rw [le_div_iff₀ hpow] at hlow
  calc (2 : ℚ) ^ (q - 1) = 1 / 2 * 2 ^ q := by
        rw [zpow_sub_one₀ two_ne_zero]
        ring
    _ ≤ (m - 1 / 2) * 2 ^ q := by gcongr; linarith
    _ ≤ x := hlow

end

/-- The exponent that `nearest` takes for a quotient between two powers of two. -/
theorem exponent_eq {k e : ℤ} {x : ℚ} (hk : (2 : ℚ) ^ k ≤ x ∧ x < 2 ^ (k + 1))
    (hlow : 2 ^ e ≤ x) (hhigh : x < 2 ^ (e + 1)) : k = e := by
  have hke := (zpow_lt_zpow_iff_right₀ (one_lt_two (α := ℚ))).mp (hk.1.trans_lt hhigh)
  have hek := (zpow_lt_zpow_iff_right₀ (one_lt_two (α := ℚ))).mp (hlow.trans_lt hk.2)
  omega

/-- The nearest number is found from the magnitude of the quotient and the rounded significand. -/
theorem nearest_of_roundsTo {num den n : ℕ} {e : ℤ} (hnum : 0 < num) (hden : 0 < den)
    (he : max f.leastExponent (quotientLog2 num den - (f.precision - 1 : ℕ)) = e)
    (hn : RoundsTo (num / den / 2 ^ e) n) :
    f.nearest num den = min f.infinityBits ((e - f.leastExponent).toNat * f.leadingBit + n) := by
  have hround : roundHalfEven (num * Nat.pow 2 (-e).toNat) (den * Nat.pow 2 e.toNat) = n := by
    refine roundHalfEven_of_roundsTo (Nat.mul_pos hden (Nat.pow_pos (by decide))) ?_
    rw [mul_pow_div_mul_pow]
    exact_mod_cast hn
  unfold nearest
  rw [if_neg hnum.ne']
  dsimp only
  rw [he, hround]

/-- The unit of a number and its leading bit give its magnitude. -/
theorem two_zpow_add_precision (f : BinaryFormat) (e : ℤ) :
    (2 : ℚ) ^ (e + (f.precision - 1 : ℕ)) = f.leadingBit * 2 ^ e := by
  rw [zpow_add₀ two_ne_zero, leadingBit_cast, mul_comm]

section

variable {x : ℚ} (h : f.IsNumber m q) (hx : (Decimal.Interval.of f m q).Mem x)
include h hx

/-- Above, the interval ends before the next power of two. -/
theorem lt_of_mem : x < 2 ^ (q + (f.precision - 1 : ℕ) + 1) := by
  have hpow : (0 : ℚ) < 2 ^ q := by positivity
  have hfits : (m : ℚ) + 1 ≤ 2 * f.leadingBit := by exact_mod_cast h.fits
  rw [zpow_add_one₀ two_ne_zero, two_zpow_add_precision, mul_right_comm, ← div_lt_iff₀ hpow]
  linarith [(roundsTo_of_mem h.pos hx).high]

/-- Below the least significand with full precision there is only a quarter of the last place left,
which is half of the place on the finer grid there. -/
theorem roundsTo_of_mem_below (hleast : f.leastExponent < q)
    (hbelow : x < 2 ^ (q + (f.precision - 1 : ℕ))) :
    m = f.leadingBit ∧ 2 ^ (q - 1 + (f.precision - 1 : ℕ)) ≤ x ∧
      RoundsTo (x / 2 ^ (q - 1)) (2 * m) := by
  have hpow : (0 : ℚ) < 2 ^ q := by positivity
  rw [two_zpow_add_precision, ← div_lt_iff₀ hpow] at hbelow
  have hleading : m = f.leadingBit := by
    have hlt : (m : ℚ) < f.leadingBit + 1 := by linarith [(roundsTo_of_mem h.pos hx).low]
    have hlt : m < f.leadingBit + 1 := by exact_mod_cast hlt
    have := h.leading hleast
    omega
  have hquarters : f.quarters m q = 1 := if_pos ⟨hleading, hleast⟩
  have hlow := quarters_le_of_mem h.pos hx
  rw [hquarters] at hlow
  push_cast at hlow
  have hone : (1 : ℚ) ≤ m := by exact_mod_cast h.pos
  have hhalf : x / 2 ^ (q - 1) = 2 * (x / 2 ^ q) := by
    rw [zpow_sub_one₀ two_ne_zero]
    field_simp
  refine ⟨hleading, ?_, ?_, ?_, .inl (by omega)⟩
  · rw [two_zpow_add_precision, ← le_div_iff₀ (by positivity), hhalf, ← hleading]
    linarith
  · rw [hhalf]
    push_cast
    linarith
  · rw [hhalf]
    rw [← hleading] at hbelow
    push_cast
    linarith

end

/-- **Quotients round to the number whose interval they lie in.** -/
theorem nearest_of_mem {num den : ℕ} (h : f.IsNumber m q) (hfinite : f.pattern m q ≤ f.infinityBits)
    (hnum : 0 < num) (hden : 0 < den) (hx : (Decimal.Interval.of f m q).Mem (num / den)) :
    f.nearest num den = f.pattern m q := by
  have hk := quotientLog2_spec hnum hden
  have hhigh := lt_of_mem h hx
  have hleast := h.least
  by_cases hfull : q = f.leastExponent ∨ (2 : ℚ) ^ (q + (f.precision - 1 : ℕ)) ≤ num / den
  · have hexponent : max f.leastExponent (quotientLog2 num den - (f.precision - 1 : ℕ)) = q := by
      have := (zpow_lt_zpow_iff_right₀ (one_lt_two (α := ℚ))).mp (hk.1.trans_lt hhigh)
      rcases hfull with hq | hfull
      · omega
      · have := exponent_eq hk hfull hhigh
        omega
    rw [nearest_of_roundsTo hnum hden hexponent (roundsTo_of_mem h.pos hx)]
    exact min_eq_right hfinite
  · push Not at hfull
    obtain ⟨hne, hbelow⟩ := hfull
    obtain ⟨hleading, hlow, hround⟩ := roundsTo_of_mem_below h hx (by omega) hbelow
    have hmagnitude := exponent_eq hk hlow (by rwa [add_right_comm, sub_add_cancel])
    have hexponent :
        max f.leastExponent (quotientLog2 num den - (f.precision - 1 : ℕ)) = q - 1 := by
      omega
    -- The carry out of the significand moves the exponent field on.
    have hcarry : (q - 1 - f.leastExponent).toNat * f.leadingBit + 2 * m = f.pattern m q := by
      have hstep : (q - f.leastExponent).toNat = (q - 1 - f.leastExponent).toNat + 1 := by omega
      rw [pattern, hstep, ← hleading]
      ring
    rw [nearest_of_roundsTo hnum hden hexponent hround, hcarry]
    exact min_eq_right hfinite

/-! ### Patterns of numbers -/

/-- There is a leading bit. -/
theorem leadingBit_pos (f : BinaryFormat) : 0 < f.leadingBit := Nat.pow_pos (by decide)

/-- The pattern of infinity is below the sign bit. -/
theorem infinityBits_lt_signBit (f : BinaryFormat) : f.infinityBits < f.signBit := by
  have hpow : 0 < Nat.pow 2 f.exponentBits := Nat.pow_pos (by decide)
  exact Nat.mul_lt_mul_of_pos_right (by omega) f.leadingBit_pos

/-- Below the pattern of infinity a pattern without a sign is that of a number, or zero. -/
theorem decode_of_lt {bits : ℕ} (h : bits < f.infinityBits) :
    ∃ m q, f.decode bits = .finite false m q ∧ f.pattern m q = bits ∧
      (bits ≠ 0 → f.IsNumber m q) := by
  have hsign := h.trans f.infinityBits_lt_signBit
  have hleading := f.leadingBit_pos
  have hsplit := Nat.div_add_mod bits f.leadingBit
  have hmod := Nat.mod_lt bits hleading
  simp only [decode, Nat.mod_eq_of_lt hsign, h.ne, h.not_gt, if_false, decide_eq_false hsign.not_ge]
  split
  case isTrue hzero =>
    rw [hzero, Nat.mul_zero, Nat.zero_add] at hsplit
    rw [hsplit] at hmod ⊢
    exact ⟨_, _, rfl, by simp [pattern],
      fun hne => ⟨by omega, by omega, le_rfl, fun hlt => by omega⟩⟩
  case isFalse hfield =>
    generalize bits / f.leadingBit = field at hfield hsplit ⊢
    refine ⟨_, _, rfl, ?_, fun _ => ⟨by omega, by omega, by omega, fun _ => by omega⟩⟩
    have hplace : (f.leastExponent + field - 1 - f.leastExponent).toNat + 1 = field := by omega
    rw [pattern, ← Nat.add_assoc, ← Nat.add_one_mul, hplace, Nat.mul_comm, hsplit]

/-- A pattern is that of one number only. -/
theorem pattern_inj {n : ℕ} {e : ℤ} (h : f.IsNumber m q) (h' : f.IsNumber n e)
    (heq : f.pattern m q = f.pattern n e) : m = n ∧ q = e := by
  have hplace {m n : ℕ} {q e : ℤ} (h : f.IsNumber m q) (h' : f.IsNumber n e)
      (heq : f.pattern m q = f.pattern n e) : e ≤ q := by
    by_contra hlt
    have hleast := h.least
    have hfits := h.fits
    have hleading := h'.leading (by omega)
    obtain ⟨a, b, ha, hb⟩ : ∃ a b : ℕ, (q - f.leastExponent).toNat = a ∧
        (e - f.leastExponent).toNat = a + b + 1 := ⟨_, (e - q - 1).toNat, rfl, by omega⟩
    have hexpand : (a + b + 1) * f.leadingBit
        = a * f.leadingBit + b * f.leadingBit + f.leadingBit := by
      ring
    rw [pattern, pattern, ha, hb, hexpand] at heq
    omega
  obtain rfl := le_antisymm (hplace h' h heq.symm) (hplace h h' heq)
  exact ⟨Nat.add_left_cancel heq, rfl⟩

/-- The pattern of a finite number is decoded to the number. -/
theorem decode_pattern (h : f.IsNumber m q) (hfinite : f.pattern m q < f.infinityBits) :
    f.decode (f.pattern m q) = .finite false m q := by
  obtain ⟨n, e, hdecode, hpattern, hnumber⟩ := decode_of_lt hfinite
  have hpos : f.pattern m q ≠ 0 := by
    have := h.pos
    rw [pattern]
    omega
  obtain ⟨rfl, rfl⟩ := pattern_inj (hnumber hpos) h hpattern
  exact hdecode

/-- Rounding never goes past infinity. -/
theorem nearest_le (f : BinaryFormat) (num den : ℕ) : f.nearest num den ≤ f.infinityBits := by
  unfold nearest
  split
  · exact Nat.zero_le _
  · exact min_le_left _ _

end BinaryFormat

end KernelTree
