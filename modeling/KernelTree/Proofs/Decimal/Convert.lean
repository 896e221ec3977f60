import Mathlib
import KernelTree.Decimal.Convert
import KernelTree.Proofs.Decimal.Shortest

/-!
# Rounding twice

A rational is rounded to a format by way of a finer one. The first rounding does not leave the
interval of the result, since the ends of the interval are numbers of the finer format
(`BinaryFormat.mem_of_even`), but it may reach an end: only numbers with an even significand own
theirs. Every rational that is not too small has a number to be rounded to
(`BinaryFormat.exists_mem`).
-/

namespace KernelTree

namespace BinaryFormat

variable {f : BinaryFormat} {m : ℕ} {q : ℤ} {x : ℚ}

/-! ### Numbers between numbers -/

/-- At the exponent of a number or above, other numbers are whole last places away. -/
theorem natCast_mul_zpow_eq {k : ℕ} {e : ℤ} (hq : q ≤ e) :
    ∃ n : ℕ, (k : ℚ) * 2 ^ e = n * 2 ^ q := by
  refine ⟨k * 2 ^ (e - q).toNat, ?_⟩
  have hsplit : (2 : ℚ) ^ e = 2 ^ (e - q).toNat * 2 ^ q := by
    rw [← zpow_natCast, ← zpow_add₀ two_ne_zero]
    congr 1
    omega
  rw [hsplit]
  push_cast
  ring

/-- Below its exponent they stay half of the last place below the leading bit. -/
theorem natCast_mul_zpow_le {k : ℕ} {e : ℤ} (hk : k < 2 * f.leadingBit) (hq : e < q) :
    (k : ℚ) * 2 ^ e ≤ (f.leadingBit - 1 / 2) * 2 ^ q := by
  have hk : (k : ℚ) + 1 ≤ 2 * f.leadingBit := by exact_mod_cast hk
  calc (k : ℚ) * 2 ^ e ≤ k * 2 ^ (q - 1) := by
        gcongr
        · norm_num
        · omega
    _ = k / 2 * 2 ^ q := by
        rw [zpow_sub_one₀ two_ne_zero]
        ring
    _ ≤ (f.leadingBit - 1 / 2) * 2 ^ q := by
        gcongr
        linarith

section

variable {k : ℕ} {e : ℤ} (h : f.IsNumber m q) (hx : (Decimal.Interval.of f m q).Mem x)
  (hk : k < 2 * f.leadingBit) (he : f.leastExponent ≤ e)
include h hx hk he

/-- No number of the format lies between a rational and the number that it is rounded to. -/
theorem le_of_le_of_mem (hle : k * 2 ^ e ≤ x) : (k : ℚ) * 2 ^ e ≤ m * 2 ^ q := by
  have hpow : (0 : ℚ) < 2 ^ q := by positivity
  by_contra hlt
  push Not at hlt
  rcases le_or_gt q e with hq | hq
  · obtain ⟨n, hn⟩ := natCast_mul_zpow_eq (k := k) hq
    have hhigh := (roundsTo_of_mem h.pos hx).high
    rw [div_le_iff₀ hpow] at hhigh
    rw [hn, mul_lt_mul_iff_left₀ hpow] at hlt
    rw [hn] at hle
    have hnext : (m : ℚ) + 1 ≤ n := by exact_mod_cast hlt
    have := le_of_mul_le_mul_right (hle.trans hhigh) hpow
    linarith
  · have hbelow := lt_of_mul_lt_mul_right (hlt.trans_le (natCast_mul_zpow_le hk hq)) hpow.le
    have hleading : (f.leadingBit : ℚ) ≤ m := by exact_mod_cast h.leading (by omega)
    linarith

theorem le_of_mem_of_le (hle : x ≤ k * 2 ^ e) : (m : ℚ) * 2 ^ q ≤ k * 2 ^ e := by
  have hpow : (0 : ℚ) < 2 ^ q := by positivity
  have hlow := quarters_le_of_mem h.pos hx
  rw [le_div_iff₀ hpow] at hlow
  have hquarters : ((f.quarters m q : ℕ) : ℚ) ≤ 2 := by exact_mod_cast (f.quarters_le m q).2
  by_contra hlt
  push Not at hlt
  rcases le_or_gt q e with hq | hq
  · obtain ⟨n, hn⟩ := natCast_mul_zpow_eq (k := k) hq
    rw [hn, mul_lt_mul_iff_left₀ hpow] at hlt
    rw [hn] at hle
    have hnext : (n : ℚ) + 1 ≤ m := by exact_mod_cast hlt
    have := le_of_mul_le_mul_right (hlow.trans hle) hpow
    linarith
  · have hbelow := le_of_mul_le_mul_right (hlow.trans (hle.trans (natCast_mul_zpow_le hk hq))) hpow
    rcases (h.leading (by omega)).eq_or_lt with heq | hmore
    · have hone : f.quarters m q = 1 := if_pos ⟨heq.symm, by omega⟩
      rw [hone, ← heq] at hbelow
      push_cast at hbelow
      linarith
    · have hnext : (f.leadingBit : ℚ) + 1 ≤ m := by exact_mod_cast hmore
      linarith

end

/-! ### What a rational is rounded to -/

/-- Every rational that is not negative has a nearest whole number. -/
theorem exists_roundsTo (hx : 0 ≤ x) : ∃ n, RoundsTo x n := by
  have hlow := Nat.floor_le hx
  have hhigh := Nat.lt_floor_add_one x
  generalize ⌊x⌋₊ = n at hlow hhigh
  -- The whole part or the number above it, and of two as near ones the even one.
  rcases lt_trichotomy (x - n) (1 / 2) with hlt | heq | hgt
  · exact ⟨n, by linarith, by linarith, .inr ⟨by linarith, by linarith⟩⟩
  · rcases Nat.mod_two_eq_zero_or_one n with heven | hodd
    · exact ⟨n, by linarith, by linarith, .inl heven⟩
    · refine ⟨n + 1, ?_, ?_, .inl (by omega)⟩ <;> push_cast <;> linarith
  · refine ⟨n + 1, ?_, ?_, .inr ⟨?_, ?_⟩⟩ <;> push_cast <;> linarith

/-- A rational that is not too small has full precision on the grid of some last place, if that is
not the least one. -/
theorem exists_place (hx : (2 : ℚ) ^ f.leastExponent ≤ x) :
    ∃ e, f.leastExponent ≤ e ∧ 1 ≤ x / 2 ^ e ∧ x / 2 ^ e < 2 * f.leadingBit ∧
      (f.leastExponent < e → (f.leadingBit : ℚ) ≤ x / 2 ^ e) := by
  have hpos : 0 < x := (zpow_pos two_pos _).trans_le hx
  obtain ⟨k, hlow, hhigh⟩ : ∃ k : ℤ, (2 : ℚ) ^ k ≤ x ∧ x < 2 ^ (k + 1) :=
    ⟨Int.log 2 x, Int.zpow_log_le_self (by decide) hpos, Int.lt_zpow_succ_log_self (by decide) x⟩
  have hone : (1 : ℚ) ≤ f.leadingBit := by exact_mod_cast f.leadingBit_pos
  -- Below the least exponent there are no further places: the number is subnormal.
  rcases le_or_gt (k - (f.precision - 1 : ℕ)) f.leastExponent with hsmall | hfull
  · refine ⟨f.leastExponent, le_rfl, ?_, ?_, fun hless => absurd hless (lt_irrefl _)⟩
    · rwa [one_le_div (zpow_pos two_pos _)]
    · rw [div_lt_iff₀ (zpow_pos two_pos _), mul_assoc, ← two_zpow_add_precision, mul_comm,
        ← zpow_add_one₀ two_ne_zero]
      exact hhigh.trans_le (zpow_le_zpow_right₀ one_le_two (by omega))
  · have hleading : (f.leadingBit : ℚ) ≤ x / 2 ^ (k - (f.precision - 1 : ℕ)) := by
      rwa [le_div_iff₀ (zpow_pos two_pos _), ← two_zpow_add_precision, sub_add_cancel]
    refine ⟨k - (f.precision - 1 : ℕ), hfull.le, hone.trans hleading, ?_, fun _ => hleading⟩
    rwa [div_lt_iff₀ (zpow_pos two_pos _), mul_assoc, ← two_zpow_add_precision, sub_add_cancel,
      mul_comm, ← zpow_add_one₀ two_ne_zero]

/-- Every rational that is not too small lies in the interval of a number. -/
theorem exists_mem (hprecision : 2 ≤ f.precision) (hx : (2 : ℚ) ^ f.leastExponent ≤ x) :
    ∃ m q, f.IsNumber m q ∧ (Decimal.Interval.of f m q).Mem x := by
  obtain ⟨e, he, hone, hfits, hleading⟩ := exists_place hx
  obtain ⟨n, hn⟩ := exists_roundsTo (zero_le_one.trans hone)
  have hlow := hn.low
  have hhigh := hn.high
  have hpos : 0 < n := by
    have : (0 : ℚ) < n := by linarith
    exact_mod_cast this
  have hle : n ≤ 2 * f.leadingBit := by
    have : (n : ℚ) < 2 * f.leadingBit + 1 := by linarith
    have : n < 2 * f.leadingBit + 1 := by exact_mod_cast this
    omega
  have hfull (hless : f.leastExponent < e) : f.leadingBit ≤ n := by
    have : (f.leadingBit : ℚ) < n + 1 := by linarith [hleading hless]
    have : f.leadingBit < n + 1 := by exact_mod_cast this
    omega
  rcases hle.lt_or_eq with hlt | rfl
  · have hbelow : (n : ℚ) - f.quarters n e / 4 ≤ x / 2 ^ e ∧
        (n % 2 ≠ 0 → (n : ℚ) - f.quarters n e / 4 < x / 2 ^ e) := by
      unfold quarters
      split
      case isTrue hleast =>
        have hleast : (n : ℚ) ≤ x / 2 ^ e := hleast.1 ▸ hleading hleast.2
        push_cast
        exact ⟨by linarith, fun _ => by linarith⟩
      case isFalse =>
        push_cast
        refine ⟨by linarith, fun hodd => ?_⟩
        linarith [(hn.tie.resolve_left hodd).1]
    refine ⟨n, e, ⟨hpos, hlt, he, hfull⟩, (mem_of_iff hpos).mpr ?_⟩
    split
    case isTrue => exact ⟨hbelow.1, hhigh⟩
    case isFalse hodd => exact ⟨hbelow.2 hodd, (hn.tie.resolve_left hodd).2⟩
  · -- The carry moves on to the next exponent, where a quarter of a last place is left below.
    have heven : f.leadingBit % 2 = 0 := by
      obtain ⟨p, hp⟩ : ∃ p, f.precision - 1 = p + 1 := ⟨f.precision - 2, by omega⟩
      rw [leadingBit, hp]
      exact Nat.mul_mod_left _ 2
    have hquarters : f.quarters f.leadingBit (e + 1) = 1 := if_pos ⟨rfl, by omega⟩
    have hhalf : x / 2 ^ (e + 1) = x / 2 ^ e / 2 := by
      rw [zpow_add_one₀ two_ne_zero, div_div]
    refine ⟨f.leadingBit, e + 1, ⟨f.leadingBit_pos, by omega, by omega, fun _ => le_rfl⟩,
      (mem_of_iff f.leadingBit_pos).mpr ?_⟩
    rw [if_pos heven, hquarters, hhalf]
    push_cast at hlow ⊢
    constructor <;> linarith

/-! ### Rounding to a finer format first -/

/-- The finer format has the ends of the intervals of the coarser one among its numbers. -/
theorem mem_of_even {g : BinaryFormat} {n : ℕ} {e : ℤ} (hwide : 4 * f.leadingBit < g.leadingBit)
    (hdeep : g.leastExponent ≤ f.leastExponent - 2) (h : f.IsNumber m q) (heven : m % 2 = 0)
    (hx : (Decimal.Interval.of f m q).Mem x) (hg : g.IsNumber n e)
    (hx' : (Decimal.Interval.of g n e).Mem x) :
    (Decimal.Interval.of f m q).Mem (n * 2 ^ e) := by
  have hpow : (0 : ℚ) < 2 ^ q := by positivity
  have hquarter : (2 : ℚ) ^ (q - 2) = 2 ^ q / 4 := by
    rw [zpow_sub₀ two_ne_zero]
    norm_num
  have hfits := h.fits
  have hleast := h.least
  have hquarters := f.quarters_le m q
  rw [mem_of_iff h.pos, if_pos heven, le_div_iff₀ hpow, div_le_iff₀ hpow] at hx ⊢
  constructor
  · have hend : ((4 * m - f.quarters m q : ℕ) : ℚ) * 2 ^ (q - 2)
        = (m - f.quarters m q / 4) * 2 ^ q := by
      rw [Nat.cast_sub (by have := h.pos; omega), hquarter]
      push_cast
      ring
    rw [← hend] at hx ⊢
    exact le_of_le_of_mem hg hx' (by omega) (by omega) hx.1
  · have hend : ((4 * m + 2 : ℕ) : ℚ) * 2 ^ (q - 2) = (m + 1 / 2) * 2 ^ q := by
      rw [hquarter]
      push_cast
      ring
    rw [← hend] at hx ⊢
    exact le_of_mem_of_le hg hx' (by omega) (by omega) hx.2

/-! ### Conversions -/

theorem convert_le (g : BinaryFormat) {bits : ℕ} (h : bits ≤ f.infinityBits) :
    f.convert g bits ≤ g.infinityBits := by
  rcases h.lt_or_eq with hlt | rfl
  · obtain ⟨m, q, hdecode, -⟩ := decode_of_lt hlt
    rw [convert, hdecode]
    exact (Nat.zero_add _).trans_le (g.nearest_le _ _)
  · have hdecode : f.decode f.infinityBits = .infinite false := by
      have hsign := f.infinityBits_lt_signBit
      simp [decode, Nat.mod_eq_of_lt hsign, hsign]
    rw [convert, hdecode]
    exact (Nat.zero_add _).le

/-- A number of the finer format is converted to the number whose interval it lies in. -/
theorem convert_of_mem {g : BinaryFormat} {n : ℕ} {e : ℤ} (h : f.IsNumber m q)
    (hfinite : f.pattern m q ≤ f.infinityBits) (hg : g.IsNumber n e)
    (hgfinite : g.pattern n e < g.infinityBits)
    (hmem : (Decimal.Interval.of f m q).Mem (n * 2 ^ e)) :
    g.convert f (g.pattern n e) = f.pattern m q := by
  have hratio : ((n * Nat.pow 2 e.toNat : ℕ) : ℚ) / (Nat.pow 2 (-e).toNat : ℕ) = n * 2 ^ e := by
    rw [Nat.cast_mul, mul_div_assoc, pow_toNat_div_pow_toNat_neg, Nat.cast_ofNat]
  rw [convert, decode_pattern hg hgfinite]
  refine (Nat.zero_add _).trans (nearest_of_mem h hfinite ?_ ?_ (by rwa [hratio]))
  · exact Nat.mul_pos hg.pos (Nat.pow_pos (by decide))
  · exact Nat.pow_pos (by decide)

/-- Every rational that is rounded to a finite four-byte number is first rounded to a finite
eight-byte number. -/
theorem exists_double_mem (h : single.IsNumber m q)
    (hfinite : single.pattern m q ≤ single.infinityBits) (heven : m % 2 = 0)
    (hx : (Decimal.Interval.of .single m q).Mem x) :
    ∃ n e, double.IsNumber n e ∧ double.pattern n e < double.infinityBits ∧
      (Decimal.Interval.of .double n e).Mem x ∧
      (Decimal.Interval.of .single m q).Mem (n * 2 ^ e) := by
  have hsingle : single.leastExponent = -149 ∧ single.leadingBit = 2 ^ 23 ∧
      single.infinityBits = 255 * 2 ^ 23 ∧ single.precision = 24 := by decide
  have hdouble : double.leastExponent = -1074 ∧ double.leadingBit = 2 ^ 52 ∧
      double.infinityBits = 2047 * 2 ^ 52 ∧ double.precision = 53 := by decide
  have hleast := h.least
  have hq : q ≤ 106 := by
    rw [pattern, hsingle.1, hsingle.2.1] at hfinite
    omega
  have hlarge : (2 : ℚ) ^ double.leastExponent ≤ x :=
    (zpow_le_zpow_right₀ one_le_two (by omega)).trans (two_zpow_le_of_mem h.pos hx)
  obtain ⟨n, e, hn, hmem⟩ := exists_mem (by omega) hlarge
  have hnear := mem_of_even (by omega) (by omega) h heven hx hn hmem
  refine ⟨n, e, hn, ?_, hmem, hnear⟩
  have hfits := hn.fits
  have he : e ≤ 78 := by
    by_contra hlt
    have hleading : (double.leadingBit : ℚ) ≤ n := by exact_mod_cast hn.leading (by omega)
    have hlow : (2 : ℚ) ^ (e + (double.precision - 1 : ℕ)) ≤ n * 2 ^ e := by
      rw [two_zpow_add_precision]
      gcongr
    have := (zpow_lt_zpow_iff_right₀ (one_lt_two (α := ℚ))).mp (hlow.trans_lt (lt_of_mem h hnear))
    omega
  rw [pattern, hdouble.1, hdouble.2.1]
  omega

end BinaryFormat

namespace Numeral

open BinaryFormat

/-- **A decimal is read as a four-byte number by way of an eight-byte one**: if the significand of
the number is even, every decimal of its interval is read as the number. -/
theorem convert_magnitudeBits {m : ℕ} {q : ℤ} {d : Decimal} (h : single.IsNumber m q)
    (hfinite : single.pattern m q ≤ single.infinityBits) (heven : m % 2 = 0)
    (hd : (Decimal.Interval.of .single m q).Mem d.value) :
    magnitudeBits .double d < double.infinityBits ∧
      double.convert .single (magnitudeBits .double d) = single.pattern m q := by
  obtain ⟨n, e, hn, hlt, hmem, hnear⟩ := exists_double_mem h hfinite heven hd
  rw [magnitudeBits_of_mem hn hlt.le hmem]
  exact ⟨hlt, convert_of_mem h hfinite hn hlt hnear⟩

end Numeral

end KernelTree
