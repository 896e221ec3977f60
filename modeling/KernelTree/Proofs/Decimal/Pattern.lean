import Mathlib
import KernelTree.Proofs.Decimal.Nearest

/-!
# Patterns of floating-point numbers

A pattern below that of infinity is that of one number: its fields are taken apart and put together
again (`Pattern.pack_unpack`). So numbers of eight and of four bytes can be exchanged for their
patterns (`Pattern.toBits_ofBits`, `Pattern.ofBits_toBits` and the like for four bytes).
-/

namespace KernelTree

namespace Pattern

open Float.Model Float.Model.UnpackedFloat

/-! ### Fields -/

variable {spec : Format} {b : BitVec spec.numBits}

/-- The lowest bits of a pattern are the field of the significand. -/
theorem toNat_unpackMantissa (b : BitVec spec.numBits) :
    (unpackMantissa b).toNat = b.toNat % 2 ^ spec.mantissaBitsWithoutImplicit := by
  have := spec.hm
  simp [unpackMantissa, Nat.sub_add_cancel this]

/-- The field of the exponent stands above that of the significand. -/
theorem toNat_unpackExponent (b : BitVec spec.numBits) : (unpackExponent b).toNat
    = b.toNat / 2 ^ spec.mantissaBitsWithoutImplicit % 2 ^ spec.exponentBits := by
  have hwidth : spec.mantissaBitsWithoutImplicit + spec.exponentBits - 1
      - spec.mantissaBitsWithoutImplicit + 1 = spec.exponentBits := by
    have := spec.he
    omega
  simp [unpackExponent, Nat.shiftRight_eq_div_pow, hwidth]

/-- A pattern that fits below the sign bit is that of no negative number. -/
theorem unpackSign_eq_zero
    (h : b.toNat < 2 ^ (spec.mantissaBitsWithoutImplicit + spec.exponentBits)) :
    unpackSign b = 0#1 := by
  apply BitVec.eq_of_toNat_eq
  simp [unpackSign, Nat.shiftRight_eq_div_pow, Nat.div_eq_of_lt h]

/-- Put together, the two fields of a number that is not negative are its pattern. -/
theorem toNat_packComponents (e : BitVec spec.exponentBits)
    (m : BitVec spec.mantissaBitsWithoutImplicit) : (packComponents spec .positive e m).toNat
      = e.toNat * 2 ^ spec.mantissaBitsWithoutImplicit + m.toNat := by
  simp only [packComponents, Sign.toBitVec, BitVec.toNat_append]
  rw [← Nat.shiftLeft_add_eq_or_of_lt m.isLt]
  simp [Nat.shiftLeft_eq]

section

variable {m : ℕ} {e : ℤ}

/-- A number below the least normal one has the field zero for its exponent, and its significand is
the whole pattern. -/
theorem toNat_pack_subnormal (hwidth : 2 ≤ spec.exponentBits) (hpos : 0 < m)
    (hm : m < 2 ^ spec.mantissaBitsWithoutImplicit)
    (he : e = 1 - (spec.exponentBias + spec.mantissaBitsWithoutImplicit : ℕ)) :
    (UnpackedFloat.pack spec (.finite .positive m e hpos)).toNat = m := by
  have hlog : m.log2 < spec.mantissaBitsWithoutImplicit := (Nat.log2_lt hpos.ne').mpr hm
  -- Packing shifts the exponent to one and takes it for subnormal by the length of the significand.
  have hfield : (e + spec.exponentBias + spec.mantissaBitsWithoutImplicit).toNat = 1 := by omega
  have hfour : 2 ^ 2 ≤ 2 ^ spec.exponentBits := Nat.pow_le_pow_right (by decide) hwidth
  simp only [UnpackedFloat.pack]
  rw [hfield, if_neg (by omega), if_neg, toNat_packComponents]
  · simp [Nat.mod_eq_of_lt hm]
  · rw [Format.mantissaBits]
    omega

/-- A normal number hides the leading one of its significand; the field of its exponent counts from
the bias. -/
theorem toNat_pack_normal {field : ℕ} (hpos : 0 < m)
    (hlow : 2 ^ spec.mantissaBitsWithoutImplicit ≤ m)
    (hhigh : m < 2 ^ (spec.mantissaBitsWithoutImplicit + 1))
    (hfield : field + 1 < 2 ^ spec.exponentBits)
    (he : e = field - (spec.exponentBias + spec.mantissaBitsWithoutImplicit : ℕ)) :
    (UnpackedFloat.pack spec (.finite .positive m e hpos)).toNat
      = field * 2 ^ spec.mantissaBitsWithoutImplicit
        + m % 2 ^ spec.mantissaBitsWithoutImplicit := by
  have hlog : m.log2 = spec.mantissaBitsWithoutImplicit := by
    have := (Nat.log2_lt hpos.ne').mpr hhigh
    have := (Nat.le_log2 hpos.ne').mpr hlow
    omega
  have hbiased : (e + spec.exponentBias + spec.mantissaBitsWithoutImplicit).toNat = field := by
    omega
  simp only [UnpackedFloat.pack]
  rw [hbiased, if_neg (by omega), if_pos, toNat_packComponents]
  · simp [Nat.mod_eq_of_lt (show field < 2 ^ spec.exponentBits by omega)]
  · rw [Format.mantissaBits]
    omega

end

/-- The pattern of a positive finite number is that of its fields. -/
theorem pack_unpack (hwidth : 2 ≤ spec.exponentBits)
    (h : b.toNat < (2 ^ spec.exponentBits - 1) * 2 ^ spec.mantissaBitsWithoutImplicit) :
    UnpackedFloat.pack spec (UnpackedFloat.unpack spec b) = b := by
  have hunit : 0 < 2 ^ spec.mantissaBitsWithoutImplicit := Nat.two_pow_pos _
  have hbelow : b.toNat / 2 ^ spec.mantissaBitsWithoutImplicit < 2 ^ spec.exponentBits - 1 :=
    (Nat.div_lt_iff_lt_mul hunit).mpr h
  have hmantissa := toNat_unpackMantissa b
  have hexponent := toNat_unpackExponent b
  rw [Nat.mod_eq_of_lt (by omega)] at hexponent
  -- The two fields make up the pattern, since the sign bit is not set.
  have hsplit := Nat.div_add_mod b.toNat (2 ^ spec.mantissaBitsWithoutImplicit)
  rw [← hmantissa, ← hexponent, Nat.mul_comm] at hsplit
  have hsign : Sign.ofBitVec (unpackSign b) = .positive := by
    rw [Sign.ofBitVec, if_pos (unpackSign_eq_zero (lt_of_lt_of_le h ?_))]
    rw [Nat.pow_add, Nat.mul_comm]
    exact Nat.mul_le_mul_left _ (Nat.sub_le _ _)
  -- A field of ones would be infinity or no number, and the pattern lies below.
  have hfinite : unpackExponent b ≠ -1#_ := by
    intro heq
    have htop := congrArg BitVec.toNat heq
    have hother : (2 ^ spec.exponentBits - 1) % 2 ^ spec.exponentBits = 2 ^ spec.exponentBits - 1 :=
      Nat.mod_eq_of_lt (by have := Nat.two_pow_pos spec.exponentBits; omega)
    simp [hexponent, BitVec.neg_one_eq_allOnes] at htop
    omega
  have hlt := (unpackMantissa b).isLt
  apply BitVec.eq_of_toNat_eq
  rw [← hsplit]
  unfold UnpackedFloat.unpack
  dsimp only
  -- A field of zero is that of the subnormal numbers, which have no leading one.
  rw [if_neg hfinite, hsign]
  split
  case isTrue hzero =>
    have hfield : (unpackExponent b).toNat = 0 := by simp [hzero]
    rw [hfield, Nat.zero_mul, Nat.zero_add]
    split
    case isTrue hnone =>
      simp [UnpackedFloat.pack, packedZero, toNat_packComponents, hnone]
    case isFalse =>
      exact toNat_pack_subnormal hwidth _ hlt (by push_cast; ring)
  case isFalse hsome =>
    -- The one that is not stored comes back in front of the significand.
    have hleading : (1#1 ++ unpackMantissa b).toNat
        = 2 ^ spec.mantissaBitsWithoutImplicit + (unpackMantissa b).toNat := by
      rw [BitVec.toNat_append, ← Nat.shiftLeft_add_eq_or_of_lt (unpackMantissa b).isLt]
      simp [Nat.shiftLeft_eq]
    refine (toNat_pack_normal _ ?_ ?_ ?_ (by push_cast; rfl)).trans ?_
    · omega
    · rw [Nat.pow_succ]
      omega
    · omega
    · rw [hleading, Nat.add_mod_left, Nat.mod_eq_of_lt hlt]

/-! ### Numbers and their patterns -/

/-- A pattern below that of infinity is kept by the number of eight bytes that it stands for. -/
theorem toBits_ofBits {n : UInt64} (h : n.toNat < BinaryFormat.double.infinityBits) :
    (Float.ofBits n).toBits = n := by
  have hbits : UnpackedFloat.pack .binary64 (UnpackedFloat.unpack .binary64 n.toBitVec)
      = n.toBitVec := pack_unpack (by decide) h
  exact congrArg UInt64.ofBitVec hbits

/-- Numbers of eight bytes are equal if their patterns are. -/
theorem toBits_inj {x y : Float} (h : x.toBits = y.toBits) : x = y := by
  obtain ⟨⟨n, hn⟩⟩ := x
  obtain ⟨⟨n', hn'⟩⟩ := y
  obtain rfl : n = n' := h
  rfl

/-- A positive finite number of eight bytes is found again from its pattern. -/
theorem ofBits_toBits {x : Float} (h : x.toBits.toNat < BinaryFormat.double.infinityBits) :
    Float.ofBits x.toBits = x := toBits_inj (toBits_ofBits h)

/-- A pattern below that of infinity is kept by the number of four bytes that it stands for. -/
theorem toBits_ofBits32 {n : UInt32} (h : n.toNat < BinaryFormat.single.infinityBits) :
    (Float32.ofBits n).toBits = n := by
  have hbits : UnpackedFloat.pack .binary32 (UnpackedFloat.unpack .binary32 n.toBitVec)
      = n.toBitVec := pack_unpack (by decide) h
  exact congrArg UInt32.ofBitVec hbits

/-- Numbers of four bytes are equal if their patterns are. -/
theorem toBits_inj32 {x y : Float32} (h : x.toBits = y.toBits) : x = y := by
  obtain ⟨⟨n, hn⟩⟩ := x
  obtain ⟨⟨n', hn'⟩⟩ := y
  obtain rfl : n = n' := h
  rfl

/-- A positive finite number of four bytes is found again from its pattern. -/
theorem ofBits_toBits32 {x : Float32} (h : x.toBits.toNat < BinaryFormat.single.infinityBits) :
    Float32.ofBits x.toBits = x := toBits_inj32 (toBits_ofBits32 h)

end Pattern

end KernelTree
