import KernelTree.Value.Arithmetic
import Mathlib.Data.Int.Bitwise

/-!
# Words of 64 bits as integers

What the operations on 64-bit words give, read as integers. The bitwise operations are exact: a
negative integer has infinitely many ones on the left, and a word has its sign there. A shift to the
left loses what is pushed out of the word; division and shifts leave gaps.
-/

namespace KernelTree

/-- The integers that fit in 32 bits with a sign. -/
def FitsInt (n : Int) : Prop := -2 ^ 31 ≤ n ∧ n < 2 ^ 31

/-- Whether an integer fits can be computed. -/
instance (n : Int) : Decidable (FitsInt n) := inferInstanceAs (Decidable (_ ∧ _))

namespace Word

/-! ### Bits -/

section

variable {w : Nat} {x y : BitVec w}

/-- A word without sign is the number that its bits spell. -/
theorem toInt_of_not_msb (h : x.msb = false) : x.toInt = Int.ofNat x.toNat := by
  rw [BitVec.toInt_eq_msb_cond, h]
  rfl

/-- A word with a sign is told by the bits that it has not. -/
theorem toInt_of_msb (h : x.msb = true) : x.toInt = Int.negSucc (~~~x).toNat := by
  have hx := x.isLt
  have hsub : ((2 ^ w - 1 - x.toNat : Nat) : Int) = (2 ^ w : Nat) - 1 - x.toNat := by omega
  rw [BitVec.toInt_eq_msb_cond, h, if_pos rfl, Int.negSucc_eq, BitVec.toNat_not, hsub]
  omega

/-- The bits of one word that another has not. -/
theorem toNat_and_eq_ldiff (x y : BitVec w) : (x &&& y).toNat = Nat.ldiff x.toNat (~~~y).toNat := by
  refine Nat.eq_of_testBit_eq fun i => ?_
  rw [Nat.testBit_ldiff, BitVec.testBit_toNat, BitVec.testBit_toNat, BitVec.testBit_toNat]
  by_cases hi : i < w
  · simp [hi]
  · simp [BitVec.getLsbD_of_ge x i (by omega)]

/-- The conjunction of words is that of their integers. -/
theorem toInt_and (x y : BitVec w) : (x &&& y).toInt = Int.land x.toInt y.toInt := by
  cases hx : x.msb <;> cases hy : y.msb
  · rw [toInt_of_not_msb (by simp [hx]), toInt_of_not_msb hx, toInt_of_not_msb hy,
      BitVec.toNat_and]
    rfl
  · rw [toInt_of_not_msb (by simp [hx]), toInt_of_not_msb hx, toInt_of_msb hy,
      toNat_and_eq_ldiff]
    rfl
  · rw [toInt_of_not_msb (by simp [hy]), toInt_of_msb hx, toInt_of_not_msb hy, BitVec.and_comm,
      toNat_and_eq_ldiff]
    rfl
  · rw [toInt_of_msb (by simp [hx, hy]), toInt_of_msb hx, toInt_of_msb hy, BitVec.not_and,
      BitVec.toNat_or]
    rfl

/-- The disjunction of words is that of their integers. -/
theorem toInt_or (x y : BitVec w) : (x ||| y).toInt = Int.lor x.toInt y.toInt := by
  cases hx : x.msb <;> cases hy : y.msb
  · rw [toInt_of_not_msb (by simp [hx, hy]), toInt_of_not_msb hx, toInt_of_not_msb hy,
      BitVec.toNat_or]
    rfl
  · rw [toInt_of_msb (by simp [hy]), toInt_of_not_msb hx, toInt_of_msb hy, BitVec.not_or,
      BitVec.and_comm, toNat_and_eq_ldiff, BitVec.not_not]
    rfl
  · rw [toInt_of_msb (by simp [hx]), toInt_of_msb hx, toInt_of_not_msb hy, BitVec.not_or,
      toNat_and_eq_ldiff, BitVec.not_not]
    rfl
  · rw [toInt_of_msb (by simp [hx]), toInt_of_msb hx, toInt_of_msb hy, BitVec.not_or,
      BitVec.toNat_and]
    rfl

/-- The exclusive disjunction of words is that of their integers. -/
theorem toInt_xor (x y : BitVec w) : (x ^^^ y).toInt = Int.xor x.toInt y.toInt := by
  cases hx : x.msb <;> cases hy : y.msb
  · rw [toInt_of_not_msb (by simp [hx, hy]), toInt_of_not_msb hx, toInt_of_not_msb hy,
      BitVec.toNat_xor]
    rfl
  · rw [toInt_of_msb (by simp [hx, hy]), toInt_of_not_msb hx, toInt_of_msb hy,
      BitVec.not_xor_right, BitVec.toNat_xor]
    rfl
  · rw [toInt_of_msb (by simp [hx, hy]), toInt_of_msb hx, toInt_of_not_msb hy,
      BitVec.not_xor_left, BitVec.toNat_xor]
    rfl
  · have hnot : x ^^^ y = ~~~x ^^^ ~~~y := by
      rw [← BitVec.not_xor_left, ← BitVec.not_xor_right, BitVec.not_not]
    rw [toInt_of_not_msb (by simp [hx, hy]), toInt_of_msb hx, toInt_of_msb hy, hnot,
      BitVec.toNat_xor]
    rfl

end

variable {m n : Int64}

theorem toInt_land (m n : Int64) : (m &&& n).toInt = Int.land m.toInt n.toInt :=
  toInt_and m.toBitVec n.toBitVec

theorem toInt_lor (m n : Int64) : (m ||| n).toInt = Int.lor m.toInt n.toInt :=
  toInt_or m.toBitVec n.toBitVec

theorem toInt_lxor (m n : Int64) : (m ^^^ n).toInt = Int.xor m.toInt n.toInt :=
  toInt_xor m.toBitVec n.toBitVec

/-! ### Gaps -/

/-- The words that have no quotient. -/
theorem divisionGap_iff :
    (n = 0 ∨ (m = Int64.minValue ∧ n = -1)) ↔
      n.toInt = 0 ∨ (m.toInt = -2 ^ 63 ∧ n.toInt = -1) := by
  rw [← Int64.toInt_inj, ← Int64.toInt_inj, ← Int64.toInt_inj]
  exact Iff.rfl

/-- A word of 64 bits is shifted by 0 to 63. -/
theorem isShiftCount_iff : Value.isShiftCount n = true ↔ 0 ≤ n.toInt ∧ n.toInt < 64 := by
  rw [Value.isShiftCount, Bool.and_eq_true, decide_eq_true_eq, decide_eq_true_eq]

/-! ### Shifts -/

/-- A count of bits is taken as it is. -/
theorem toNat_smod_of_lt (h0 : 0 ≤ n.toInt) (h : n.toInt < 64) :
    (n.toBitVec.smod 64).toNat = n.toInt.toNat := by
  have hsmod : (n.toBitVec.smod 64).toInt = n.toInt := by
    rw [BitVec.toInt_smod, Int64.toInt_toBitVec]
    exact Int.fmod_eq_of_lt h0 h
  have hlt := (n.toBitVec.smod 64).isLt
  rw [BitVec.toInt_eq_toNat_cond] at hsmod
  split at hsmod <;> omega

/-- A shift to the left multiplies, and what is pushed out of the word is lost. -/
theorem toInt_shiftLeft (h0 : 0 ≤ n.toInt) (h : n.toInt < 64) :
    (m <<< n).toInt = (m.toInt * 2 ^ n.toInt.toNat).bmod (2 ^ 64) := by
  have hword : (m <<< n).toBitVec = m.toBitVec <<< n.toInt.toNat := by
    rw [← toNat_smod_of_lt h0 h]
    rfl
  have hm : m.toInt = (m.toBitVec.toNat : Int).bmod (2 ^ 64) := m.toBitVec.toInt_eq_toNat_bmod
  rw [← Int64.toInt_toBitVec, hword, BitVec.toInt_shiftLeft, Nat.shiftLeft_eq, hm,
    Int.bmod_mul_bmod]
  push_cast
  rfl

/-- A shift to the right divides and rounds down. -/
theorem toInt_shiftRight (h0 : 0 ≤ n.toInt) (h : n.toInt < 64) :
    (m >>> n).toInt = m.toInt / 2 ^ n.toInt.toNat := by
  have hword : (m >>> n).toBitVec = m.toBitVec.sshiftRight n.toInt.toNat := by
    rw [← toNat_smod_of_lt h0 h]
    rfl
  rw [← Int64.toInt_toBitVec, hword, BitVec.toInt_sshiftRight, Int.shiftRight_eq_div_pow,
    Int64.toInt_toBitVec]
  norm_cast

end Word

end KernelTree
