import KernelTree.Operator.Folding
import KernelTree.Proofs.Value.Width

/-!
# Operators on small constants and on integers

What the operators of C mean on mathematical integers (`PrefixOp.onInteger?`,
`BinaryOp.onIntegers?`), and that computing with truth values and 32-bit constants gives the same,
as long as the result fits in 32 bits (`Represents.evaluateUnary`, `Represents.evaluateBinary`).
The results are reduced to 32 bits, and reducing changes nothing that fits.
-/

namespace KernelTree

/-- The meaning of a prefix operator on integers; none for those that compute nothing. -/
def PrefixOp.onInteger? (op : PrefixOp) (x : Int) : Option Int :=
  match op with
  | .not => some (truth (x = 0))
  | .positive => some x
  | .negative => some (-x)
  | .complement => some (-x - 1)
  | .increment => some (x + 1)
  | .decrement => some (x - 1)
  | _ => none

/-- The meaning of a binary operator on integers, where both sides have one. Division is toward
zero and has no meaning by zero, and a shift has none by a count outside of a word of 32 bits. -/
def BinaryOp.onIntegers? (op : BinaryOp) (x y : Int) : Option Int :=
  match op with
  | .mul => some (x * y)
  | .div => if y = 0 then none else some (x.tdiv y)
  | .mod => if y = 0 then none else some (x.tmod y)
  | .add => some (x + y)
  | .sub => some (x - y)
  | .shiftLeft => if 0 ≤ y ∧ y ≤ 31 then some (x * 2 ^ y.toNat) else none
  | .shiftRight => if 0 ≤ y ∧ y ≤ 31 then some (x / 2 ^ y.toNat) else none
  | .less => some (truth (x < y))
  | .lessEq => some (truth (x ≤ y))
  | .greater => some (truth (x > y))
  | .greaterEq => some (truth (x ≥ y))
  | .equal => some (truth (x = y))
  | .notEqual => some (truth (x ≠ y))
  | .bitAnd => some (Int.land x y)
  | .bitXor => some (Int.xor x y)
  | .bitOr => some (Int.lor x y)
  | .comma => some y
  | _ => none

/-- A truth value or a 32-bit constant stands for an integer. -/
inductive Represents : Value → Int → Prop
  | bool (b : Bool) : Represents (.bool b) (truth b)
  | int (n : Int32) : Represents (.int n) n.toInt

namespace Represents

variable {v w : Value} {x y z : Int}

/-! ### What such a constant is -/

/-- The integer that a value represents is found. -/
theorem integer? (h : Represents v x) : v.integer? = some x := by
  rcases h with b | n <;> rfl

/-- What represents an integer has 32 bits in operations. -/
theorem width (h : Represents v x) : v.width = 32 := by
  rcases h with b | n <;> rfl

/-- An integer of 32 bits fits into 64. -/
theorem toInt64? (h : Represents v x) : ∃ n, v.toInt64? = some n ∧ n.toInt = x :=
  Option.map_eq_some_iff.mp (Value.toInt64?_of_integer? h.integer?)

/-- All integers but zero count as true. -/
theorem toBool? (h : Represents v x) : v.toBool? = some (decide (x ≠ 0)) := by
  rcases h with b | n
  · exact congrArg some (truth_ne_zero b).symm
  · have hzero : (n != 0) = decide (n.toInt ≠ 0) := by
      rw [bne, Bool.beq_eq_decide_eq, ← decide_not]
      exact decide_eq_decide.mpr (Int32.toInt_inj (y := 0)).not.symm
    exact congrArg some hzero

/-- A word of 32 bits represents its integer. -/
theorem of_isWord (h : v.IsWord 32 z) : Represents v z := by
  cases h with
  | int n => exact .int n

/-- Reducing to 32 bits changes nothing that fits. -/
theorem of_bmod (h : v.IsWord 32 (z.bmod (2 ^ 32))) (hz : FitsInt z) : Represents v z := by
  obtain ⟨hlow, hhigh⟩ := hz
  rw [Int.bmod_eq_of_le (by omega) (by omega)] at h
  exact of_isWord h

/-- Operations on two of them stay at 32 bits. -/
theorem max_width (hv : Represents v x) (hw : Represents w y) : max v.width w.width = 32 := by
  rw [hv.width, hw.width, Nat.max_self]

/-! ### Operators -/

/-- Negation gives a truth value. -/
theorem not (hv : Represents v x) : Represents v.not (truth (x = 0)) := by
  rw [Value.not, hv.toBool?]
  have htruth : (!decide (x ≠ 0)) = decide (x = 0) := by simp
  simp only [htruth]
  exact .bool _

/-- A plus sign changes nothing. -/
theorem positive (hv : Represents v x) : Represents v.positive x := by
  rcases hv with b | n
  · cases b
    · exact .int 0
    · exact .int 1
  · exact .int n

/-- A quotient that fits is cut towards zero. -/
theorem div (hv : Represents v x) (hw : Represents w y) (hy : y ≠ 0) (hz : FitsInt (x.tdiv y)) :
    Represents (v.div w) (x.tdiv y) := by
  have hword := Value.isWord_div hv.integer? hw.integer? (Value.not_gap_of_fits hy hz)
  rw [hv.max_width hw] at hword
  exact of_bmod hword hz

/-- A remainder has the sign of the dividend, and always fits. -/
theorem mod (hv : Represents v x) (hw : Represents w y) (hy : y ≠ 0) :
    Represents (v.mod w) (x.tmod y) := by
  have hx := Value.width_of_integer? hv.integer?
  have hwidth := hv.width
  have hword := Value.isWord_mod hv.integer? hw.integer? (by omega)
  rw [hv.max_width hw] at hword
  exact of_isWord hword

/-! ### All operators -/

/-- Prefix operators mean on constants what they mean on integers. -/
theorem evaluateUnary {op : PrefixOp} (hv : Represents v x) (hop : op.onInteger? x = some z)
    (hz : FitsInt z) : Represents ((Operator.pre op).evaluateUnary v) z := by
  have hfolds := Value.unaryModulo hv.integer?
  rw [hv.width] at hfolds
  cases op <;> cases hop
  case not => exact hv.not
  case positive => exact hv.positive
  case negative => exact of_bmod hfolds.negative hz
  case complement => exact of_bmod hfolds.complement hz
  case increment => exact of_bmod hfolds.increment hz
  case decrement => exact of_bmod hfolds.decrement hz

/-- Binary operators that need both their sides mean on constants what they mean on integers. -/
theorem evaluateBinary {op : BinaryOp} (hv : Represents v x) (hw : Represents w y)
    (hop : op.onIntegers? x y = some z) (hz : FitsInt z) :
    Represents ((Operator.binary op).evaluateBinary v w) z := by
  have hfolds := Value.binaryModulo hv.integer? hw.integer?
  rw [hv.max_width hw] at hfolds
  have hbool {u : Value} {p : Prop} [Decidable p] (h : u = .bool (decide p)) :
      Represents u (truth p) := by
    rw [h]
    exact .bool _
  cases op
  case div =>
    obtain ⟨hy, heq⟩ := Option.ite_none_left_eq_some.mp hop
    obtain rfl := Option.some.inj heq
    exact hv.div hw hy hz
  case mod =>
    obtain ⟨hy, heq⟩ := Option.ite_none_left_eq_some.mp hop
    obtain rfl := Option.some.inj heq
    exact hv.mod hw hy
  case shiftLeft =>
    obtain ⟨⟨h0, h31⟩, heq⟩ := Option.ite_none_right_eq_some.mp hop
    obtain rfl := Option.some.inj heq
    exact of_bmod (hfolds.shiftLeft h0 (by omega)) hz
  case shiftRight =>
    obtain ⟨⟨h0, h31⟩, heq⟩ := Option.ite_none_right_eq_some.mp hop
    obtain rfl := Option.some.inj heq
    exact of_isWord (hfolds.shiftRight h0 (by omega))
  -- The others have a result for all operands.
  all_goals cases hop
  case mul => exact of_bmod hfolds.mul hz
  case add => exact of_bmod hfolds.add hz
  case sub => exact of_bmod hfolds.sub hz
  case bitAnd => exact of_bmod hfolds.bitAnd hz
  case bitXor => exact of_bmod hfolds.bitXor hz
  case bitOr => exact of_bmod hfolds.bitOr hz
  case comma => exact hw
  case less => exact hbool hfolds.less
  case lessEq => exact hbool hfolds.lessEq
  case greater => exact hbool hfolds.greater
  case greaterEq => exact hbool hfolds.greaterEq
  case equal => exact hbool hfolds.equal
  case notEqual => exact hbool hfolds.notEqual

end Represents

end KernelTree
