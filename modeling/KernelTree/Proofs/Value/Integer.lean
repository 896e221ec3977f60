import KernelTree.Proofs.Value.Word

/-!
# Constants that are integers

Truth values and numbers of 32 and of 64 bits are integers (`Value.integer?`); floating-point
numbers count as one where an integer is asked for (`Value.truncated?`). Two integers are brought to
the wider of their widths, and comparing them there is exact.
-/

namespace KernelTree

/-- A truth value as an integer. -/
def truth (b : Bool) : Int := if b then 1 else 0

theorem truth_ne_zero (b : Bool) : decide (truth b ≠ 0) = b := by cases b <;> rfl

/-- Truth values fit into 32 bits. -/
theorem fitsInt_truth (b : Bool) : FitsInt (truth b) := by cases b <;> simp [FitsInt, truth]

namespace Value

/-- The integer that a constant is; floating-point numbers are none. -/
def integer? : Value → Option Int
  | bool b => some (truth b)
  | int n => some n.toInt
  | long n => some n.toInt
  | _ => none

variable {v w : Value} {x y z : Int}

/-- An integer stays itself when it is widened. -/
theorem toInt64?_of_integer? (h : v.integer? = some x) : v.toInt64?.map Int64.toInt = some x := by
  cases v with
  | bool b =>
    obtain rfl := Option.some.inj h
    cases b <;> rfl
  | int n =>
    obtain rfl := Option.some.inj h
    exact congrArg some n.toInt_toInt64
  | long n => exact h
  | _ => cases h

/-! ### Numbers with a fraction -/

section

open Float.Model UnpackedFloat

/-- The number without its fraction; not-a-number is zero, the infinities lie beyond all words. -/
def wholePart : UnpackedFloat → Int
  | .finite s m e _ => s.apply (m * 2 ^ e.toNat / 2 ^ (-e).toNat : Nat)
  | .infinity s => s.apply (2 ^ 63)
  | .zero _ => 0
  | .notANumber => 0

theorem mantissa_shiftRight (m : ExtendedMantissa) (n : Nat) :
    (m >>> n).mantissa = m.mantissa / 2 ^ n := by
  induction n with
  | zero => exact (Nat.div_one _).symm
  | succ n ih =>
    have hstep : (m >>> (n + 1)).mantissa = (m >>> n).mantissa / 2 := rfl
    rw [hstep, ih, Nat.div_div_eq_div_mul, Nat.pow_succ]

/-- Rounding a number cuts its magnitude. -/
theorem roundToInt_eq (s : Sign) (m : Nat) (e : Int) :
    roundToInt s m e = s.apply (m * 2 ^ e.toNat / 2 ^ (-e).toNat : Nat) := by
  have hexponent : (0 - (e - (e - 0).toNat)).toNat = (-e).toNat := by omega
  have hmantissa : ((ExtendedMantissa.ofMantissaAndAccuracy (m <<< (e - 0).toNat) .exact)
      >>> (0 - (e - (e - 0).toNat)).toNat).mantissa = m * 2 ^ e.toNat / 2 ^ (-e).toNat := by
    rw [mantissa_shiftRight, hexponent, Int.sub_zero]
    exact congrArg (· / _) (Nat.shiftLeft_eq _ _)
  exact congrArg (fun n : Nat => s.apply n) hmantissa

/-- A number as a word is its whole part, or the end of the range that lies on its side. -/
theorem toInt_toInt64 (u : UnpackedFloat) :
    u.toInt64.toInt = max (-2 ^ 63) (min (wholePart u) (2 ^ 63 - 1)) := by
  have hclamp (z : Int) : (Int64.ofIntClamp z).toInt = max (-2 ^ 63) (min z (2 ^ 63 - 1)) := by
    have hmin : Int64.minValue.toInt = -2 ^ 63 := rfl
    have hmax : Int64.maxValue.toInt = 2 ^ 63 - 1 := rfl
    unfold Int64.ofIntClamp
    split
    · split
      · rw [Int64.toInt_ofIntLE]
        omega
      · omega
    · omega
  cases u with
  | finite s m e hm =>
    have hword := hclamp (roundToInt s m e)
    have hwhole : roundToInt s m e = wholePart (.finite s m e hm) := roundToInt_eq s m e
    exact hword.trans (congrArg (fun z => max (-2 ^ 63) (min z (2 ^ 63 - 1))) hwhole)
  | infinity s => cases s <;> rfl
  | zero s => rfl
  | notANumber => rfl

/-- The integer that a constant counts as where one is asked for. -/
def truncated? : Value → Option Int
  | float x => some (max (-2 ^ 63) (min (wholePart x.toModel.unpack) (2 ^ 63 - 1)))
  | double x => some (max (-2 ^ 63) (min (wholePart x.toModel.unpack) (2 ^ 63 - 1)))
  | v => v.integer?

/-- Widened to 64 bits, every value that is not undefined is cut off to an integer. -/
theorem map_toInt64? (v : Value) : v.toInt64?.map Int64.toInt = v.truncated? := by
  cases v with
  | undefined => rfl
  | float x => exact congrArg some (toInt_toInt64 x.toModel.unpack)
  | double x => exact congrArg some (toInt_toInt64 x.toModel.unpack)
  | _ => exact toInt64?_of_integer? rfl

/-- An integer counts as itself. -/
theorem truncated?_of_integer? (h : v.integer? = some x) : v.truncated? = some x := by
  cases v with
  | float x => cases h
  | double x => cases h
  | _ => exact h

end

/-! ### Computing with integers -/

/-- The bits that a constant takes part in arithmetic with; a truth value has those of a number. -/
def width : Value → Nat
  | bool _ => 32
  | int _ => 32
  | long _ => 64
  | _ => 0

/-- An integer is in the range of its width. -/
theorem width_of_integer? (h : v.integer? = some x) :
    (v.width = 32 ∧ -2 ^ 31 ≤ x ∧ x < 2 ^ 31) ∨ (v.width = 64 ∧ -2 ^ 63 ≤ x ∧ x < 2 ^ 63) := by
  cases v with
  | bool b =>
    obtain rfl := Option.some.inj h
    exact .inl ⟨rfl, fitsInt_truth b⟩
  | int n =>
    obtain rfl := Option.some.inj h
    exact .inl ⟨rfl, n.le_toInt, n.toInt_lt⟩
  | long n =>
    obtain rfl := Option.some.inj h
    exact .inr ⟨rfl, n.le_toInt, n.toInt_lt⟩
  | _ => cases h

/-- Integers are brought to the wider of their widths. -/
theorem convert?_of_integer? (hv : v.integer? = some x) (hw : w.integer? = some y) :
    ∃ isLong m n, v.convert? w = some (.integers isLong m n) ∧ m.toInt = x ∧ n.toInt = y ∧
      max v.width w.width = if isLong then 64 else 32 := by
  obtain ⟨m, hm, hx⟩ := Option.map_eq_some_iff.mp (toInt64?_of_integer? hv)
  obtain ⟨n, hn, hy⟩ := Option.map_eq_some_iff.mp (toInt64?_of_integer? hw)
  have hrank : ∀ {v : Value} {x : Int}, v.integer? = some x →
      (v.rank? = some .int ∧ v.width = 32) ∨ (v.rank? = some .long ∧ v.width = 64) := by
    intro v x h
    cases v with
    | bool b => exact .inl ⟨rfl, rfl⟩
    | int n => exact .inl ⟨rfl, rfl⟩
    | long n => exact .inr ⟨rfl, rfl⟩
    | _ => cases h
  rcases hrank hv with ⟨hv, hv'⟩ | ⟨hv, hv'⟩ <;> rcases hrank hw with ⟨hw, hw'⟩ | ⟨hw, hw'⟩ <;>
    rw [hv', hw'] <;>
    exact ⟨_, m, n, by simp [convert?, hv, hw, hm, hn, Rank.max, Rank.height]; rfl, hx, hy, rfl⟩

/-- Integers of either width are compared as integers. -/
theorem compare_of_integer? {f : Int64 → Int64 → Bool} {g : Float → Float → Bool} {b : Bool}
    (hv : v.integer? = some x) (hw : w.integer? = some y)
    (hf : ∀ m n : Int64, m.toInt = x → n.toInt = y → f m n = b) : compare f g v w = bool b := by
  obtain ⟨isLong, m, n, hconvert, hm, hn, -⟩ := convert?_of_integer? hv hw
  rw [compare, hconvert, ← hf m n hm hn]

end Value

end KernelTree
