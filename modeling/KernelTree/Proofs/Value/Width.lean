import KernelTree.Proofs.Value.Integer

/-!
# Integers modulo their width

All integer work is done in 64 bits and cut to the wider width of the operands. Cutting commutes
with the operations, so a result is the exact one reduced to the range of that width
(`Value.folds_modulo`). Division and remainder belong together at every width, and what has no
quotient in 64 bits has neither (`Value.div_mod_law`).
-/

namespace KernelTree

namespace Value

variable {v w : Value} {x y z : Int}

/-- The constant is a number of this many bits, and the number is `z`. -/
inductive IsWord : Value → Nat → Int → Prop
  | int (n : Int32) : IsWord (int n) 32 n.toInt
  | long (n : Int64) : IsWord (long n) 64 n.toInt

namespace IsWord

variable {b : Nat}

/-- The integer of a word is found. -/
theorem integer? (h : v.IsWord b z) : v.integer? = some z := by cases h <;> rfl

/-- The width of a word is found. -/
theorem width (h : v.IsWord b z) : v.width = b := by cases h <;> rfl

/-- A word is a value. -/
theorem ne_undefined (h : v.IsWord b z) : v ≠ undefined := by cases h <;> simp

/-- A number of 32 bits that a 32-bit operation gives. -/
theorem of_int {n : Int32} (h : n.toInt = z) : (Value.int n).IsWord 32 z := h ▸ .int n

/-- A number of 64 bits is a word. -/
theorem of_long {n : Int64} (h : n.toInt = z) : (Value.long n).IsWord 64 z := h ▸ .long n

end IsWord

/-! ### Cutting -/

/-- Cutting to 32 bits what was reduced to 64 leaves what reducing to 32 at once would. -/
theorem isWord_ofInteger {n : Int64} (h : n.toInt = z.bmod (2 ^ 64)) (isLong : Bool) :
    (ofInteger isLong n).IsWord (if isLong then 64 else 32)
      (z.bmod (2 ^ if isLong then 64 else 32)) := by
  cases isLong with
  | true => exact .of_long h
  | false =>
    have hcut : n.toInt32.toInt = z.bmod (2 ^ 32) := by
      rw [Int64.toInt_toInt32, h, Int.bmod_bmod_of_dvd (by decide)]
    exact .of_int hcut

section

variable (hv : v.integer? = some x) (hw : w.integer? = some y)
include hv hw

/-- An operation that is right modulo 2⁶⁴ on words is right modulo the width on constants. -/
theorem isWord_arithmetic {f : Int64 → Int64 → Option Int64} {g : Float → Float → Option Float}
    (hf : ∀ m n : Int64, m.toInt = x → n.toInt = y → ∃ k, f m n = some k ∧
      k.toInt = z.bmod (2 ^ 64)) :
    (arithmetic f g v w).IsWord (max v.width w.width) (z.bmod (2 ^ max v.width w.width)) := by
  obtain ⟨isLong, m, n, hconvert, hm, hn, hwidth⟩ := convert?_of_integer? hv hw
  obtain ⟨k, hk, hz⟩ := hf m n hm hn
  rw [arithmetic, hconvert, hwidth]
  simp only [hk, Option.map_some, Option.getD_some]
  exact isWord_ofInteger hz isLong

/-- Where the words have no result, the constants have none. -/
theorem arithmetic_eq_undefined {f : Int64 → Int64 → Option Int64}
    {g : Float → Float → Option Float}
    (hf : ∀ m n : Int64, m.toInt = x → n.toInt = y → f m n = none) :
    arithmetic f g v w = undefined := by
  obtain ⟨isLong, m, n, hconvert, hm, hn, -⟩ := convert?_of_integer? hv hw
  rw [arithmetic, hconvert]
  simp only [hf m n hm hn, Option.map_none, Option.getD_none]

/-- What lies between an operand and zero is in the range of the wider width. -/
theorem bmod_width (hz : min x 0 ≤ z ∧ z ≤ max x 0) : z.bmod (2 ^ max v.width w.width) = z := by
  have hx := width_of_integer? hv
  have hy := width_of_integer? hw
  obtain hmax | hmax : max v.width w.width = 32 ∨ max v.width w.width = 64 := by omega
  all_goals
    rw [hmax]
    exact Int.bmod_eq_of_le (by omega) (by omega)

/-- An operation whose results on words are exact is right modulo the width. -/
theorem isWord_exact {f : Int64 → Int64 → Option Int64} {g : Float → Float → Option Float}
    (hf : ∀ m n : Int64, m.toInt = x → n.toInt = y → ∃ k, f m n = some k ∧ k.toInt = z) :
    (arithmetic f g v w).IsWord (max v.width w.width) (z.bmod (2 ^ max v.width w.width)) := by
  refine isWord_arithmetic hv hw fun m n hm hn => ?_
  obtain ⟨k, hk, hz⟩ := hf m n hm hn
  exact ⟨k, hk, hz ▸ k.toInt_bmod.symm⟩

end

/-! ### Binary operators -/

/-- Rounding down brings a number nearer to zero, or to minus one from below. -/
theorem div_between {b : Int} (hb : 0 < b) (x : Int) : min x 0 ≤ x / b ∧ x / b ≤ max x 0 := by
  rcases Int.le_total 0 x with h | h
  · have hle := Int.ediv_le_self b h
    have hnonneg := Int.ediv_nonneg h (Int.le_of_lt hb)
    omega
  · have hmul : x * b ≤ x * 1 := Int.mul_le_mul_of_nonpos_left h hb
    rw [Int.mul_one] at hmul
    have hle : x ≤ x / b := (Int.le_ediv_iff_mul_le hb).mpr hmul
    have hnonpos := Int.ediv_nonpos_of_nonpos_of_neg h hb
    omega

/-- A remainder lies between the dividend and zero. -/
theorem tmod_between (x y : Int) : min x 0 ≤ x.tmod y ∧ x.tmod y ≤ max x 0 := by
  have habs := Int.natAbs_tmod x y
  have hle := Nat.mod_le x.natAbs y.natAbs
  rcases Int.le_total 0 x with h | h
  · have hnonneg := Int.tmod_nonneg y h
    omega
  · have hnonneg := Int.tmod_nonneg y (Int.neg_nonneg_of_nonpos h)
    rw [Int.neg_tmod] at hnonneg
    omega

section

variable (hv : v.integer? = some x) (hw : w.integer? = some y)
include hv hw

/-- Sums are reduced to the wider width. -/
theorem isWord_add :
    (v.add w).IsWord (max v.width w.width) ((x + y).bmod (2 ^ max v.width w.width)) := by
  refine isWord_arithmetic hv hw fun m n hm hn => ⟨m + n, rfl, ?_⟩
  rw [Int64.toInt_add, hm, hn]

/-- Differences are reduced to the wider width. -/
theorem isWord_sub :
    (v.sub w).IsWord (max v.width w.width) ((x - y).bmod (2 ^ max v.width w.width)) := by
  refine isWord_arithmetic hv hw fun m n hm hn => ⟨m - n, rfl, ?_⟩
  rw [Int64.toInt_sub, hm, hn]

/-- Products are reduced to the wider width. -/
theorem isWord_mul :
    (v.mul w).IsWord (max v.width w.width) ((x * y).bmod (2 ^ max v.width w.width)) := by
  refine isWord_arithmetic hv hw fun m n hm hn => ⟨m * n, rfl, ?_⟩
  rw [Int64.toInt_mul, hm, hn]

/-- The bits of words are the bits of integers. -/
theorem isWord_bitwise {f : Int64 → Int64 → Int64} {g : Int → Int → Int}
    (hf : ∀ m n : Int64, (f m n).toInt = g m.toInt n.toInt) :
    (integral (fun m n => some (f m n)) v w).IsWord (max v.width w.width)
      ((g x y).bmod (2 ^ max v.width w.width)) := by
  refine isWord_exact hv hw fun m n hm hn => ⟨f m n, rfl, ?_⟩
  rw [hf, hm, hn]

/-- A shift to the left multiplies by a power of two, reduced to the wider width. -/
theorem isWord_shiftLeft (h0 : 0 ≤ y) (h : y < 64) : (v.shiftLeft w).IsWord
    (max v.width w.width) ((x * 2 ^ y.toNat).bmod (2 ^ max v.width w.width)) := by
  refine isWord_arithmetic hv hw fun m n hm hn => ?_
  subst hm hn
  exact ⟨m <<< n, if_pos (Word.isShiftCount_iff.mpr ⟨h0, h⟩), Word.toInt_shiftLeft h0 h⟩

/-- A shift to the right rounds down, and what it gives always fits. -/
theorem isWord_shiftRight (h0 : 0 ≤ y) (h : y < 64) :
    (v.shiftRight w).IsWord (max v.width w.width) (x / 2 ^ y.toNat) := by
  rw [← bmod_width hv hw (div_between (Int.pow_pos (by decide)) x)]
  refine isWord_exact hv hw fun m n hm hn => ?_
  subst hm hn
  exact ⟨m >>> n, if_pos (Word.isShiftCount_iff.mpr ⟨h0, h⟩), Word.toInt_shiftRight h0 h⟩

/-- There is no shift by a count outside of a word. -/
theorem shift_eq_undefined (h : ¬ (0 ≤ y ∧ y < 64)) :
    v.shiftLeft w = undefined ∧ v.shiftRight w = undefined := by
  constructor <;>
    refine arithmetic_eq_undefined hv hw fun m n hm hn => if_neg fun hcount => h ?_ <;>
    exact hn ▸ Word.isShiftCount_iff.mp hcount

/-- Integers are compared exactly, whatever their widths. -/
theorem compare_integers {f : Int64 → Int64 → Bool} {g : Float → Float → Bool}
    {r : Int → Int → Prop} [DecidableRel r]
    (hf : ∀ m n : Int64, f m n = decide (r m.toInt n.toInt)) :
    compare f g v w = bool (decide (r x y)) :=
  compare_of_integer? hv hw fun m n hm hn => by rw [hf, hm, hn]

end

/-! ### Unary operators -/

section

variable (hv : v.integer? = some x)
include hv

/-- The negative is reduced to the width: only that of the least number is cut. -/
theorem isWord_negative : v.negative.IsWord v.width ((-x).bmod (2 ^ v.width)) := by
  cases v with
  | bool b =>
    obtain rfl := Option.some.inj hv
    exact .of_int (by cases b <;> rfl)
  | int n =>
    obtain rfl := Option.some.inj hv
    exact .of_int n.toInt_neg
  | long n =>
    obtain rfl := Option.some.inj hv
    exact .of_long n.toInt_neg
  | _ => cases hv

/-- The complement always fits. -/
theorem isWord_complement : v.complement.IsWord v.width ((-x - 1).bmod (2 ^ v.width)) := by
  cases v with
  | bool b =>
    obtain rfl := Option.some.inj hv
    exact .of_int (by cases b <;> rfl)
  | int n =>
    obtain rfl := Option.some.inj hv
    exact .of_int n.toInt_not
  | long n =>
    obtain rfl := Option.some.inj hv
    exact .of_long n.toInt_not
  | _ => cases hv

/-- The number one has no more bits than any other number. -/
theorem max_width_one : max v.width (Value.int 1).width = v.width := by
  have hx := width_of_integer? hv
  have hone : (Value.int 1).width = 32 := rfl
  omega

end

/-! ### Folding -/

/-- What the unary operators make of an integer of `b` bits. -/
structure UnaryModulo (v : Value) (x : Int) (b : Nat) : Prop where
  negative : v.negative.IsWord b ((-x).bmod (2 ^ b))
  complement : v.complement.IsWord b ((-x - 1).bmod (2 ^ b))
  increment : v.increment.IsWord b ((x + 1).bmod (2 ^ b))
  decrement : v.decrement.IsWord b ((x - 1).bmod (2 ^ b))

/-- What the binary operators make of two integers, the wider of `b` bits. -/
structure BinaryModulo (v w : Value) (x y : Int) (b : Nat) : Prop where
  add : (v.add w).IsWord b ((x + y).bmod (2 ^ b))
  sub : (v.sub w).IsWord b ((x - y).bmod (2 ^ b))
  mul : (v.mul w).IsWord b ((x * y).bmod (2 ^ b))
  bitAnd : (v.bitAnd w).IsWord b ((Int.land x y).bmod (2 ^ b))
  bitOr : (v.bitOr w).IsWord b ((Int.lor x y).bmod (2 ^ b))
  bitXor : (v.bitXor w).IsWord b ((Int.xor x y).bmod (2 ^ b))
  shiftLeft : 0 ≤ y → y < 64 → (v.shiftLeft w).IsWord b ((x * 2 ^ y.toNat).bmod (2 ^ b))
  shiftRight : 0 ≤ y → y < 64 → (v.shiftRight w).IsWord b (x / 2 ^ y.toNat)
  noShift : ¬ (0 ≤ y ∧ y < 64) → v.shiftLeft w = undefined ∧ v.shiftRight w = undefined
  less : v.less w = bool (decide (x < y))
  lessEq : v.lessEq w = bool (decide (x ≤ y))
  greater : v.greater w = bool (decide (x > y))
  greaterEq : v.greaterEq w = bool (decide (x ≥ y))
  equal : v.equal w = bool (decide (x = y))
  notEqual : v.notEqual w = bool (decide (x ≠ y))

/-- The operations on one integer, put together. -/
theorem unaryModulo (hv : v.integer? = some x) : v.UnaryModulo x v.width := by
  have hone : (Value.int 1).integer? = some 1 := rfl
  have hincrement := isWord_add hv hone
  have hdecrement := isWord_sub hv hone
  rw [max_width_one hv] at hincrement hdecrement
  exact ⟨isWord_negative hv, isWord_complement hv, hincrement, hdecrement⟩

/-- The operations on two integers, put together. -/
theorem binaryModulo (hv : v.integer? = some x) (hw : w.integer? = some y) :
    v.BinaryModulo w x y (max v.width w.width) where
  add := isWord_add hv hw
  sub := isWord_sub hv hw
  mul := isWord_mul hv hw
  bitAnd := isWord_bitwise hv hw Word.toInt_land
  bitOr := isWord_bitwise hv hw Word.toInt_lor
  bitXor := isWord_bitwise hv hw Word.toInt_lxor
  shiftLeft := isWord_shiftLeft hv hw
  shiftRight := isWord_shiftRight hv hw
  noShift := shift_eq_undefined hv hw
  less := compare_integers hv hw fun m n => decide_eq_decide.mpr Int64.lt_iff_toInt_lt
  lessEq := compare_integers hv hw fun m n => decide_eq_decide.mpr Int64.le_iff_toInt_le
  greater := compare_integers hv hw fun m n => decide_eq_decide.mpr Int64.lt_iff_toInt_lt
  greaterEq := compare_integers hv hw fun m n => decide_eq_decide.mpr Int64.le_iff_toInt_le
  equal := compare_integers hv hw fun m n => by
    rw [Bool.beq_eq_decide_eq]
    exact decide_eq_decide.mpr Int64.toInt_inj.symm
  notEqual := compare_integers hv hw fun m n => by
    rw [bne, Bool.beq_eq_decide_eq, ← decide_not]
    exact decide_eq_decide.mpr Int64.toInt_inj.not.symm

/-- **Folding integers is arithmetic modulo the width of the result.** A unary operator works in the
width of its operand and a binary one in the wider of the two; the result is a number of that width,
the exact one reduced to its range. Shifts take the counts of a 64-bit word and have no result for
others, a shift to the right rounds down, and comparisons are those of the integers. -/
theorem folds_modulo (hv : v.integer? = some x) (hw : w.integer? = some y) :
    v.UnaryModulo x v.width ∧ v.BinaryModulo w x y (max v.width w.width) :=
  ⟨unaryModulo hv, binaryModulo hv hw⟩

/-- The greatest 32-bit number and one more is the least one, and 31 of its ones are lost where
it is moved by 32 places. -/
theorem folds_modulo_greatest :
    (Value.int 2147483647).integer? = some 2147483647 ∧ (Value.int 32).integer? = some 32 ∧
      (Value.int 2147483647).increment.IsWord 32 (-2147483648) ∧
      ((Value.int 2147483647).shiftLeft (.int 32)).IsWord 32 0 := by
  obtain ⟨hunary, hbinary⟩ := folds_modulo (v := .int 2147483647) (w := .int 32) rfl rfl
  exact ⟨rfl, rfl, hunary.increment, hbinary.shiftLeft (by decide) (by decide)⟩

/-! ### Division -/

/-- A remainder is zero or on the side of the dividend. -/
theorem sign_tmod (x y : Int) : x.tmod y = 0 ∨ (x.tmod y).sign = x.sign := by
  rw [Int.sign_tmod]
  split
  · next hdvd => exact .inl (Int.tmod_eq_zero_of_dvd hdvd)
  · exact .inr rfl

section

variable (hv : v.integer? = some x) (hw : w.integer? = some y)
include hv hw

/-- Dividing by zero gives nothing, and so does the one quotient that does not fit into 64 bits. -/
theorem div_mod_eq_undefined (h : y = 0 ∨ (x = -2 ^ 63 ∧ y = -1)) :
    v.div w = undefined ∧ v.mod w = undefined := by
  constructor <;>
    refine arithmetic_eq_undefined hv hw fun m n hm hn => if_pos (Word.divisionGap_iff.mpr ?_) <;>
    rwa [hm, hn]

variable (h : ¬ (y = 0 ∨ (x = -2 ^ 63 ∧ y = -1)))
include h

/-- Quotients are cut towards zero and reduced to the wider width. -/
theorem isWord_div :
    (v.div w).IsWord (max v.width w.width) ((x.tdiv y).bmod (2 ^ max v.width w.width)) := by
  refine isWord_arithmetic hv hw fun m n hm hn => ?_
  subst hm hn
  exact ⟨m / n, if_neg (Word.divisionGap_iff.not.mpr h), m.toInt_div n⟩

/-- Remainders always fit. -/
theorem isWord_mod : (v.mod w).IsWord (max v.width w.width) (x.tmod y) := by
  rw [← bmod_width hv hw (tmod_between x y)]
  refine isWord_exact hv hw fun m n hm hn => ?_
  subst hm hn
  exact ⟨m % n, if_neg (Word.divisionGap_iff.not.mpr h), m.toInt_mod n⟩

/-- The quotient may be cut, and multiplying it again still gives back what was divided: cutting
takes away a multiple of what the result is reduced by. -/
theorem isWord_div_mul_add_mod :
    (((v.div w).mul w).add (v.mod w)).IsWord (max v.width w.width) x := by
  have hquotient := isWord_div hv hw h
  have hremainder := isWord_mod hv hw h
  have hproduct := isWord_mul hquotient.integer? hw
  rw [hquotient.width, Nat.max_assoc, Nat.max_self, Int.bmod_mul_bmod] at hproduct
  have hsum := isWord_add hproduct.integer? hremainder.integer?
  rw [hproduct.width, hremainder.width, Nat.max_self, Int.bmod_add_bmod, Int.tdiv_mul_add_tmod,
    bmod_width hv hw (by omega)] at hsum
  exact hsum

end

/-- Quotient and remainder of two integers, the wider of `b` bits. -/
structure DivMod (v w : Value) (x y : Int) (b : Nat) : Prop where
  quotient : (v.div w).IsWord b ((x.tdiv y).bmod (2 ^ b))
  remainder : (v.mod w).IsWord b (x.tmod y)
  law : (((v.div w).mul w).add (v.mod w)).IsWord b x
  smaller : (x.tmod y).natAbs < y.natAbs
  sign : x.tmod y = 0 ∨ (x.tmod y).sign = x.sign

/-- **Quotient and remainder belong together.** Integers have neither where the divisor is zero
and where the least 64-bit number is divided by minus one, and only there. Everywhere else
quotient times divisor and the remainder make the dividend again, in the width of the result; the
remainder is nearer to zero than the divisor and on the side of the dividend. The least 32-bit
number has a quotient by minus one, itself. -/
theorem div_mod_law (hv : v.integer? = some x) (hw : w.integer? = some y) :
    (v.div w = undefined ↔ y = 0 ∨ (x = -2 ^ 63 ∧ y = -1)) ∧
      (v.mod w = undefined ↔ y = 0 ∨ (x = -2 ^ 63 ∧ y = -1)) ∧
      (¬ (y = 0 ∨ (x = -2 ^ 63 ∧ y = -1)) → v.DivMod w x y (max v.width w.width)) := by
  refine ⟨⟨fun hdiv => ?_, fun h => (div_mod_eq_undefined hv hw h).1⟩,
    ⟨fun hmod => ?_, fun h => (div_mod_eq_undefined hv hw h).2⟩, fun h => ?_⟩
  · by_contra h
    exact (isWord_div hv hw h).ne_undefined hdiv
  · by_contra h
    exact (isWord_mod hv hw h).ne_undefined hmod
  · exact {
      quotient := isWord_div hv hw h
      remainder := isWord_mod hv hw h
      law := isWord_div_mul_add_mod hv hw h
      smaller := Int.natAbs_tmod x y ▸ Nat.mod_lt _ (by omega)
      sign := sign_tmod x y }

/-- The least 32-bit number divided by minus one. -/
theorem div_mod_law_least :
    (Value.int Int32.minValue).integer? = some (-2147483648) ∧
      (Value.int (-1)).integer? = some (-1) ∧
      (Value.int Int32.minValue).DivMod (.int (-1)) (-2147483648) (-1) 32 :=
  ⟨rfl, rfl, (div_mod_law (v := .int Int32.minValue) (w := .int (-1)) rfl rfl).2.2 (by decide)⟩

/-- A divisor other than zero is not enough for a quotient: the least 64-bit number has none by
minus one, although the number that its width would cut it to exists. -/
theorem quotient_needs_more_than_divisor :
    ¬ ∀ (v w : Value) (x y : Int), v.integer? = some x → w.integer? = some y →
      (v.div w = undefined ↔ y = 0) := by
  intro hall
  have hdiv : (Value.long Int64.minValue).div (.int (-1)) = undefined :=
    (div_mod_eq_undefined rfl rfl (.inr ⟨rfl, rfl⟩)).1
  have hzero := (hall (.long Int64.minValue) (.int (-1)) _ _ rfl rfl).mp hdiv
  exact absurd hzero (by decide)

/-! ### Results that fit -/

/-- A quotient that fits in 32 bits is not the one that does not fit in 64. -/
theorem not_gap_of_fits (hy : y ≠ 0) (hz : FitsInt (x.tdiv y)) :
    ¬ (y = 0 ∨ (x = -2 ^ 63 ∧ y = -1)) := by
  rintro (rfl | ⟨rfl, rfl⟩)
  · exact hy rfl
  · exact absurd hz (by decide)

section

variable (hv : v.integer? = some x) (hw : w.integer? = some y)
include hv hw

/-- Reducing changes nothing that fits in 32 bits. -/
theorem integer?_of_fits {u : Value}
    (h : u.IsWord (max v.width w.width) (z.bmod (2 ^ max v.width w.width))) (hz : FitsInt z) :
    u.integer? = some z := by
  have hx := width_of_integer? hv
  have hy := width_of_integer? hw
  obtain ⟨hlow, hhigh⟩ := hz
  have hexact : z.bmod (2 ^ max v.width w.width) = z := by
    obtain hmax | hmax : max v.width w.width = 32 ∨ max v.width w.width = 64 := by omega
    all_goals
      rw [hmax]
      exact Int.bmod_eq_of_le (by omega) (by omega)
  rw [hexact] at h
  exact h.integer?

theorem integer?_add (hz : FitsInt (x + y)) : (v.add w).integer? = some (x + y) :=
  integer?_of_fits hv hw (isWord_add hv hw) hz

theorem integer?_sub (hz : FitsInt (x - y)) : (v.sub w).integer? = some (x - y) :=
  integer?_of_fits hv hw (isWord_sub hv hw) hz

theorem integer?_mul (hz : FitsInt (x * y)) : (v.mul w).integer? = some (x * y) :=
  integer?_of_fits hv hw (isWord_mul hv hw) hz

/-- A quotient that fits is exact. -/
theorem integer?_div (hy : y ≠ 0) (hz : FitsInt (x.tdiv y)) :
    (v.div w).integer? = some (x.tdiv y) :=
  integer?_of_fits hv hw (isWord_div hv hw (not_gap_of_fits hy hz)) hz

end

end Value

end KernelTree
