/-!
# Binary floating-point formats

A format fixes how many significant bits a number has and how wide its exponent field is.
`BinaryFormat.decode` reads a bit pattern as `m · 2 ^ q`, and `BinaryFormat.nearest` gives the
pattern of the number nearest to a positive quotient, ties going to the even neighbour.
-/

namespace KernelTree

/-- A binary interchange format: `precision` significant bits, the leading one included, and
`exponentBits` bits of exponent. -/
structure BinaryFormat where
  precision : Nat
  exponentBits : Nat

/-- What a bit pattern stands for. -/
inductive Decoded
  | nan
  | infinite (negative : Bool)
  /-- The number `significand · 2 ^ exponent`, with its sign. -/
  | finite (negative : Bool) (significand : Nat) (exponent : Int)

namespace BinaryFormat

/-- Four bytes: 24 significant bits. -/
def single : BinaryFormat := ⟨24, 8⟩

/-- Eight bytes: 53 significant bits. -/
def double : BinaryFormat := ⟨53, 11⟩

/-- The exponent of the unit in the last place of the smallest numbers. -/
def leastExponent (f : BinaryFormat) : Int :=
  3 - (Nat.pow 2 (f.exponentBits - 1) : Int) - f.precision

/-- The least significand of a number with full precision. -/
def leadingBit (f : BinaryFormat) : Nat := Nat.pow 2 (f.precision - 1)

/-- The pattern of positive infinity: an exponent field of ones and nothing else. -/
def infinityBits (f : BinaryFormat) : Nat :=
  (Nat.pow 2 f.exponentBits - 1) * f.leadingBit

/-- The pattern with the sign bit alone. -/
def signBit (f : BinaryFormat) : Nat := Nat.pow 2 f.exponentBits * f.leadingBit

/-- Reads a bit pattern. -/
def decode (f : BinaryFormat) (bits : Nat) : Decoded :=
  let negative := f.signBit ≤ bits
  let magnitude := bits % f.signBit
  let exponentField := magnitude / f.leadingBit
  let fraction := magnitude % f.leadingBit
  if magnitude = f.infinityBits then .infinite negative
  else if f.infinityBits < magnitude then .nan
  else if exponentField = 0 then .finite negative fraction f.leastExponent
  else .finite negative (f.leadingBit + fraction) (f.leastExponent + exponentField - 1)

/-- The quotient rounded to the nearest whole number, a half going to the even one. -/
def roundHalfEven (num den : Nat) : Nat :=
  let q := num / den
  let twice := 2 * (num % den)
  if twice < den then q
  else if den < twice then q + 1
  else if q % 2 = 0 then q else q + 1

/-- The exponent `e` with `2 ^ e ≤ num / den < 2 ^ (e + 1)`, for positive arguments. -/
def quotientLog2 (num den : Nat) : Int :=
  let e : Int := (Nat.log2 num : Int) - Nat.log2 den
  if num * Nat.pow 2 (-e).toNat < den * Nat.pow 2 e.toNat then e - 1 else e

/-- The pattern of the number nearest to `num / den`, a tie going to the even neighbour; a quotient
past the largest number gives infinity. The significand may round up to one bit more than the
format holds, and then the carry moves into the exponent field, which is the right result. -/
def nearest (f : BinaryFormat) (num den : Nat) : Nat :=
  if num = 0 then 0
  else
    let exponent := max f.leastExponent (quotientLog2 num den - (f.precision - 1 : Nat))
    let significand :=
      roundHalfEven (num * Nat.pow 2 (-exponent).toNat) (den * Nat.pow 2 exponent.toNat)
    min f.infinityBits ((exponent - f.leastExponent).toNat * f.leadingBit + significand)

end BinaryFormat

end KernelTree
