import KernelTree.Decimal.Format

/-!
# Conversions of floating-point numbers

A number of one format becomes the nearest number of the other, ties going to the even neighbour; a
whole number becomes the nearest number of eight bytes.
-/

namespace KernelTree

/-- The pattern of the number of the target format that is nearest to a pattern of this one. -/
def BinaryFormat.convert (f target : BinaryFormat) (bits : Nat) : Nat :=
  match f.decode bits with
  | .nan => target.infinityBits + target.leadingBit / 2
  | .infinite negative => (if negative then target.signBit else 0) + target.infinityBits
  | .finite negative significand exponent =>
    (if negative then target.signBit else 0)
      + target.nearest (significand * Nat.pow 2 exponent.toNat) (Nat.pow 2 (-exponent).toNat)

/-- The four-byte number nearest to an eight-byte one. -/
def narrow (x : Float) : Float32 :=
  .ofBits (BinaryFormat.double.convert .single x.toBits.toNat).toUInt32

/-- The eight-byte number that a four-byte one is. -/
def widen (x : Float32) : Float :=
  .ofBits (BinaryFormat.single.convert .double x.toBits.toNat).toUInt64

/-- The eight-byte number nearest to a whole number. -/
def ofInt64 (n : Int64) : Float := .ofModel (.ofInt64 n)

end KernelTree
