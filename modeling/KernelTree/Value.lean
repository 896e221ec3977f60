import KernelTree.Decimal.Convert
import KernelTree.Decimal.Numeral

/-!
# Constant values

`Value` is what constant folding produces: truth values, integers of 32 and 64 bits, floating-point
numbers of four and eight bytes, and one undefined value for everything that has none. The views
`toInt64?`, `toFloat?`, `toBool?` and `size?` exist exactly for the defined values.
-/

namespace KernelTree

/-- A folded constant. -/
inductive Value
  | undefined
  | bool (b : Bool)
  | int (n : Int32)
  | long (n : Int64)
  | float (x : Float32)
  | double (x : Float)
  deriving BEq, Inhabited

namespace Value

/-- Every value but `undefined`. -/
def isDefined : Value → Bool
  | undefined => false
  | _ => true

/-- The value as a 64-bit integer. Floating-point numbers lose their fraction and stop at the ends
of the range; not-a-number gives zero. -/
def toInt64? : Value → Option Int64
  | undefined => none
  | bool b => some (if b then 1 else 0)
  | int n => some n.toInt64
  | long n => some n
  | float x => some x.toModel.toInt64
  | double x => some x.toModel.toInt64

/-- The value as an eight-byte floating-point number. -/
def toFloat? : Value → Option Float
  | undefined => none
  | bool b => some (if b then 1 else 0)
  | int n => some (ofInt64 n.toInt64)
  | long n => some (ofInt64 n)
  | float x => some (widen x)
  | double x => some x

/-- Zero is false and any other number, not-a-number included, is true. -/
def toBool? : Value → Option Bool
  | undefined => none
  | bool b => some b
  | int n => some (n != 0)
  | long n => some (n != 0)
  | float x => some (x != 0)
  | double x => some (x != 0)

/-- Bytes that a value of this type takes. -/
def size? : Value → Option Nat
  | undefined => none
  | bool _ => some 1
  | int _ => some 4
  | float _ => some 4
  | long _ => some 8
  | double _ => some 8

end Value

end KernelTree
