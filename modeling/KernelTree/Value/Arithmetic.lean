import KernelTree.Value

/-!
# Arithmetic on constants

The usual conversions of C in a reduced form: a truth value counts as an int, and then the higher
of the two ranks `int < long < float < double` wins. Integer work is done in 64 bits and cut to the
rank of the result; floating-point work is done in eight bytes and rounded to the rank of the
result. Every operation on an undefined operand is undefined, and so are an integer division by zero
and a shift by a count that does not fit.
-/

namespace KernelTree

/-- The arithmetic types, lowest first. -/
inductive Rank
  | int
  | long
  | float
  | double
  deriving DecidableEq, Repr

namespace Rank

/-- The place of a rank in the order. -/
def height : Rank → Nat
  | int => 0
  | long => 1
  | float => 2
  | double => 3

/-- The higher of two ranks. -/
def max (r s : Rank) : Rank := if r.height ≤ s.height then s else r

end Rank

/-- Two operands after the usual conversions, with the rank of their result. -/
inductive Converted
  | integers (isLong : Bool) (x y : Int64)
  | floats (isDouble : Bool) (x y : Float)

namespace Value

/-- The rank a value takes part in arithmetic with. -/
def rank? : Value → Option Rank
  | undefined => none
  | bool _ => some .int
  | int _ => some .int
  | long _ => some .long
  | float _ => some .float
  | double _ => some .double

/-- Brings two defined operands to their common type. -/
def convert? (a b : Value) : Option Converted := do
  match (← a.rank?).max (← b.rank?) with
  | .int => return .integers false (← a.toInt64?) (← b.toInt64?)
  | .long => return .integers true (← a.toInt64?) (← b.toInt64?)
  | .float => return .floats false (← a.toFloat?) (← b.toFloat?)
  | .double => return .floats true (← a.toFloat?) (← b.toFloat?)

/-- An integer result: kept in 64 bits, or cut to the low 32. -/
def ofInteger (isLong : Bool) (n : Int64) : Value :=
  if isLong then long n else int n.toInt32

/-- A floating-point result: kept in eight bytes, or rounded to four. -/
def ofFloating (isDouble : Bool) (x : Float) : Value :=
  if isDouble then double x else float (narrow x)

/-- Arithmetic on integers and on floating-point numbers; an operation without a result is
undefined. -/
def arithmetic (onIntegers : Int64 → Int64 → Option Int64)
    (onFloats : Float → Float → Option Float) (a b : Value) : Value :=
  match a.convert? b with
  | none => undefined
  | some (.integers isLong x y) => ((onIntegers x y).map (ofInteger isLong)).getD undefined
  | some (.floats isDouble x y) => ((onFloats x y).map (ofFloating isDouble)).getD undefined

/-- Arithmetic that floating-point numbers have no part in. -/
def integral (onIntegers : Int64 → Int64 → Option Int64) : Value → Value → Value :=
  arithmetic onIntegers fun _ _ => none

/-- Comparison after the usual conversions. -/
def compare (onIntegers : Int64 → Int64 → Bool) (onFloats : Float → Float → Bool)
    (a b : Value) : Value :=
  match a.convert? b with
  | none => undefined
  | some (.integers _ x y) => bool (onIntegers x y)
  | some (.floats _ x y) => bool (onFloats x y)

/-! ### Integer operations with gaps -/

/-- Division toward zero; none by zero, and none of the least number by minus one. -/
def divide? (x y : Int64) : Option Int64 :=
  if y = 0 ∨ (x = Int64.minValue ∧ y = -1) then none else some (x / y)

/-- The remainder that belongs to `divide?`. -/
def remainder? (x y : Int64) : Option Int64 :=
  if y = 0 ∨ (x = Int64.minValue ∧ y = -1) then none else some (x % y)

/-- Whether a number counts bits of a 64-bit word. -/
def isShiftCount (y : Int64) : Bool := 0 ≤ y.toInt && y.toInt < 64

/-- Bits pushed out on the left are lost. -/
def shiftLeft? (x y : Int64) : Option Int64 :=
  if isShiftCount y then some (x <<< y) else none

/-- The sign is repeated on the left. -/
def shiftRight? (x y : Int64) : Option Int64 :=
  if isShiftCount y then some (x >>> y) else none

/-! ### Unary operators -/

/-- Unary plus only turns a truth value into an int. -/
def positive : Value → Value
  | bool b => int (if b then 1 else 0)
  | v => v

/-- Unary minus; integers wrap. -/
def negative : Value → Value
  | undefined => undefined
  | bool b => int (if b then -1 else 0)
  | int n => int (-n)
  | long n => long (-n)
  | float x => float (-x)
  | double x => double (-x)

/-- Logical negation of the truth of a value. -/
def not (v : Value) : Value :=
  match v.toBool? with
  | some b => bool (!b)
  | none => undefined

/-- The complement of every bit. -/
def complement : Value → Value
  | bool b => int (if b then ~~~1 else ~~~0)
  | int n => int (~~~n)
  | long n => long (~~~n)
  | _ => undefined

/-! ### Binary operators -/

/-- Sum; integers wrap. -/
def add : Value → Value → Value := arithmetic (fun x y => some (x + y)) fun x y => some (x + y)

/-- Difference; integers wrap. -/
def sub : Value → Value → Value := arithmetic (fun x y => some (x - y)) fun x y => some (x - y)

/-- Product; integers wrap. -/
def mul : Value → Value → Value := arithmetic (fun x y => some (x * y)) fun x y => some (x * y)

/-- Quotient. -/
def div : Value → Value → Value := arithmetic divide? fun x y => some (x / y)

/-- Remainder, of integers only. -/
def mod : Value → Value → Value := integral remainder?

/-- Left shift, of integers only. -/
def shiftLeft : Value → Value → Value := integral shiftLeft?

/-- Right shift, of integers only. -/
def shiftRight : Value → Value → Value := integral shiftRight?

/-- Bitwise and, of integers only. -/
def bitAnd : Value → Value → Value := integral fun x y => some (x &&& y)

/-- Bitwise or, of integers only. -/
def bitOr : Value → Value → Value := integral fun x y => some (x ||| y)

/-- Bitwise exclusive or, of integers only. -/
def bitXor : Value → Value → Value := integral fun x y => some (x ^^^ y)

/-- Strictly smaller. -/
def less : Value → Value → Value := compare (fun x y => x < y) fun x y => x < y

/-- Smaller or equal. -/
def lessEq : Value → Value → Value := compare (fun x y => x ≤ y) fun x y => x ≤ y

/-- Strictly greater. -/
def greater : Value → Value → Value := compare (fun x y => y < x) fun x y => y < x

/-- Greater or equal. -/
def greaterEq : Value → Value → Value := compare (fun x y => y ≤ x) fun x y => y ≤ x

/-- Equal; not-a-number equals nothing. -/
def equal : Value → Value → Value := compare (fun x y => x == y) fun x y => x == y

/-- Not equal; not-a-number differs from itself. -/
def notEqual : Value → Value → Value := compare (fun x y => x != y) fun x y => x != y

/-- Logical and of two defined values. -/
def and (a b : Value) : Value :=
  match a.toBool?, b.toBool? with
  | some x, some y => bool (x && y)
  | _, _ => undefined

/-- Logical or of two defined values. -/
def or (a b : Value) : Value :=
  match a.toBool?, b.toBool? with
  | some x, some y => bool (x || y)
  | _, _ => undefined

/-- One more. -/
def increment (v : Value) : Value := v.add (int 1)

/-- One less. -/
def decrement (v : Value) : Value := v.sub (int 1)

/-- The value of a comma pair. -/
def second (_ b : Value) : Value := b

end Value

end KernelTree
