import KernelTree.Decimal.Format

/-!
# The fewest digits that read back

Every number of a binary format owns the interval of reals that round to it. Its shortest decimal is
the one with the fewest digits inside that interval: the coarsest decimal grid on which one of the
two neighbours of the number falls into the interval decides the length, and the nearer neighbour
the digits, the upper one on an exact tie.
-/

namespace KernelTree

/-- The decimal number `digits · 10 ^ exponent`. -/
structure Decimal where
  digits : Nat
  exponent : Int
  deriving DecidableEq, Repr

namespace Decimal

/-- How many digits a positive number has. -/
def digitCount (n : Nat) : Nat := (Nat.toDigits 10 n).length

/-- The exponent `k` with `10 ^ (k - 1) ≤ num / den < 10 ^ k`, for positive arguments. -/
def magnitude (num den : Nat) : Int :=
  if den ≤ num then digitCount (num / den)
  else 1 - (digitCount ((den + num - 1) / num - 1) : Int)

/-- The reals that round to a number: the quotients between `low / unit` and `high / unit`, the ends
included when `closed`; the number itself is `middle / unit`. -/
structure Interval where
  low : Nat
  middle : Nat
  high : Nat
  unit : Nat
  closed : Bool

/-- The interval of `significand · 2 ^ exponent`. Below a power of two the next number is half as
far away as above, except among the smallest numbers, which are evenly spaced. -/
def Interval.of (f : BinaryFormat) (significand : Nat) (exponent : Int) : Interval :=
  let below := if significand = f.leadingBit ∧ f.leastExponent < exponent then 1 else 2
  let scale := Nat.pow 2 exponent.toNat
  { low := (4 * significand - below) * scale
    middle := 4 * significand * scale
    high := (4 * significand + 2) * scale
    unit := 4 * Nat.pow 2 (-exponent).toNat
    closed := significand % 2 = 0 }

/-- Whether `num / den` lies in the interval. -/
def Interval.contains (i : Interval) (num den : Nat) : Bool :=
  let n := num * i.unit
  if i.closed then i.low * den ≤ n && n ≤ i.high * den
  else i.low * den < n && n < i.high * den

/-- The neighbour of the number on the grid of multiples of `10 ^ exponent` that lies in the
interval, the nearer one if both do. -/
def Interval.onGrid? (i : Interval) (exponent : Int) : Option Decimal :=
  let up := Nat.pow 10 exponent.toNat
  let down := Nat.pow 10 (-exponent).toNat
  let lower := i.middle * down / (i.unit * up)
  let twice := 2 * (i.middle * down % (i.unit * up))
  match i.contains (lower * up) down, i.contains ((lower + 1) * up) down with
  -- A tie goes up.
  | true, true => some ⟨if twice < i.unit * up then lower else lower + 1, exponent⟩
  | true, false => some ⟨lower, exponent⟩
  | false, true => some ⟨lower + 1, exponent⟩
  | false, false => none

/-- No trailing zeros, unless the number is zero. -/
def trim (d : Decimal) : Decimal :=
  if h : d.digits ≠ 0 ∧ d.digits % 10 = 0 then
    trim ⟨d.digits / 10, d.exponent + 1⟩
  else d
termination_by d.digits
decreasing_by omega

/-- The shortest decimal of the positive number `significand · 2 ^ exponent`. Seventeen digits
always suffice for the formats in use. -/
def shortest (f : BinaryFormat) (significand : Nat) (exponent : Int) : Decimal :=
  let i := Interval.of f significand exponent
  let top := magnitude i.middle i.unit
  -- From one digit to seventeen; the first grid with a neighbour in the interval is the coarsest.
  let grids := (List.range 17).map fun (n : Nat) => top - 1 - (n : Int)
  ((grids.findSome? i.onGrid?).getD ⟨i.middle / i.unit, 0⟩).trim

end Decimal

end KernelTree
