import KernelTree.Value

/-!
# Constants as text

`Value.render` writes a constant and `Value.ofLiteral?` reads a numeric literal. A long is marked by
`L` and a four-byte number by `f`. A floating-point number is written with the fewest digits that
read back, always with a point or an exponent.
-/

namespace KernelTree

/-! ### Floating-point numbers -/

namespace Decimal

/-- Smallest and largest powers of ten between which a number is written without an exponent: from
`10 ^ -4` to just below `10 ^ 16`. -/
def positional (scale : Int) : Bool := -4 ≤ scale && scale < 16

/-- Digits with the point after the first `point` of them, filled with zeros so that there is a
digit on either side. -/
def placePoint (digits : List Char) (point : Int) : List Char :=
  let whole := digits.take point.toNat ++ List.replicate (point.toNat - digits.length) '0'
  let fraction := List.replicate (-point).toNat '0' ++ digits.drop point.toNat
  (if whole = [] then ['0'] else whole) ++ '.' :: (if fraction = [] then ['0'] else fraction)

/-- One digit, the other digits after a point if there are any, and the exponent. -/
def scientific (digits : List Char) (scale : Int) : List Char :=
  let fraction := if digits.tail = [] then [] else '.' :: digits.tail
  digits.take 1 ++ fraction ++ 'e' :: (toString scale).toList

/-- A positive decimal, with an exponent only where the plain form would be long. -/
def render (d : Decimal) : List Char :=
  let digits := Nat.toDigits 10 d.digits
  let scale := d.exponent + digits.length - 1
  if positional scale then placePoint digits (scale + 1) else scientific digits scale

end Decimal

/-- The text of a decoded number; not-a-number has no sign. -/
def Decoded.render (f : BinaryFormat) : Decoded → String
  | .nan => "NaN"
  | .infinite negative => if negative then "-inf" else "inf"
  | .finite negative significand exponent =>
    let body := if significand = 0 then "0.0"
      else String.ofList (Decimal.shortest f significand exponent).render
    if negative then "-" ++ body else body

/-- The shortest text of a four-byte number. -/
def renderFloat32 (x : Float32) : String :=
  (BinaryFormat.single.decode x.toBits.toNat).render .single

/-- The shortest text of an eight-byte number. -/
def renderFloat (x : Float) : String :=
  (BinaryFormat.double.decode x.toBits.toNat).render .double

namespace Value

/-- The text of a constant. -/
def render : Value → String
  | undefined => "undefined"
  | bool b => if b then "true" else "false"
  | int n => toString n.toInt
  | long n => toString n.toInt ++ "L"
  | float x => renderFloat32 x ++ "f"
  | double x => renderFloat x

instance : ToString Value := ⟨render⟩

/-! ### Literals -/

/-- The digits of a numeral in base ten or sixteen. -/
def digit? (base : Nat) (c : Char) : Option Nat :=
  let value :=
    if '0' ≤ c ∧ c ≤ '9' then c.toNat - '0'.toNat
    else if 'a' ≤ c ∧ c ≤ 'f' then c.toNat - 'a'.toNat + 10
    else base
  if value < base then some value else none

/-- The number written by digits of the base, most significant first. -/
def natural? (base : Nat) : List Char → Option Nat :=
  List.foldlM (fun n c => (digit? base c).map (base * n + ·)) 0

/-- A signed whole number of at least one digit, if it fits into 64 bits. -/
def int64? (base : Nat) (text : List Char) : Option Int64 := do
  let (negative, digits) := Numeral.splitSign text
  if digits = [] then none
  let n ← natural? base digits
  let value : Int := if negative then -(n : Int) else n
  if Int64.minValue.toInt ≤ value ∧ value ≤ Int64.maxValue.toInt then some (Int64.ofInt value)
  else none

/-- Drops the characters at the end that `p` accepts. -/
def dropTrailing (p : Char → Bool) (text : List Char) : List Char :=
  (text.reverse.dropWhile p).reverse

/-- A floating-point literal in lower case: one `f` at the end makes it a four-byte number, rounded
from the eight-byte one, and any number of `l` are dropped. -/
def floating? (text : List Char) : Option Value :=
  if text.getLast? = some 'f' then
    (Numeral.float? text.dropLast).map fun x => float (narrow x)
  else (Numeral.float? (dropTrailing (· = 'l') text)).map double

/-- A whole-number literal in lower case: decimal, or hexadecimal after `0x`. It is a long if an `l`
is among the marks at its end or if 32 bits do not hold it. -/
def whole? (isHex : Bool) (text : List Char) : Option Value := do
  let digits := dropTrailing (fun c => c = 'u' || c = 'l') text
  -- The two characters of `0x` go before the digits are read.
  let n ← if isHex then int64? 16 (digits.drop 2) else int64? 10 digits
  if (text.drop digits.length).contains 'l' ∨ n ≠ n.toInt32.toInt64 then some (long n)
  else some (int n.toInt32)

/-- Reads a numeric literal: decimal and hexadecimal whole numbers with marks for their width, and
floating-point numbers, told apart by a point or an `e`. Case does not matter. -/
def ofLiteral? (text : List Char) : Option Value :=
  let lower := text.map Char.toLower
  let isHex := "0x".toList.isPrefixOf lower
  -- In base sixteen an `e` is a digit.
  if !isHex && (lower.contains '.' || lower.contains 'e') then floating? lower
  else whole? isHex lower

end Value

end KernelTree
