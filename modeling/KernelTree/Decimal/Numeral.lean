import KernelTree.Decimal.Shortest

/-!
# Reading decimal numerals

A numeral is an optional sign, digits with at most one point among them, and an optional exponent;
or one of the names of infinity and of not-a-number. `Numeral.read?` accepts exactly these, and
`Numeral.bits` rounds what was read to a binary format.
-/

namespace KernelTree

/-- What a numeral denotes: a signed decimal number, infinity or not-a-number. -/
inductive Numeral
  | nan
  | infinite (negative : Bool)
  | finite (negative : Bool) (value : Decimal)

namespace Numeral

/-- The number that a row of digits stands for. -/
def ofDigits (cs : List Char) : Nat :=
  cs.foldl (fun n c => 10 * n + (c.toNat - '0'.toNat)) 0

/-- Splits off a leading sign. -/
def splitSign : List Char → Bool × List Char
  | '-' :: cs => (true, cs)
  | '+' :: cs => (false, cs)
  | cs => (false, cs)

/-- The exponent after the digits: nothing, or `e` with an optional sign and at least one digit. -/
def exponent? : List Char → Option Int
  | [] => some 0
  | c :: cs =>
    let (negative, digits) := splitSign cs
    if (c = 'e' ∨ c = 'E') ∧ digits ≠ [] ∧ digits.all Char.isDigit then
      some (if negative then -(ofDigits digits : Int) else ofDigits digits)
    else none

/-- Digits, an optional point with digits after it, and an exponent; at least one digit in all. -/
def decimal? (cs : List Char) : Option Decimal :=
  let whole := cs.takeWhile Char.isDigit
  let rest := cs.dropWhile Char.isDigit
  let (fraction, rest) := match rest with
    | '.' :: tail => (tail.takeWhile Char.isDigit, tail.dropWhile Char.isDigit)
    | _ => ([], rest)
  if whole = [] ∧ fraction = [] then none
  else (exponent? rest).map fun e => ⟨ofDigits (whole ++ fraction), e - fraction.length⟩

/-- Reads a numeral; the names of infinity and of not-a-number are read in either case. -/
def read? (text : List Char) : Option Numeral :=
  let (negative, body) := splitSign text
  let name := String.ofList (body.map Char.toLower)
  if name = "inf" ∨ name = "infinity" then some (.infinite negative)
  else if name = "nan" then some .nan
  else (decimal? body).map (.finite negative)

/-- Decimal magnitudes past this power of ten lie beyond every number of the formats in use, and so
do those below its inverse. -/
def reach : Nat := 500

/-- The pattern of the nearest number of the format, sign aside. -/
def magnitudeBits (f : BinaryFormat) (value : Decimal) : Nat :=
  let top := Decimal.digitCount value.digits + value.exponent
  if value.digits = 0 ∨ top < -(reach : Int) then 0
  else if (reach : Int) < top then f.infinityBits
  else f.nearest (value.digits * Nat.pow 10 value.exponent.toNat)
    (Nat.pow 10 (-value.exponent).toNat)

/-- The bit pattern of the number of the format that is nearest to the numeral. -/
def bits (f : BinaryFormat) : Numeral → Nat
  | .nan => f.infinityBits + f.leadingBit / 2
  | .infinite negative => (if negative then f.signBit else 0) + f.infinityBits
  | .finite negative value => (if negative then f.signBit else 0) + magnitudeBits f value

/-- Reads text as a four-byte number. -/
def float32? (text : List Char) : Option Float32 :=
  (read? text).map fun n => Float32.ofBits (n.bits .single).toUInt32

/-- Reads text as an eight-byte number. -/
def float? (text : List Char) : Option Float :=
  (read? text).map fun n => Float.ofBits (n.bits .double).toUInt64

end Numeral

end KernelTree
