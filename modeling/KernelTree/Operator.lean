/-!
# Operators

Every operator of the expression language, with its symbol, precedence and class. A symbol such as
`*` has two readings; it is met as an *unresolved* operator and settled by `Ambiguous.reading`, and
until then it belongs to the classes of both readings (`Operator.readings`). A lower precedence
binds tighter.
-/

namespace KernelTree

/-- The four kinds of brackets. `launch` are the triple angle brackets around the configuration of a
kernel launch. -/
inductive Bracket
  | round
  | square
  | curly
  | launch
  deriving DecidableEq, Repr

/-- Operators written before their operand. `question` and `colon` are among them: while a tree is
built they mark the branches of a conditional. `cast` is a type in round brackets. -/
inductive PrefixOp
  | not
  | positive
  | negative
  | complement
  | increment
  | decrement
  | dereference
  | addressOf
  | globalScope
  | sizeof
  | new
  | delete
  | throw
  | cast
  | question
  | colon
  deriving DecidableEq, Repr

/-- Operators written after their operand. -/
inductive PostfixOp
  | increment
  | decrement
  deriving DecidableEq, Repr

/-- Operators written between two operands. -/
inductive BinaryOp
  | scope
  | dot
  | arrow
  | dotStar
  | arrowStar
  | mul
  | div
  | mod
  | add
  | sub
  | shiftLeft
  | shiftRight
  | less
  | lessEq
  | greater
  | greaterEq
  | equal
  | notEqual
  | bitAnd
  | bitXor
  | bitOr
  | and
  | or
  | assign
  | addAssign
  | subAssign
  | mulAssign
  | divAssign
  | modAssign
  | andAssign
  | orAssign
  | xorAssign
  | shiftLeftAssign
  | shiftRightAssign
  | comma
  deriving DecidableEq, Repr

/-- Symbols with two readings. -/
inductive Ambiguous
  | plus
  | minus
  | asterisk
  | ampersand
  | increment
  | decrement
  | doubleColon
  deriving DecidableEq, Repr

/-- An operator, a bracket, or a symbol whose reading is still open. -/
inductive Operator
  | pre (op : PrefixOp)
  | post (op : PostfixOp)
  | binary (op : BinaryOp)
  | opening (b : Bracket)
  | closing (b : Bracket)
  | unresolved (a : Ambiguous)
  deriving DecidableEq, Repr

/-- The direction in which operators of one precedence group. -/
inductive Associativity
  | left
  | right
  deriving DecidableEq, Repr

/-- Prefix operators and assignments group to the right, all others to the left. -/
def associativity (precedence : Nat) : Associativity :=
  if precedence = 2 ∨ precedence = 15 then .right else .left

/-! ### Symbols -/

namespace Bracket

/-- The bracket that opens a pair. -/
def openSymbol : Bracket → String
  | round => "("
  | square => "["
  | curly => "\x7b"
  | launch => "<<<"

/-- The bracket that closes a pair. -/
def closeSymbol : Bracket → String
  | round => ")"
  | square => "]"
  | curly => "\x7d"
  | launch => ">>>"

end Bracket

namespace PrefixOp

/-- How the operator is written. -/
def symbol : PrefixOp → String
  | not => "!"
  | positive => "+"
  | negative => "-"
  | complement => "~"
  | increment => "++"
  | decrement => "--"
  | dereference => "*"
  | addressOf => "&"
  | globalScope => "::"
  | sizeof => "sizeof"
  | new => "new"
  | delete => "delete"
  | throw => "throw"
  | cast => "()"
  | question => "?"
  | colon => ":"

/-- How tightly the operator binds. -/
def precedence : PrefixOp → Nat
  | globalScope => 0
  | question => 14
  | colon => 14
  | throw => 15
  | _ => 2

end PrefixOp

namespace PostfixOp

/-- How the operator is written. -/
def symbol : PostfixOp → String
  | increment => "++"
  | decrement => "--"

/-- How tightly the operator binds. -/
def precedence (_ : PostfixOp) : Nat := 1

end PostfixOp

namespace BinaryOp

/-- How the operator is written. -/
def symbol : BinaryOp → String
  | scope => "::"
  | dot => "."
  | arrow => "->"
  | dotStar => ".*"
  | arrowStar => "->*"
  | mul => "*"
  | div => "/"
  | mod => "%"
  | add => "+"
  | sub => "-"
  | shiftLeft => "<<"
  | shiftRight => ">>"
  | less => "<"
  | lessEq => "<="
  | greater => ">"
  | greaterEq => ">="
  | equal => "=="
  | notEqual => "!="
  | bitAnd => "&"
  | bitXor => "^"
  | bitOr => "|"
  | and => "&&"
  | or => "||"
  | assign => "="
  | addAssign => "+="
  | subAssign => "-="
  | mulAssign => "*="
  | divAssign => "/="
  | modAssign => "%="
  | andAssign => "&="
  | orAssign => "|="
  | xorAssign => "^="
  | shiftLeftAssign => "<<="
  | shiftRightAssign => ">>="
  | comma => ","

/-- How tightly the operator binds. -/
def precedence : BinaryOp → Nat
  | scope => 0
  | dot => 1
  | arrow => 1
  | dotStar => 3
  | arrowStar => 3
  | mul => 4
  | div => 4
  | mod => 4
  | add => 5
  | sub => 5
  | shiftLeft => 6
  | shiftRight => 6
  | less => 7
  | lessEq => 7
  | greater => 7
  | greaterEq => 7
  | equal => 8
  | notEqual => 8
  | bitAnd => 9
  | bitXor => 10
  | bitOr => 11
  | and => 12
  | or => 13
  | comma => 16
  | _ => 15

/-- Access to a member, written without blanks around it. -/
def isMemberAccess : BinaryOp → Bool
  | scope => true
  | dot => true
  | arrow => true
  | dotStar => true
  | arrowStar => true
  | _ => false

end BinaryOp

namespace Ambiguous

/-- How the symbol is written. -/
def symbol : Ambiguous → String
  | plus => "+"
  | minus => "-"
  | asterisk => "*"
  | ampersand => "&"
  | increment => "++"
  | decrement => "--"
  | doubleColon => "::"

/-- The precedence of the reading after an operand. -/
def precedence : Ambiguous → Nat
  | plus => 5
  | minus => 5
  | asterisk => 4
  | ampersand => 9
  | increment => 1
  | decrement => 1
  | doubleColon => 0

/-- The reading in front of an operand. -/
def prefixReading : Ambiguous → PrefixOp
  | plus => .positive
  | minus => .negative
  | asterisk => .dereference
  | ampersand => .addressOf
  | increment => .increment
  | decrement => .decrement
  | doubleColon => .globalScope

/-- The reading after an operand. -/
def otherReading : Ambiguous → Operator
  | plus => .binary .add
  | minus => .binary .sub
  | asterisk => .binary .mul
  | ampersand => .binary .bitAnd
  | increment => .post .increment
  | decrement => .post .decrement
  | doubleColon => .binary .scope

/-- The reading of a symbol, in front of an operand or after one. -/
def reading (a : Ambiguous) (isPrefixed : Bool) : Operator :=
  if isPrefixed then .pre a.prefixReading else a.otherReading

/-- Whether the symbol counts up or down. -/
def isStep : Ambiguous → Bool
  | increment => true
  | decrement => true
  | _ => false

/-- All symbols with two readings. -/
def all : List Ambiguous :=
  [plus, minus, asterisk, ampersand, increment, decrement, doubleColon]

end Ambiguous

/-! ### Classes -/

/-- The classes that operators are told apart by. `special` are the operators that do not become a
plain unary node. -/
inductive OperatorClass
  | ambiguous
  | binary
  | increment
  | decrement
  | leftUnary
  | memberAccess
  | pair
  | closing
  | opening
  | rightUnary
  | special
  | unary
  deriving DecidableEq, Repr

namespace Operator

/-- How the operator is written. -/
def symbol : Operator → String
  | pre op => op.symbol
  | post op => op.symbol
  | binary op => op.symbol
  | opening b => b.openSymbol
  | closing b => b.closeSymbol
  | unresolved a => a.symbol

instance : ToString Operator := ⟨symbol⟩

/-- How tightly the operator binds. -/
def precedence : Operator → Nat
  | pre op => op.precedence
  | post op => op.precedence
  | binary op => op.precedence
  | opening _ => 0
  | closing _ => 0
  | unresolved a => a.precedence

/-- Whether the reading of the symbol is still open. -/
def isAmbiguous : Operator → Bool
  | unresolved _ => true
  | _ => false

/-- The operators that the symbol may stand for. -/
def readings : Operator → List Operator
  | unresolved a => [a.reading true, a.reading false]
  | op => [op]

/-- Whether an operator is one of the two readings of an ambiguous symbol. -/
def isReading (op : Operator) : Bool :=
  Ambiguous.all.any fun a => a.reading true = op || a.reading false = op

/-- Membership of an operator with one reading in a class. -/
def isOf (op : Operator) : OperatorClass → Bool
  | .ambiguous => op.isReading
  | .binary => match op with | binary _ => true | _ => false
  | .increment => op = pre .increment || op = post .increment
  | .decrement => op = pre .decrement || op = post .decrement
  | .leftUnary => match op with | pre _ => true | _ => false
  | .rightUnary => match op with | post _ => true | _ => false
  | .unary => match op with | pre _ => true | post _ => true | _ => false
  | .memberAccess => match op with | binary b => b.isMemberAccess | _ => false
  | .opening => match op with | opening _ => true | _ => false
  | .closing => match op with | closing _ => true | _ => false
  | .pair => match op with | opening _ => true | closing _ => true | _ => false
  | .special => [pre .sizeof, pre .new, pre .delete, pre .throw, pre .cast].contains op

/-- Whether some reading of the symbol belongs to the class. -/
def mayBe (op : Operator) (c : OperatorClass) : Bool := op.readings.any (isOf · c)

/-- The other bracket of a pair; other operators have no counterpart but themselves. -/
def counterpart : Operator → String
  | opening b => b.closeSymbol
  | closing b => b.openSymbol
  | op => op.symbol

/-- Whether the first bracket closes what the second opens. -/
def closes : Operator → Operator → Bool
  | closing b, opening c => b = c
  | _, _ => false

/-- The reading of a symbol, in front of an operand or after one. A symbol without two readings is
taken for the double colon. -/
def resolve (op : Operator) (isPrefixed : Bool) : Operator :=
  match op with
  | unresolved a => a.reading isPrefixed
  | _ => Ambiguous.doubleColon.reading isPrefixed

/-- An operator that is met in text: ambiguous symbols stand for both readings. -/
def generic (op : Operator) : Operator :=
  ((Ambiguous.all.find? fun a => a.reading true = op || a.reading false = op).map
    unresolved).getD op

/-! ### Tables of symbols -/

/-- The symbols of the language, each before every symbol that begins it. -/
def symbols : List (String × Operator) :=
  [opening .launch, closing .launch, binary .shiftLeftAssign, binary .shiftRightAssign,
    binary .arrowStar, unresolved .doubleColon, binary .arrow, binary .dotStar,
    unresolved .increment, unresolved .decrement, binary .addAssign, binary .subAssign,
    binary .mulAssign, binary .divAssign, binary .modAssign, binary .andAssign, binary .orAssign,
    binary .xorAssign, binary .shiftLeft, binary .shiftRight, binary .lessEq, binary .greaterEq,
    binary .equal, binary .notEqual, binary .and, binary .or, unresolved .plus, unresolved .minus,
    unresolved .asterisk, unresolved .ampersand, binary .div, binary .mod, binary .less,
    binary .greater, binary .assign, pre .not, pre .complement, binary .bitOr, binary .bitXor,
    binary .dot, binary .comma, pre .question, pre .colon, opening .round, closing .round,
    opening .square, closing .square, opening .curly, closing .curly].map
    fun op => (op.symbol, op)

/-- Words that are prefix operators. -/
def keywords : List (String × Operator) :=
  [pre .sizeof, pre .new, pre .delete, pre .throw].map fun op => (op.symbol, op)

end Operator

end KernelTree
