import KernelTree.Operator
import KernelTree.Value.Arithmetic

/-!
# Operators on constants

How each operator computes on constants. Access to members and memory, assignments and keywords do
not compute. Increment and decrement give a value and store nothing.
-/

namespace KernelTree

/-- What an operator computes, if anything. -/
inductive Folding
  | none
  | unary (f : Value → Value)
  | binary (f : Value → Value → Value)

/-- The value of a prefix operator. -/
def PrefixOp.folding : PrefixOp → Folding
  | not => .unary Value.not
  | positive => .unary Value.positive
  | negative => .unary Value.negative
  | complement => .unary Value.complement
  | increment => .unary Value.increment
  | decrement => .unary Value.decrement
  | _ => .none

/-- The value of a binary operator. -/
def BinaryOp.folding : BinaryOp → Folding
  | mul => .binary Value.mul
  | div => .binary Value.div
  | mod => .binary Value.mod
  | add => .binary Value.add
  | sub => .binary Value.sub
  | shiftLeft => .binary Value.shiftLeft
  | shiftRight => .binary Value.shiftRight
  | less => .binary Value.less
  | lessEq => .binary Value.lessEq
  | greater => .binary Value.greater
  | greaterEq => .binary Value.greaterEq
  | equal => .binary Value.equal
  | notEqual => .binary Value.notEqual
  | bitAnd => .binary Value.bitAnd
  | bitXor => .binary Value.bitXor
  | bitOr => .binary Value.bitOr
  | and => .binary Value.and
  | or => .binary Value.or
  | comma => .binary Value.second
  | _ => .none

namespace Operator

/-- What an operator computes; one whose reading is open computes nothing. -/
def folding : Operator → Folding
  | pre op => op.folding
  | post _ => .unary id
  | binary op => op.folding
  | _ => .none

/-- Whether the operator computes on constants. -/
def canEvaluate (op : Operator) : Bool :=
  match op.folding with
  | .none => false
  | _ => true

/-- The operator on one constant; undefined unless it takes one. -/
def evaluateUnary (op : Operator) (v : Value) : Value :=
  match op.folding with
  | .unary f => f v
  | _ => .undefined

/-- The operator on two constants; undefined unless it takes two. -/
def evaluateBinary (op : Operator) (a b : Value) : Value :=
  match op.folding with
  | .binary f => f a b
  | _ => .undefined

end Operator

end KernelTree
