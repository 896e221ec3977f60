import KernelTree.Expr
import KernelTree.Operator.Folding

/-!
# Constant expressions

`Expr.canEvaluate` tells which expressions are made of constants and computing operators only, and
`Expr.evaluate` gives their value. The right side of `&&` and `||` needs a value only where the left
side leaves it open, and a conditional only on the branch it takes; but every part has to be
constant in form.
-/

namespace KernelTree

namespace Expr

/-- Whether the expression is constant in form. -/
def canEvaluate : Expr → Bool
  | atom (.value _) _ => true
  | parens v _ => v.canEvaluate
  | prefixed op v _ => op.canEvaluate && v.canEvaluate
  | postfixed op v _ => op.canEvaluate && v.canEvaluate
  | binary op a b _ => op.canEvaluate && a.canEvaluate && b.canEvaluate
  | ternary a b c _ => a.canEvaluate && b.canEvaluate && c.canEvaluate
  | sizeof v _ => v.canEvaluate
  | _ => false

/-- The value of an expression that is constant in form. -/
def fold : Expr → Value
  | atom (.value v) _ => v
  | parens v _ => v.fold
  | prefixed op v _ => op.evaluateUnary v.fold
  | postfixed op v _ => op.evaluateUnary v.fold
  | binary op a b _ =>
    let left := a.fold
    if op = .binary .and ∧ left.toBool? = some false then .bool false
    else if op = .binary .or ∧ left.toBool? = some true then .bool true
    else op.evaluateBinary left b.fold
  | ternary a b c _ =>
    match a.fold.toBool? with
    | some true => b.fold
    | some false => c.fold
    | none => .undefined
  | sizeof v _ =>
    match v.fold.size? with
    | some size => .long (Int64.ofNat size)
    | none => .undefined
  | _ => .undefined

/-- The value of an expression, undefined where it is not constant in form. -/
def evaluate (e : Expr) : Value := if e.canEvaluate then e.fold else .undefined

end Expr

end KernelTree
