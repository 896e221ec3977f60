import KernelTree.Expr.Eval
import KernelTree.Pass.Fault
import KernelTree.Statement

/-!
# Canonical loops

A loop is canonical if it declares one whole-number variable with a value, compares it with a bound
by `<`, `<=`, `>` or `>=`, on either side, and moves it by `++`, `--`, `+=` or `-=`. The facts of
such a loop tell how often it runs and which value its variable has each time, as expressions.
-/

namespace KernelTree

/-- The four comparisons by size. -/
def BinaryOp.isOrdering : BinaryOp → Bool
  | less => true
  | lessEq => true
  | greater => true
  | greaterEq => true
  | _ => false

/-- Whether a comparison by size holds of equal operands. -/
def BinaryOp.isInclusive : BinaryOp → Bool
  | lessEq => true
  | greaterEq => true
  | _ => false

/-- The facts of a canonical loop. -/
structure CanonicalLoop where
  iterator : VarId
  init : Expr
  checkOp : BinaryOp
  bound : Expr
  /-- Whether the check reads `iterator op bound` and not `bound op iterator`. -/
  boundOnRight : Bool
  updateOp : Operator
  /-- The step of `+=` and `-=`. -/
  step : Option Expr
  countsUp : Bool
  location : Location

namespace CanonicalLoop

/-- A fault of the loop at a place. -/
abbrev Fault := LoopFault × Location

/-- The variable of the loop and its first value. -/
def initFacts (t : SymbolTable) (init : Statement) : Except Fault (VarId × Expr) :=
  match init with
  -- The second variable is blamed, at the place where it is defined.
  | .declaration (_ :: extra :: _) _ => .error (.multipleIterators, (t.var extra.var).location)
  | .declaration [d] l =>
    let type := (t.var d.var).type
    if !(t.typeDef type.base).kind.isInteger || 0 < type.pointerDepth then
      .error (.iteratorType, (t.var d.var).location)
    else
      match d.value with
      | some value => .ok (d.var, value)
      | none => .error (.uninitialized, l)
  | s => .error (.notDeclaration, s.location)

/-- Whether an expression is the use of a variable. -/
def isUse (id : VarId) : Expr → Bool
  | .atom (.variable id') _ => id = id'
  | _ => false

/-- The comparison, the bound, and whether the bound is on the right. -/
def checkFacts (iterator : VarId) (check : Statement) : Except Fault (BinaryOp × Expr × Bool) :=
  match check with
  | .expression (.binary (.binary op) left right l) _ =>
    if !op.isOrdering then .error (.check, l)
    -- Where the variable stands on both sides, the left one counts.
    else if isUse iterator left then .ok (op, right, true)
    else if isUse iterator right then .ok (op, left, false)
    else .error (.check, l)
  | .expression e _ => .error (.check, e.location)
  | s => .error (.check, s.location)

/-- The direction of `++` and `--`, whichever side they are written on. -/
def stepOperator? (op : Operator) : Option Bool :=
  if op.mayBe .increment then some true
  else if op.mayBe .decrement then some false
  else none

/-- How an expression moves a variable: the operator, the step if one is written, and whether it
counts up. -/
def updateOf? (iterator : VarId) : Expr → Option (Operator × Option Expr × Bool)
  | .prefixed op v _ => if isUse iterator v then (stepOperator? op).map (op, none, ·) else none
  | .postfixed op v _ => if isUse iterator v then (stepOperator? op).map (op, none, ·) else none
  | .binary (.binary .addAssign) v step _ =>
    if isUse iterator v then some (.binary .addAssign, some step, true) else none
  | .binary (.binary .subAssign) v step _ =>
    if isUse iterator v then some (.binary .subAssign, some step, false) else none
  | _ => none

/-- How the loop moves its variable. -/
def updateFacts (iterator : VarId) (update : Statement) :
    Except Fault (Operator × Option Expr × Bool) :=
  match update with
  | .expression e _ =>
    match updateOf? iterator e with
    | some facts => .ok facts
    -- An update is blamed where its text begins, other parts where their node stands.
    | none => .error (.update, e.first.location)
  | s => .error (.update, s.location)

/-- The facts of a loop, or the first of its header that is not canonical. -/
def recognize (t : SymbolTable) (l : Loop) : Except Fault CanonicalLoop := do
  let (iterator, init) ← initFacts t l.init
  let (checkOp, bound, boundOnRight) ← checkFacts iterator l.check
  let (updateOp, step, countsUp) ← updateFacts iterator l.update
  return { iterator, init, checkOp, bound, boundOnRight, updateOp, step, countsUp,
           location := l.location }

/-- Whether the loop is canonical. -/
def isCanonical (t : SymbolTable) (l : Loop) : Bool := (recognize t l).toBool

/-- A fault as the error of a pass. -/
def Fault.error (context : String) (f : Fault) : PassError := ⟨.loop f.1 context, f.2⟩

/-- Whether the bound itself is among the values. -/
def isInclusive (c : CanonicalLoop) : Bool := c.checkOp.isInclusive

/-- The number one, placed at the loop. -/
def one (c : CanonicalLoop) : Expr := .ofValue (.int 1) c.location

/-- How often the loop runs: the distance from the first value to the bound, one more if the bound
is among the values, divided by the step and rounded up. -/
def iterationCount (c : CanonicalLoop) : Expr :=
  let init := c.init.wrapped
  let bound := c.bound.wrapped
  let distance := if c.countsUp then Expr.mkBinary .sub bound init else .mkBinary .sub init bound
  let distance := if c.isInclusive then .mkBinary .add distance c.one else distance
  match c.step with
  | none => distance
  | some step =>
    let step := step.wrapped
    let padded := Expr.mkBinary .sub (.mkBinary .add distance step) c.one
    .mkBinary .div padded.mkParens step

/-- The value of the variable after `count` steps. -/
def valueAfter (c : CanonicalLoop) (count : Expr) : Expr :=
  let offset := match c.step with
    | none => count.wrapped
    | some step => (Expr.mkBinary .mul step.wrapped count.wrapped).mkParens
  .mkBinary (if c.countsUp then .add else .sub) c.init.wrapped offset

end CanonicalLoop

end KernelTree
