import KernelTree.Expr.Eval
import KernelTree.Pass
import KernelTree.Pass.Fault

/-!
# Flat access to arrays

A variable with the attribute `@dim(X, Y)` can be used like a function of its indices: `A(i, j)`
becomes `A[i + (X * j)]`. The attribute `@dimOrder(1, 0)` permutes the axes; the first in the order
moves fastest. The calls of one statement are flattened together or not at all.
-/

namespace KernelTree

namespace Flatten

/-- The attribute that gives the extents. -/
def dimName : String := "dim"

/-- The attribute that gives the order of the axes. -/
def orderName : String := "dimOrder"

/-- The constant that an argument names as an axis, if it is one of `count` and not among those
already seen. -/
def axis? (count : Nat) (seen : List Nat) (n : Int64) : Option Nat :=
  if 0 ≤ n.toInt ∧ n.toInt < count ∧ n.toInt.toNat ∉ seen then some n.toInt.toNat else none

/-- The axes that expressions name, each a constant and none of them twice; `seen` are those named
before. -/
def axes (count : Nat) (place : Location) (seen : List Nat) :
    List Expr → Except PassError (List Nat)
  | [] => .ok []
  | e :: rest =>
    match e.evaluate.toInt64? with
    | none => .error ⟨.orderNotConstant, e.location⟩
    | some n =>
      match axis? count seen n with
      | none => .error ⟨.orderNotPermutation count, place⟩
      | some axis => (axes count place (axis :: seen) rest).map (axis :: ·)

/-- The order of the axes that the attribute gives. -/
def order (count : Nat) (a : Attribute) : Except PassError (List Nat) :=
  if count < a.args.length then .error ⟨.tooManyDimensions count, a.location⟩
  else if a.args.length < count then .error ⟨.missingDimensions count, a.location⟩
  else axes count a.location [] (a.args.map Argument.value)

/-- The index of indices and extents, the fastest axis first: each index plus its extent times the
index of the slower axes. -/
def index (place : Location) : List (Expr × Expr) → Expr
  | [] => .empty place
  | [(i, _)] => i
  | (i, extent) :: rest =>
    .mkBinary .add i.wrapped
      (Expr.mkBinary .mul extent.wrapped (index place rest).wrapped).mkParens

/-- The order of the axes of a variable with `count` of them. -/
def orderOf (v : VariableDef) (count : Nat) : Except PassError (List Nat) :=
  match v.attributes.find? orderName with
  | some a => order count a
  | none => .ok (List.range count)

/-- What becomes of the call of a variable; nothing if the variable has no axes. -/
def call? (t : SymbolTable) (scope : ScopeId) (callee : Expr) (id : VarId) (args : List Expr)
    (place : Location) : Except PassError (Option Expr) :=
  match (t.var id).attributes.find? dimName with
  | none => .ok none
  | some dim =>
    let count := dim.args.length
    match args[count]? with
    | some extra => .error ⟨.tooManyDimensions count, extra.location⟩
    | none =>
      if args.length < count then .error ⟨.missingDimensions count, callee.location⟩
      else if count = 0 then .ok none
      else do
        let order ← orderOf (t.var id) count
        let pairs := args.zip (dim.args.map Argument.value)
        let flat := Expr.subscript callee (index place (order.filterMap (pairs[·]?))) place
        return some (t.resolve scope flat)

/-- Flattens a call of a variable with axes; faults are reported. -/
def visit (t : SymbolTable) (scope : ScopeId) (e : Expr) (d : Diagnostics) :
    Except PassError (Verdict Expr) × Diagnostics :=
  match e with
  | .call callee args place =>
    match callee with
    | .atom (.variable id) _ =>
      match call? t scope callee id args place with
      | .ok none => (.ok .keep, d)
      | .ok (some flat) => (.ok (.replace flat), d)
      | .error f => (.error f, d.report f)
    | _ => (.ok .keep, d)
  | _ => (.ok .keep, d)

/-- Flattening as a pass over expressions. -/
def exprPass (t : SymbolTable) (scope : ScopeId) : ExprPass Diagnostics PassError where
  accepts kind := kind = .call
  visit := visit t scope

/-- The statements whose own expressions are flattened. -/
def acceptsStatement : StatementKind → Bool
  | .expression => true
  | .declaration => true
  | _ => false

/-- Flattens all expressions of a statement, or none if one of them fails. -/
def visitStatement (t : SymbolTable) (s : Statement) (scope : ScopeId) (d : Diagnostics) :
    Except PassError (Verdict Statement) × Diagnostics :=
  let (flat, progress) := (s.walkExprs (exprPass t scope)).start d
  match progress.failure with
  | none => (.ok (.replace flat), progress.state)
  | some f => (.error f, progress.state)

/-- Flattening as a pass over statements. -/
def statementPass (t : SymbolTable) : StatementPass Diagnostics PassError where
  accepts := acceptsStatement
  visit := visitStatement t

end Flatten

/-- Flattens the calls of a single expression, all of them or none. -/
def Expr.flatten (t : SymbolTable) (scope : ScopeId) (e : Expr) (d : Diagnostics) :
    Expr × Progress Diagnostics PassError :=
  let (flat, progress) := (e.walk (Flatten.exprPass t scope)).start d
  (if progress.failure.isSome then e else flat, progress)

/-- Flattens the calls in a statement and everything below it. -/
def Statement.flatten (t : SymbolTable) (scope : ScopeId) (s : Statement) (d : Diagnostics) :
    Statement × Progress Diagnostics PassError :=
  (s.walk (Flatten.statementPass t) scope).start d

end KernelTree
