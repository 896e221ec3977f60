import KernelTree.Pass

/-!
# Substitution of symbols

Every use of a type, variable or function becomes a use of another one of its sort. A type is also
used by casts, by `new` and by types with pointers, and a variable by the declaration that declares
it. Symbols of different sorts do not stand in for each other.
-/

namespace KernelTree

/-- One symbol to stand in for another. -/
structure Substitution where
  source : Symbol
  target : Symbol
  deriving DecidableEq, Repr

namespace Substitution

/-- The kinds of nodes that may use the symbol. -/
def accepts (sub : Substitution) (kind : NodeKind) : Bool :=
  match sub.source, kind with
  | .variable _, .variable => true
  | .function _, .function => true
  | .type _, .type => true
  | .type _, .vartype => true
  | .type _, .cast _ => true
  | .type _, .new => true
  | _, _ => false

/-- The variable that stands in for a variable. -/
def var (sub : Substitution) (id : VarId) : VarId :=
  match sub.source, sub.target with
  | .variable a, .variable b => if id = a then b else id
  | _, _ => id

/-- The function that stands in for a function. -/
def func (sub : Substitution) (id : FuncId) : FuncId :=
  match sub.source, sub.target with
  | .function a, .function b => if id = a then b else id
  | _, _ => id

/-- The type that stands in for a type. -/
def type (sub : Substitution) (id : TypeId) : TypeId :=
  match sub.source, sub.target with
  | .type a, .type b => if id = a then b else id
  | _, _ => id

/-- The type with its base replaced. -/
def vartype (sub : Substitution) (t : Vartype) : Vartype := { t with base := sub.type t.base }

/-- The leaf with the symbol that it uses replaced. -/
def atom (sub : Substitution) : Atom → Atom
  | .variable id => .variable (sub.var id)
  | .function id => .function (sub.func id)
  | .type id => .type (sub.type id)
  | .vartype t => .vartype (sub.vartype t)
  | a => a

/-- The node with its own symbol replaced; the nodes below it stay. -/
def node (sub : Substitution) : Expr → Expr
  | .atom a l => .atom (sub.atom a) l
  | .cast kind t v l => .cast kind (sub.vartype t) v l
  | .new t v size l => .new (sub.vartype t) v size l
  | e => e

/-- The substitution as a pass over expressions. -/
def exprPass (sub : Substitution) : ExprPass Unit Empty where
  accepts := sub.accepts
  visit e s := (.ok (.replace (sub.node e)), s)

/-- The declarator with its variable replaced. -/
def declarator (sub : Substitution) (d : Declarator) : Declarator := { d with var := sub.var d.var }

/-- The declaration with the variables that it declares replaced; other statements stay. -/
def declared (sub : Substitution) : Statement → Statement
  | .declaration ds l => .declaration (ds.map sub.declarator) l
  | s => s

/-- The statements that hold expressions or declare variables. -/
def acceptsStatement : StatementKind → Bool
  | .expression => true
  | .declaration => true
  | .return => true
  | _ => false

/-- The substitution as a pass over statements. -/
def statementPass (sub : Substitution) : StatementPass Unit Empty where
  accepts := acceptsStatement
  visit s _ state :=
    (.ok (.replace (((sub.declared s).walkExprs sub.exprPass).start state).1), state)

end Substitution

/-- The expression with one symbol in place of another. -/
def Expr.substitute (sub : Substitution) (e : Expr) : Expr :=
  ((e.walk sub.exprPass).start ()).1

/-- The statement with one symbol in place of another. -/
def Statement.substitute (sub : Substitution) (s : Statement) : Statement :=
  ((s.walk sub.statementPass (s.scope?.getD .global)).start ()).1

end KernelTree
