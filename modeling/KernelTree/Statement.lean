import KernelTree.SymbolTable

/-!
# Statements

The tree of a statement. Blocks, loops and branches open a scope of their own and carry its handle.
The headers of loops and branches are statements too.
-/

namespace KernelTree

/-- A variable that a declaration declares, with its initial value if it has one. -/
structure Declarator where
  var : VarId
  value : Option Expr

/-- A statement. -/
inductive Statement
  | empty (location : Location)
  | block (scope : ScopeId) (body : List Statement) (location : Location)
  | expression (e : Expr) (location : Location)
  | declaration (declarators : List Declarator) (location : Location)
  | loop (scope : ScopeId) (init check update : Statement) (body : List Statement)
      (attributes : Attributes) (location : Location)
  | branch (scope : ScopeId) (condition : Statement) (body : List Statement)
      (otherwise : Option (List Statement)) (location : Location)
  | while (scope : ScopeId) (condition : Statement) (body : List Statement) (isDoWhile : Bool)
      (location : Location)
  | return (value : Option Expr) (location : Location)
  deriving Inhabited

/-- The kinds of statements that a walk can be restricted to. -/
inductive StatementKind
  | empty
  | block
  | expression
  | declaration
  | loop
  | branch
  | while
  | return
  deriving DecidableEq, Repr

/-- A counting loop taken apart. -/
structure Loop where
  scope : ScopeId
  init : Statement
  check : Statement
  update : Statement
  body : List Statement
  attributes : Attributes
  location : Location

/-- The loop as a statement. -/
def Loop.toStatement (l : Loop) : Statement :=
  .loop l.scope l.init l.check l.update l.body l.attributes l.location

namespace Statement

/-- Where the statement stands. -/
def location : Statement → Location
  | .empty l => l
  | .block _ _ l => l
  | .expression _ l => l
  | .declaration _ l => l
  | .loop _ _ _ _ _ _ l => l
  | .branch _ _ _ _ l => l
  | .while _ _ _ _ l => l
  | .return _ l => l

/-- The kind of the statement. -/
def kind : Statement → StatementKind
  | .empty .. => .empty
  | .block .. => .block
  | .expression .. => .expression
  | .declaration .. => .declaration
  | .loop .. => .loop
  | .branch .. => .branch
  | .while .. => .while
  | .return .. => .return

/-- The scope that the statement opens. -/
def scope? : Statement → Option ScopeId
  | .block s _ _ => some s
  | .loop s _ _ _ _ _ _ => some s
  | .branch s _ _ _ _ => some s
  | .while s _ _ _ _ => some s
  | _ => none

/-- The loop that the statement is. -/
def loop? : Statement → Option Loop
  | .loop scope init check update body attributes location =>
    some { scope, init, check, update, body, attributes, location }
  | _ => none

/-- A statement of one expression, standing where the expression stands. -/
def ofExpr (e : Expr) : Statement := .expression e e.location

/-- A declaration of one variable. -/
def declare (id : VarId) (value : Option Expr) (location : Location) : Statement :=
  .declaration [⟨id, value⟩] location

/-- The expressions that the statement itself holds, not those of statements inside it. -/
def exprs : Statement → List Expr
  | .expression e _ => [e]
  | .declaration ds _ => ds.filterMap Declarator.value
  | .return v _ => v.toList
  | _ => []

end Statement

/-- The declarators with other initial values, for those that have one. -/
def Declarator.withValues : List Declarator → List Expr → List Declarator
  | ⟨v, some _⟩ :: rest, e :: es => ⟨v, some e⟩ :: withValues rest es
  | ⟨v, none⟩ :: rest, es => ⟨v, none⟩ :: withValues rest es
  | rest, _ => rest

/-- The statement with other expressions in the places of its own. -/
def Statement.withExprs : Statement → List Expr → Statement
  | .expression _ l, [e] => .expression e l
  | .declaration ds l, es => .declaration (Declarator.withValues ds es) l
  | .return (some _) l, [e] => .return (some e) l
  | s, _ => s

end KernelTree
