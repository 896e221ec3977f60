import KernelTree.Attribute

/-!
# Named things and their scopes

The table owns types, variables and functions; trees refer to them by handles. Scopes form a forest
by their parents, and a name means what the nearest scope on the chain of parents says. A chain
that runs in a circle is cut off after as many scopes as there are, when it has shown all it has to
show.
-/

namespace KernelTree

/-- A type: its name and family. -/
structure TypeDef where
  name : String
  kind : TypeKind
  deriving Inhabited

/-- A variable as declared. -/
structure VariableDef where
  name : String
  type : Vartype
  attributes : Attributes
  location : Location
  deriving Inhabited

/-- A function as declared. -/
structure FunctionDef where
  name : String
  returnType : Vartype
  location : Location
  deriving Inhabited

/-- A scope: the scope around it and the names it declares, sorted. -/
structure Scope where
  parent : Option ScopeId
  names : List (String × Symbol)

/-- All named things, each found by the number of its handle. -/
structure SymbolTable where
  types : Array TypeDef
  vars : Array VariableDef
  funcs : Array FunctionDef
  scopes : Array Scope

namespace SymbolTable

/-! ### Reading -/

/-- The variable of a handle. -/
def var (t : SymbolTable) (id : VarId) : VariableDef := t.vars.getD id.index default

/-- The function of a handle. -/
def func (t : SymbolTable) (id : FuncId) : FunctionDef := t.funcs.getD id.index default

/-- The type of a handle. -/
def typeDef (t : SymbolTable) (id : TypeId) : TypeDef := t.types.getD id.index default

/-- What the handles are called. -/
def names (t : SymbolTable) : Names where
  type id := (t.typeDef id).name
  var id := (t.var id).name
  func id := (t.func id).name

/-- The scope around a scope. -/
def parent? (t : SymbolTable) (scope : ScopeId) : Option ScopeId :=
  t.scopes[scope.index]?.bind Scope.parent

/-- What a scope itself says about a name. -/
def lookupLocal (t : SymbolTable) (scope : ScopeId) (name : String) : Option Symbol :=
  t.scopes[scope.index]?.bind fun s => (ByName.find? Prod.fst s.names name).map Prod.snd

/-- At most `count` scopes of the chain of parents that starts with `scope`. -/
def chainUpTo (t : SymbolTable) : Nat → ScopeId → List ScopeId
  | 0, _ => []
  | count + 1, scope =>
    scope :: match t.parent? scope with
      | some parent => t.chainUpTo count parent
      | none => []

/-- A scope and the scopes around it, from the inside out. -/
def chain (t : SymbolTable) (scope : ScopeId) : List ScopeId :=
  t.chainUpTo t.scopes.size scope

/-- What a name means in a scope: what the nearest scope on its chain says. -/
def lookup (t : SymbolTable) (scope : ScopeId) (name : String) : Option Symbol :=
  (t.chain scope).findSome? fun s => t.lookupLocal s name

/-! ### Writing -/

/-- Lets a name stand for a symbol in a scope. -/
def declare (t : SymbolTable) (scope : ScopeId) (name : String) (symbol : Symbol) : SymbolTable :=
  { t with
    scopes := t.scopes.modify scope.index fun s =>
      { s with names := ByName.insert Prod.fst (name, symbol) s.names } }

/-- Adds a scope inside another. -/
def newScope (t : SymbolTable) (parent : ScopeId) : ScopeId × SymbolTable :=
  (⟨t.scopes.size⟩, { t with scopes := t.scopes.push ⟨some parent, []⟩ })

/-- Puts a scope inside another, or inside none. -/
def setParent (t : SymbolTable) (scope : ScopeId) (parent : Option ScopeId) : SymbolTable :=
  { t with scopes := t.scopes.modify scope.index fun s => { s with parent } }

/-- Adds a type and declares it in a scope. -/
def addType (t : SymbolTable) (scope : ScopeId) (type : TypeDef) : TypeId × SymbolTable :=
  let id : TypeId := ⟨t.types.size⟩
  (id, { t with types := t.types.push type }.declare scope type.name (.type id))

/-- Adds a variable and declares it in a scope. -/
def addVariable (t : SymbolTable) (scope : ScopeId) (v : VariableDef) : VarId × SymbolTable :=
  let id : VarId := ⟨t.vars.size⟩
  (id, { t with vars := t.vars.push v }.declare scope v.name (.variable id))

/-- Adds a function and declares it in a scope. -/
def addFunction (t : SymbolTable) (scope : ScopeId) (f : FunctionDef) : FuncId × SymbolTable :=
  let id : FuncId := ⟨t.funcs.size⟩
  (id, { t with funcs := t.funcs.push f }.declare scope f.name (.function id))

/-- Adds a copy of a variable under another name, declared nowhere. -/
def cloneVariable (t : SymbolTable) (id : VarId) (name : String) : VarId × SymbolTable :=
  (⟨t.vars.size⟩, { t with vars := t.vars.push { t.var id with name } })

/-- Adds attributes to a variable, in place of those of the same names. -/
def addAttributes (t : SymbolTable) (id : VarId) (attributes : Attributes) : SymbolTable :=
  { t with
    vars := t.vars.modify id.index fun v =>
      { v with attributes := v.attributes.merge attributes } }

/-- No names but those of the builtin types, in the outermost scope. -/
def initial : SymbolTable :=
  builtinTypes.foldl (fun t (name, kind) => (t.addType .global ⟨name, kind⟩).2)
    ⟨#[], #[], #[], #[⟨none, []⟩]⟩

/-! ### Names in trees -/

/-- The leaf that an identifier becomes in a scope; other leaves stay. -/
def resolveAtom (t : SymbolTable) (scope : ScopeId) (a : Atom) : Atom :=
  match a with
  | .identifier name => ((t.lookup scope name).map Atom.ofSymbol).getD a
  | a => a

/-- Whether a leaf is an identifier that has a meaning in a scope. -/
def isResolvable (t : SymbolTable) (scope : ScopeId) (a : Atom) : Bool :=
  match a with
  | .identifier name => (t.lookup scope name).isSome
  | _ => false

/-- Replaces the identifiers that have a meaning in a scope. -/
def resolve (t : SymbolTable) (scope : ScopeId) (e : Expr) : Expr :=
  e.mapAtoms (t.resolveAtom scope)

/-- How many identifiers `resolve` replaces. -/
def resolvedCount (t : SymbolTable) (scope : ScopeId) (e : Expr) : Nat :=
  e.atoms.countP (t.isResolvable scope)

end SymbolTable

end KernelTree
