/-!
# Handles of named things

Types, variables, functions and scopes are known by handles that count them in the order of their
creation. The eight builtin types come first and have fixed handles.
-/

namespace KernelTree

/-- The handle of a type. -/
structure TypeId where
  index : Nat
  deriving DecidableEq, Repr, Inhabited

/-- The handle of a variable. -/
structure VarId where
  index : Nat
  deriving DecidableEq, Repr, Inhabited

/-- The handle of a function. -/
structure FuncId where
  index : Nat
  deriving DecidableEq, Repr, Inhabited

/-- The handle of a scope. -/
structure ScopeId where
  index : Nat
  deriving DecidableEq, Repr, Inhabited

/-- The outermost scope. -/
def ScopeId.global : ScopeId := ⟨0⟩

/-- The families of types. -/
inductive TypeKind
  | void
  | bool
  | char
  | short
  | int
  | long
  | float
  | double
  | struct
  deriving DecidableEq, Repr, Inhabited

namespace TypeKind

/-- The types that count. -/
def isInteger : TypeKind → Bool
  | char => true
  | short => true
  | int => true
  | long => true
  | _ => false

end TypeKind

/-- The builtin types in the order of their handles. -/
def builtinTypes : List (String × TypeKind) :=
  [("void", .void), ("bool", .bool), ("char", .char), ("short", .short), ("int", .int),
    ("long", .long), ("float", .float), ("double", .double)]

/-- The handle of a builtin type. -/
def TypeId.builtin? (name : String) : Option TypeId :=
  (builtinTypes.findIdx? fun t => t.1 = name).map TypeId.mk

/-- A type as it is written: a base type, perhaps constant, behind a number of pointers. -/
structure Vartype where
  base : TypeId
  isConst : Bool
  pointerDepth : Nat
  deriving DecidableEq, Repr, Inhabited

/-- A base type by itself. -/
def Vartype.plain (base : TypeId) : Vartype := ⟨base, false, 0⟩

/-- What a name may stand for. -/
inductive Symbol
  | type (id : TypeId)
  | variable (id : VarId)
  | function (id : FuncId)
  deriving DecidableEq, Repr

end KernelTree
