import KernelTree.Location
import KernelTree.Operator
import KernelTree.Symbol
import KernelTree.Value.Text

/-!
# Tokens

A token is an atom, which becomes a leaf of the tree, or an operator.
-/

namespace KernelTree

/-- The leaves of an expression. Texts in quotes keep their escapes as they are written. -/
inductive Atom
  | value (v : Value)
  | char (text : String)
  | string (text : String)
  | identifier (name : String)
  | type (id : TypeId)
  | vartype (type : Vartype)
  | variable (id : VarId)
  | function (id : FuncId)
  deriving BEq, Inhabited

/-- The type that an atom names, if it names one. -/
def Atom.vartype? : Atom → Option Vartype
  | type id => some (.plain id)
  | vartype t => some t
  | _ => none

/-- The leaf that a type is read as. -/
def Vartype.atom (t : Vartype) : Atom :=
  if t.isConst = false ∧ t.pointerDepth = 0 then .type t.base else .vartype t

theorem Vartype.vartype?_atom (t : Vartype) : t.atom.vartype? = some t := by
  obtain ⟨base, isConst, depth⟩ := t
  by_cases h : isConst = false ∧ depth = 0
  · obtain ⟨rfl, rfl⟩ := h
    rfl
  · rw [Vartype.atom, if_neg h]
    rfl

/-- A name that is looked up stands for a symbol. -/
def Atom.ofSymbol : Symbol → Atom
  | .type id => .type id
  | .variable id => .variable id
  | .function id => .function id

/-- A token without its place. -/
inductive Lexeme
  | atom (a : Atom)
  | op (o : Operator)
  deriving Inhabited

namespace Lexeme

/-- Whether the token becomes a leaf. -/
def isAtom : Lexeme → Bool
  | atom _ => true
  | op _ => false

/-- The operator of a token, if it is one. -/
def operator? : Lexeme → Option Operator
  | atom _ => none
  | op o => some o

/-- A token in words. -/
def describe : Lexeme → String
  | atom (.value v) => "primitive " ++ v.render
  | atom (.char text) => "char literal '" ++ text ++ "'"
  | atom (.string text) => "string literal \"" ++ text ++ "\""
  | atom (.identifier name) => "identifier '" ++ name ++ "'"
  | atom (.type id) => "type #" ++ toString id.index
  | atom (.vartype type) => "vartype #" ++ toString type.base.index
  | atom (.variable id) => "variable #" ++ toString id.index
  | atom (.function id) => "function #" ++ toString id.index
  | op o => "'" ++ o.symbol ++ "'"

end Lexeme

/-- A piece of text that was read, and where it starts. -/
structure Token where
  lexeme : Lexeme
  location : Location
  deriving Inhabited

end KernelTree
