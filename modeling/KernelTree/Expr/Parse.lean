import KernelTree.Diagnostic
import KernelTree.Expr.Build
import KernelTree.SymbolTable
import KernelTree.Token.Scan

/-!
# From text to trees

Text is split into tokens and a tree is built of them, with the names of a scope given their meaning
on the way or left as they are.
-/

namespace KernelTree

/-- Why a text is no expression. -/
inductive ParseError
  | scan (e : ScanError)
  | build (e : BuildError)
  deriving DecidableEq, Repr

namespace ParseError

/-- The fault in words. -/
def message : ParseError → String
  | scan e => e.fault.message
  | build e => e.fault.message

/-- The place the fault is blamed on. -/
def location : ParseError → Location
  | scan e => e.location
  | build e => e.location

end ParseError

/-- Reads an expression, with names given a meaning as they are read. -/
def Expr.parse (names : Naming) (source : String) : Except ParseError Expr :=
  match tokenize names source with
  | .error e => .error (.scan e)
  | .ok tokens =>
    match Expr.ofTokens tokens with
    | .error e => .error (.build e)
    | .ok e => .ok e

/-- The meaning that names have in a scope. -/
def SymbolTable.naming (t : SymbolTable) (scope : ScopeId) : Naming := t.lookup scope

/-- Reads an expression in a scope. -/
def SymbolTable.parse (t : SymbolTable) (scope : ScopeId) (source : String) :
    Except ParseError Expr :=
  Expr.parse (t.naming scope) source

/-- Adds the fault of a text to the diagnostics. -/
def Diagnostics.reportParse (d : Diagnostics) (e : ParseError) : Diagnostics :=
  d.error e.location e.message

end KernelTree
