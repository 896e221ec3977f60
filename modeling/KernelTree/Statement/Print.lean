import KernelTree.Statement

/-!
# Statements as source

Bodies stand in curly brackets, one statement a line, each level two blanks further in. The headers
of loops and branches are written without semicolons of their own, and a statement that cannot
stand in a header leaves nothing there.
-/

namespace KernelTree

/-- A variable and its initial value, if it has one. -/
def Declarator.render (names : Names) (d : Declarator) : String :=
  names.var d.var ++ match d.value with
    | some v => " = " ++ v.render names
    | none => ""

namespace Statement

/-- The blanks in front of a line at a depth. -/
def indent (depth : Nat) : String := String.join (List.replicate depth "  ")

/-- The statement without a semicolon, as it stands in a header. The first variable of a declaration
gives the type for all. -/
def renderInline (t : SymbolTable) : Statement → String
  | .expression e _ => e.render t.names
  | .declaration [] _ => ""
  | .declaration (d :: rest) _ =>
    t.names.vartype (t.var d.var).type ++ " " ++
      ", ".intercalate ((d :: rest).map (Declarator.render t.names))
  | _ => ""

/-- Lines in curly brackets; the closing bracket goes to the given depth. -/
def braced (depth : Nat) (lines : List String) : String :=
  "\x7b\n" ++ String.join (lines.map (· ++ "\n")) ++ indent depth ++ "\x7d"

mutual

/-- The statement as source, with the blanks of its depth in front. -/
def render (t : SymbolTable) (depth : Nat) : Statement → String
  | .empty _ => indent depth ++ ";"
  | .block _ body _ => indent depth ++ braced depth (renderAll t (depth + 1) body)
  | .expression e l => indent depth ++ renderInline t (.expression e l) ++ ";"
  | .declaration ds l => indent depth ++ renderInline t (.declaration ds l) ++ ";"
  | .loop _ init check update body attributes _ =>
    indent depth ++ "for (" ++
      "; ".intercalate ([renderInline t init, renderInline t check, renderInline t update] ++
        Attribute.renderAll t.names attributes) ++
      ") " ++ braced depth (renderAll t (depth + 1) body)
  | .branch _ condition body none _ =>
    indent depth ++ "if (" ++ renderInline t condition ++ ") " ++
      braced depth (renderAll t (depth + 1) body)
  | .branch _ condition body (some otherwise) _ =>
    indent depth ++ "if (" ++ renderInline t condition ++ ") " ++
      braced depth (renderAll t (depth + 1) body) ++ " else " ++
      braced depth (renderAll t (depth + 1) otherwise)
  | .while _ condition body true _ =>
    indent depth ++ "do " ++ braced depth (renderAll t (depth + 1) body) ++ " while (" ++
      renderInline t condition ++ ");"
  | .while _ condition body false _ =>
    indent depth ++ "while (" ++ renderInline t condition ++ ") " ++
      braced depth (renderAll t (depth + 1) body)
  | .return (some v) _ => indent depth ++ "return " ++ v.render t.names ++ ";"
  | .return none _ => indent depth ++ "return;"

/-- Each statement of a list as source. -/
def renderAll (t : SymbolTable) (depth : Nat) : List Statement → List String
  | [] => []
  | s :: rest => render t depth s :: renderAll t depth rest

end

end Statement

end KernelTree
