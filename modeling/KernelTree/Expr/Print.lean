import KernelTree.Expr

/-!
# Expressions as text

`Expr.render` writes an expression as source and `Expr.dump` lists its nodes, one a line, indented
by depth. Handles carry no names, so both are given the names to write (`Names`).

Brackets are written where the tree has them, but for the operand of `sizeof` and a conditional in
the condition of another, which are always bracketed. A blank keeps `- -x` from becoming `--x`.
-/

namespace KernelTree

/-- What handles are called. -/
structure Names where
  type : TypeId → String
  var : VarId → String
  func : FuncId → String

/-- A type as it is written: `const float*`. -/
def Names.vartype (names : Names) (t : Vartype) : String :=
  (if t.isConst then "const " else "") ++ names.type t.base ++
    String.ofList (List.replicate t.pointerDepth '*')

/-- The word of a named cast; the other two spellings have none. -/
def CastKind.keyword : CastKind → String
  | function => ""
  | paren => ""
  | const => "const_cast"
  | static => "static_cast"
  | reinterpret => "reinterpret_cast"
  | dynamic => "dynamic_cast"

/-- A leaf as source. -/
def Atom.render (names : Names) : Atom → String
  | .value v => v.render
  | .char text => "'" ++ text ++ "'"
  | .string text => "\"" ++ text ++ "\""
  | .identifier name => name
  | .type id => names.type id
  | .vartype t => names.vartype t
  | .variable id => names.var id
  | .function id => names.func id

namespace Expr

/-- A prefix operator and its operand, with a blank between them if they would read as one
symbol. -/
def joinPrefixed (symbol operand : String) : String :=
  if symbol.toList.getLast? = operand.toList.head? then symbol ++ " " ++ operand
  else symbol ++ operand

/-- Two operands around an operator: a comma has a blank behind it, access to a member has none, and
other operators have one on either side. -/
def joinBinary (op : Operator) (left right : String) : String :=
  if op = .binary .comma then left ++ ", " ++ right
  else if op.mayBe .memberAccess then left ++ op.symbol ++ right
  else left ++ " " ++ op.symbol ++ " " ++ right

/-- A text in round brackets. -/
def bracketed (text : String) : String := "(" ++ text ++ ")"

mutual

/-- The expression as source. -/
def render (names : Names) : Expr → String
  | empty _ => ""
  | atom a _ => a.render names
  | prefixed op v _ => joinPrefixed op.symbol (v.render names)
  | postfixed op v _ => v.render names ++ op.symbol
  | binary op a b _ => joinBinary op (a.render names) (b.render names)
  | ternary a b c _ =>
    let check := match a with
      | ternary .. => bracketed (a.render names)
      | _ => a.render names
    check ++ " ? " ++ b.render names ++ " : " ++ c.render names
  | pair op v _ => op.symbol ++ v.render names ++ op.counterpart
  | subscript a b _ => a.render names ++ "[" ++ b.render names ++ "]"
  | call f args _ => f.render names ++ bracketed (", ".intercalate (renderAll names args))
  | launch k b t _ =>
    k.render names ++ "<<<" ++ b.render names ++ ", " ++ t.render names ++ ">>>"
  | sizeof v _ =>
    "sizeof" ++ match v with
      | parens .. => v.render names
      | _ => bracketed (v.render names)
  | new t v size _ =>
    "new " ++ names.vartype t ++ (if v.isEmpty then "" else bracketed (v.render names)) ++
      if size.isEmpty then "" else "[" ++ size.render names ++ "]"
  | delete v isArray _ => (if isArray then "delete [] " else "delete ") ++ v.render names
  | throw v _ => if v.isEmpty then "throw" else "throw " ++ v.render names
  | cast .paren t v _ => bracketed (names.vartype t) ++ " " ++ v.render names
  | cast .function t v _ => names.vartype t ++ bracketed (v.render names)
  | cast kind t v _ =>
    kind.keyword ++ "<" ++ names.vartype t ++ ">" ++ bracketed (v.render names)
  | parens v _ => bracketed (v.render names)
  | tuple args _ => "\x7b" ++ ", ".intercalate (renderAll names args) ++ "\x7d"

/-- Each expression of a list as source. -/
def renderAll (names : Names) : List Expr → List String
  | [] => []
  | e :: rest => e.render names :: renderAll names rest

end

/-! ### The dump -/

/-- What the dump says of a node: its operator, brackets, type or text. -/
def label (names : Names) : Expr → String
  | prefixed op .. => op.symbol
  | postfixed op .. => op.symbol
  | binary op .. => op.symbol
  | pair op .. => op.symbol ++ op.counterpart
  | ternary .. => "?:"
  | subscript .. => "[]"
  | call .. => "()"
  | launch .. => "<<<>>>"
  | parens .. => "()"
  | tuple .. => "\x7b\x7d"
  | cast _ t _ _ => names.vartype t
  | new t _ _ _ => names.vartype t
  | sizeof .. => "sizeof"
  | delete .. => "delete"
  | throw .. => "throw"
  | e => e.render names

end Expr

/-- What the dump calls a kind of node. -/
def NodeKind.title : NodeKind → String
  | empty => "empty"
  | value => "primitive"
  | char => "char"
  | string => "string"
  | identifier => "identifier"
  | type => "type"
  | vartype => "vartype"
  | .variable => "variable"
  | function => "function"
  | prefixed => "left unary"
  | postfixed => "right unary"
  | binary => "binary"
  | ternary => "ternary"
  | pair => "pair"
  | subscript => "subscript"
  | call => "call"
  | launch => "cuda call"
  | sizeof => "sizeof"
  | new => "new"
  | delete => "delete"
  | throw => "throw"
  | cast .function => "function cast"
  | cast .paren => "paren cast"
  | cast .const => "const_cast"
  | cast .static => "static_cast"
  | cast .reinterpret => "reinterpret_cast"
  | cast .dynamic => "dynamic_cast"
  | parens => "parentheses"
  | tuple => "tuple"

/-- The nodes of the tree, one a line, each behind a bar for every node above it. -/
def Expr.dump (names : Names) (e : Expr) : String :=
  String.join <| (e.outline 0).map fun (depth, node) =>
    String.join (List.replicate depth "|   ") ++
      "|---[" ++ node.label names ++ "] (" ++ node.kind.title ++ ")\n"

end KernelTree
