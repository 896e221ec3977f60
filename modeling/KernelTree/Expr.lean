import KernelTree.Token

/-!
# Expressions

The tree of an expression. `Expr.children` lists the subtrees of a node from left to right and
`Expr.withChildren` puts others in their place, so that walks over trees need not tell the kinds of
nodes apart; `Expr.inductionOn` proves a property of all trees from that of the children.

Nodes stand at a place in the source: operators in front of an operand and brackets at themselves,
all other nodes at their first child.
-/

namespace KernelTree

/-- The spellings of a conversion: `T(x)`, `(T) x` and the four named ones. -/
inductive CastKind
  | function
  | paren
  | const
  | static
  | reinterpret
  | dynamic
  deriving DecidableEq, Repr

/-- An expression. A `pair` is a bracket around a value whose meaning is not settled. -/
inductive Expr
  | empty (location : Location)
  | atom (a : Atom) (location : Location)
  | prefixed (op : Operator) (value : Expr) (location : Location)
  | postfixed (op : Operator) (value : Expr) (location : Location)
  | binary (op : Operator) (left right : Expr) (location : Location)
  | ternary (check onTrue onFalse : Expr) (location : Location)
  | pair (op : Operator) (value : Expr) (location : Location)
  | subscript (value index : Expr) (location : Location)
  | call (callee : Expr) (args : List Expr) (location : Location)
  | launch (kernel blocks threads : Expr) (location : Location)
  | sizeof (value : Expr) (location : Location)
  | new (type : Vartype) (value size : Expr) (location : Location)
  | delete (value : Expr) (isArray : Bool) (location : Location)
  | throw (value : Expr) (location : Location)
  | cast (kind : CastKind) (type : Vartype) (value : Expr) (location : Location)
  | parens (value : Expr) (location : Location)
  | tuple (args : List Expr) (location : Location)
  deriving Inhabited

/-- The kinds of nodes that a walk can be restricted to. -/
inductive NodeKind
  | empty
  | value
  | char
  | string
  | identifier
  | type
  | vartype
  | variable
  | function
  | prefixed
  | postfixed
  | binary
  | ternary
  | pair
  | subscript
  | call
  | launch
  | sizeof
  | new
  | delete
  | throw
  | cast (kind : CastKind)
  | parens
  | tuple
  deriving DecidableEq, Repr

/-- The kind of a leaf. -/
def Atom.kind : Atom → NodeKind
  | .value _ => .value
  | .char _ => .char
  | .string _ => .string
  | .identifier _ => .identifier
  | .type _ => .type
  | .vartype _ => .vartype
  | .variable _ => .variable
  | .function _ => .function

namespace Expr

/-- Where the node stands. -/
def location : Expr → Location
  | empty l => l
  | atom _ l => l
  | prefixed _ _ l => l
  | postfixed _ _ l => l
  | binary _ _ _ l => l
  | ternary _ _ _ l => l
  | pair _ _ l => l
  | subscript _ _ l => l
  | call _ _ l => l
  | launch _ _ _ l => l
  | sizeof _ l => l
  | new _ _ _ l => l
  | delete _ _ l => l
  | throw _ l => l
  | cast _ _ _ l => l
  | parens _ l => l
  | tuple _ l => l

/-- The kind of the node. -/
def kind : Expr → NodeKind
  | empty _ => .empty
  | atom a _ => a.kind
  | prefixed .. => .prefixed
  | postfixed .. => .postfixed
  | binary .. => .binary
  | ternary .. => .ternary
  | pair .. => .pair
  | subscript .. => .subscript
  | call .. => .call
  | launch .. => .launch
  | sizeof .. => .sizeof
  | new .. => .new
  | delete .. => .delete
  | throw .. => .throw
  | cast k .. => .cast k
  | parens .. => .parens
  | tuple .. => .tuple

/-- Whether there is nothing in the place of the expression. -/
def isEmpty : Expr → Bool
  | empty _ => true
  | _ => false

/-- The type that a leaf names, if the node is one that does. -/
def vartype? : Expr → Option Vartype
  | atom a _ => a.vartype?
  | _ => none

/-! ### Nodes placed at their first child -/

/-- `value op`, placed at the operand. -/
def mkPostfixed (op : Operator) (value : Expr) : Expr := postfixed op value value.location

/-- `op value`, placed at the operand. -/
def mkPrefixed (op : Operator) (value : Expr) : Expr := prefixed op value value.location

/-- `left op right`, placed at the left operand. -/
def mkBinary (op : BinaryOp) (left right : Expr) : Expr :=
  binary (.binary op) left right left.location

/-- `(value)`, placed at the value. -/
def mkParens (value : Expr) : Expr := parens value value.location

/-- A use of a variable. -/
def ofVar (id : VarId) (location : Location) : Expr := atom (.variable id) location

/-- A constant. -/
def ofValue (v : Value) (location : Location) : Expr := atom (.value v) location

/-! ### Children -/

/-- The subtrees of a node, left to right. -/
def children : Expr → List Expr
  | empty _ => []
  | atom _ _ => []
  | prefixed _ v _ => [v]
  | postfixed _ v _ => [v]
  | binary _ a b _ => [a, b]
  | ternary a b c _ => [a, b, c]
  | pair _ v _ => [v]
  | subscript a b _ => [a, b]
  | call f args _ => f :: args
  | launch a b c _ => [a, b, c]
  | sizeof v _ => [v]
  | new _ a b _ => [a, b]
  | delete v _ _ => [v]
  | throw v _ => [v]
  | cast _ _ v _ => [v]
  | parens v _ => [v]
  | tuple args _ => args

/-- The node with other subtrees; as many are taken as the node has. -/
def withChildren : Expr → List Expr → Expr
  | prefixed op _ l, [v] => prefixed op v l
  | postfixed op _ l, [v] => postfixed op v l
  | binary op _ _ l, [a, b] => binary op a b l
  | ternary _ _ _ l, [a, b, c] => ternary a b c l
  | pair op _ l, [v] => pair op v l
  | subscript _ _ l, [a, b] => subscript a b l
  | call _ _ l, f :: args => call f args l
  | launch _ _ _ l, [a, b, c] => launch a b c l
  | sizeof _ l, [v] => sizeof v l
  | new t _ _ l, [a, b] => new t a b l
  | delete _ isArray l, [v] => delete v isArray l
  | throw _ l, [v] => throw v l
  | cast k t _ l, [v] => cast k t v l
  | parens _ l, [v] => parens v l
  | tuple _ l, args => tuple args l
  | e, _ => e

@[simp] theorem withChildren_children (e : Expr) : e.withChildren e.children = e := by
  cases e <;> rfl

/-- New subtrees leave the node where it is. -/
@[simp] theorem location_withChildren (e : Expr) (cs : List Expr) :
    (e.withChildren cs).location = e.location := by
  unfold withChildren
  split <;> rfl

/-- New subtrees leave the node of the kind it is. -/
@[simp] theorem kind_withChildren (e : Expr) (cs : List Expr) :
    (e.withChildren cs).kind = e.kind := by
  unfold withChildren
  split <;> rfl

theorem children_withChildren {e : Expr} {cs : List Expr}
    (h : cs.length = e.children.length) : (e.withChildren cs).children = cs := by
  cases e
  case tuple => rfl
  all_goals
    rcases cs with _ | ⟨a, _ | ⟨b, _ | ⟨c, _ | ⟨d, cs⟩⟩⟩⟩ <;> simp_all [children, withChildren]

theorem sizeOf_lt_of_mem_children {c e : Expr} (h : c ∈ e.children) : sizeOf c < sizeOf e := by
  cases e
  case call f args l =>
    rcases List.mem_cons.1 h with rfl | h
    · simp
      omega
    · have := List.sizeOf_lt_of_mem h
      simp
      omega
  case tuple args l =>
    have := List.sizeOf_lt_of_mem (show c ∈ args from h)
    simp
    omega
  all_goals
    simp only [children, List.mem_cons, List.not_mem_nil, or_false] at h <;>
      rcases h with rfl | rfl | rfl <;> simp <;> omega

/-- A property that passes from the children of a node to the node holds of every tree. -/
theorem inductionOn {P : Expr → Prop} (e : Expr)
    (step : ∀ e : Expr, (∀ c ∈ e.children, P c) → P e) : P e :=
  step e fun c h =>
    have := sizeOf_lt_of_mem_children h
    inductionOn c step
termination_by sizeOf e

/-! ### Walks -/

/-- All nodes with their depths, each before its children. -/
def outline (depth : Nat) (e : Expr) : List (Nat × Expr) :=
  (depth, e) :: e.children.attach.flatMap fun ⟨c, h⟩ =>
    have := sizeOf_lt_of_mem_children h
    c.outline (depth + 1)
termination_by sizeOf e

/-- All nodes, each before its children. -/
def nodes (e : Expr) : List Expr := (e.outline 0).map Prod.snd

theorem map_snd_outline (depth : Nat) (e : Expr) :
    (e.outline depth).map Prod.snd = e :: e.children.flatMap nodes := by
  induction e using inductionOn generalizing depth with
  | step e ih =>
    have hchild : ∀ c ∈ e.children, (c.outline (depth + 1)).map Prod.snd = c.nodes := by
      intro c hc
      rw [nodes, ih c hc, ih c hc]
    rw [outline, List.map_cons, List.map_flatMap]
    congr 1
    rw [List.flatMap_def, List.flatMap_def, ← List.attach_map_val (f := nodes)]
    congr 1
    exact List.map_congr_left fun c _ => hchild c.1 c.2

/-- A node comes first, then all that is under its children. -/
theorem nodes_eq (e : Expr) : e.nodes = e :: e.children.flatMap nodes := map_snd_outline 0 e

/-- The leaf of a node that is one. -/
def atom? : Expr → Option Atom
  | atom a _ => some a
  | _ => none

/-- All leaves, left to right. -/
def atoms (e : Expr) : List Atom := e.nodes.filterMap atom?

/-- The tree with every leaf passed through `f`. -/
def mapAtoms (f : Atom → Atom) (e : Expr) : Expr :=
  match e with
  | atom a l => atom (f a) l
  | e => e.withChildren (e.children.attach.map fun ⟨c, h⟩ =>
      have := sizeOf_lt_of_mem_children h
      c.mapAtoms f)
termination_by sizeOf e

/-- The first node of the text of an expression. -/
def first : Expr → Expr
  | postfixed _ v _ => v.first
  | subscript v _ _ => v.first
  | call f _ _ => f.first
  | launch k _ _ _ => k.first
  | binary _ a _ _ => a.first
  | ternary c _ _ _ => c.first
  | e => e

/-- The last node of the text of an expression. -/
def last : Expr → Expr
  | prefixed _ v _ => v.last
  | throw v _ => v.last
  | cast .paren _ v _ => v.last
  | binary _ _ b _ => b.last
  | ternary _ _ c _ => c.last
  | e => e

/-- An operand that keeps together: nodes that bring no delimiters of their own get brackets. -/
def wrapped (e : Expr) : Expr :=
  match e with
  | prefixed .. => e.mkParens
  | postfixed .. => e.mkParens
  | binary .. => e.mkParens
  | ternary .. => e.mkParens
  | new .. => e.mkParens
  | delete .. => e.mkParens
  | throw .. => e.mkParens
  | cast .. => e.mkParens
  | e => e

/-! ### Lists of arguments -/

/-- The operands of the comma chain that leans to the left, the rest of the arguments given. -/
def argsBefore : Expr → List Expr → List Expr
  | binary (.binary .comma) a b _, rest => a.argsBefore (b :: rest)
  | empty l, rest => if rest = [] then [] else empty l :: rest
  | e, rest => e :: rest

/-- The arguments that a comma chain lists, left to right; an empty expression lists none. -/
def args (e : Expr) : List Expr := e.argsBefore []

/-- The comma chain of a list of arguments, and an empty expression for none. -/
def commaChain (args : List Expr) (location : Location) : Expr :=
  match args with
  | [] => empty location
  | e :: rest => rest.foldl (mkBinary .comma) e

/-! ### Equality -/

/-- Whether two nodes agree apart from their children. Constants are compared as numbers, so that
not-a-number differs from itself. -/
def agrees : Expr → Expr → Bool
  | empty l, empty l' => l = l'
  | atom a l, atom a' l' => a == a' && l = l'
  | prefixed o _ l, prefixed o' _ l' => o = o' && l = l'
  | postfixed o _ l, postfixed o' _ l' => o = o' && l = l'
  | binary o _ _ l, binary o' _ _ l' => o = o' && l = l'
  | ternary _ _ _ l, ternary _ _ _ l' => l = l'
  | pair o _ l, pair o' _ l' => o = o' && l = l'
  | subscript _ _ l, subscript _ _ l' => l = l'
  | call _ _ l, call _ _ l' => l = l'
  | launch _ _ _ l, launch _ _ _ l' => l = l'
  | sizeof _ l, sizeof _ l' => l = l'
  | new t _ _ l, new t' _ _ l' => t = t' && l = l'
  | delete _ isArray l, delete _ isArray' l' => isArray = isArray' && l = l'
  | throw _ l, throw _ l' => l = l'
  | cast k t _ l, cast k' t' _ l' => k = k' && t = t' && l = l'
  | parens _ l, parens _ l' => l = l'
  | tuple _ l, tuple _ l' => l = l'
  | _, _ => false

/-- Whether two trees agree in all their nodes. -/
def same (a b : Expr) : Bool :=
  a.agrees b && a.children.length = b.children.length &&
    (a.children.attach.zip b.children).all fun (⟨c, h⟩, d) =>
      have := sizeOf_lt_of_mem_children h
      c.same d
termination_by sizeOf a

instance : BEq Expr := ⟨same⟩

end Expr

end KernelTree
