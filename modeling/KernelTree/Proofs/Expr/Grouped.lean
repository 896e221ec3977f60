import KernelTree.Proofs.Expr.NormalForm

/-!
# Trees that are read as they are printed

`Expr.printed` are the tokens of the text of a tree. The text brackets the operand of `sizeof`
whether the tree does or not, so what it should be read as is `Expr.bracketSizeof`. `Expr.Grouped`
are the trees whose printed tokens say how they are put together: at every operator, what stands at
its sides neither takes its place nor is taken apart by it.

A tree shows two precedences to what stands around it. To what stands before it, only a tree that
goes on behind its first operand shows the operator in its root (`Expr.leftEdge`). To what stands
behind it, it shows all the operators that wait for its last operand (`Expr.rightEdge`). So the
operand of a prefix operator is as large as it can be, as in `a + throw b`.
-/

namespace KernelTree

namespace Expr

/-! ### Printed tokens -/

mutual

/-- The tokens of the text of a tree, with the readings of symbols left open. Nodes that are never
built have none. -/
def printed : Expr → List Lexeme
  | atom a _ => [.atom a]
  | prefixed op v _ => .op op.generic :: printed v
  | postfixed op v _ => printed v ++ [.op op.generic]
  | binary op a b _ => printed a ++ .op op.generic :: printed b
  | ternary c a b _ =>
    printed c ++ .op (.pre .question) :: (printed a ++ .op (.pre .colon) :: printed b)
  | subscript v i _ =>
    printed v ++ .op (.opening .square) :: (printed i ++ [.op (.closing .square)])
  | call f args _ =>
    printed f ++ .op (.opening .round) :: (printedArgs args ++ [.op (.closing .round)])
  | launch k b t _ =>
    printed k ++ .op (.opening .launch) ::
      (printed b ++ .op (.binary .comma) :: (printed t ++ [.op (.closing .launch)]))
  | sizeof (parens v _) _ =>
    .op (.pre .sizeof) :: .op (.opening .round) :: (printed v ++ [.op (.closing .round)])
  | sizeof v _ =>
    .op (.pre .sizeof) :: .op (.opening .round) :: (printed v ++ [.op (.closing .round)])
  | throw v _ => .op (.pre .throw) :: printed v
  | cast .paren t v _ =>
    .op (.opening .round) :: .atom t.atom :: .op (.closing .round) :: printed v
  | cast .function t v _ =>
    .atom t.atom :: .op (.opening .round) :: (printed v ++ [.op (.closing .round)])
  | parens v _ => .op (.opening .round) :: (printed v ++ [.op (.closing .round)])
  | tuple args _ => .op (.opening .curly) :: (printedArgs args ++ [.op (.closing .curly)])
  | _ => []

/-- The tokens of arguments with commas between them. -/
def printedArgs : List Expr → List Lexeme
  | [] => []
  | a :: rest => printed a ++ printedMore rest

/-- The tokens of further arguments, each behind a comma. -/
def printedMore : List Expr → List Lexeme
  | [] => []
  | a :: rest => .op (.binary .comma) :: (printed a ++ printedMore rest)

end

/-- What stands in the brackets behind a printed `sizeof`. -/
def unbracketed : Expr → Expr
  | parens v _ => v
  | v => v

/-- What is measured is printed in one pair of brackets, its own or those of `sizeof`. -/
theorem printed_sizeof (v : Expr) (l : Location) :
    (sizeof v l).printed
      = .op (.pre .sizeof) :: .op (.opening .round) ::
          (v.unbracketed.printed ++ [.op (.closing .round)]) := by
  cases v <;> rfl

mutual

/-- The tree with brackets around every operand of `sizeof`. -/
def bracketSizeof : Expr → Expr
  | sizeof (parens v l') l => sizeof (parens (bracketSizeof v) l') l
  | sizeof v l => sizeof (parens (bracketSizeof v) .none) l
  | prefixed op v l => prefixed op (bracketSizeof v) l
  | postfixed op v l => postfixed op (bracketSizeof v) l
  | binary op a b l => binary op (bracketSizeof a) (bracketSizeof b) l
  | ternary c a b l => ternary (bracketSizeof c) (bracketSizeof a) (bracketSizeof b) l
  | pair op v l => pair op (bracketSizeof v) l
  | subscript v i l => subscript (bracketSizeof v) (bracketSizeof i) l
  | call f args l => call (bracketSizeof f) (bracketSizeofs args) l
  | launch k b t l => launch (bracketSizeof k) (bracketSizeof b) (bracketSizeof t) l
  | new t v n l => new t (bracketSizeof v) (bracketSizeof n) l
  | delete v isArray l => delete (bracketSizeof v) isArray l
  | throw v l => throw (bracketSizeof v) l
  | cast k t v l => cast k t (bracketSizeof v) l
  | parens v l => parens (bracketSizeof v) l
  | tuple args l => tuple (bracketSizeofs args) l
  | e => e

/-- Each tree with brackets around every operand of `sizeof`. -/
def bracketSizeofs : List Expr → List Expr
  | [] => []
  | a :: rest => bracketSizeof a :: bracketSizeofs rest

end

/-- The tree that the text of a tree should be read as, without places. -/
def reprint (e : Expr) : Expr := e.bracketSizeof.unplaced

/-- What is measured comes back in brackets. -/
@[simp] theorem reprint_sizeof (v : Expr) (l : Location) :
    (sizeof v l).reprint = sizeof (parens v.unbracketed.reprint .none) .none := by
  cases v <;> simp [reprint, bracketSizeof, unplaced, unbracketed]

/-! ### Edges -/

/-- The precedence of the operator in the root, if it stands behind its first operand. -/
def leftEdge : Expr → Int
  | postfixed .. => 1
  | binary op .. => op.precedence
  | ternary .. => 14
  | _ => -1

/-- The loosest of the operators that wait for the last operand. -/
def rightEdge : Expr → Int
  | prefixed op v _ => max op.precedence (rightEdge v)
  | postfixed .. => 1
  | binary op _ b _ => max op.precedence (rightEdge b)
  | ternary _ _ b _ => max 14 (rightEdge b)
  | sizeof .. => 2
  | throw v _ => max 15 (rightEdge v)
  | cast .paren _ v _ => max 2 (rightEdge v)
  | _ => -1

/-- Before an operator of this precedence the tree is put together. -/
def GivesWay (e : Expr) (precedence : Nat) : Prop :=
  e.rightEdge < precedence ∨ (e.rightEdge = precedence ∧ associativity precedence = .left)

/-- Behind an operator of this precedence the tree leaves the operator alone. -/
def StaysBehind (e : Expr) (precedence : Nat) : Prop :=
  e.leftEdge < precedence ∨ (e.leftEdge = precedence ∧ associativity precedence = .right)

/-- Whether the last token counts up or down. -/
def endsInStep (e : Expr) : Bool :=
  match e.last with
  | postfixed .. => true
  | _ => false

/-! ### Casts and the brackets behind them -/

/-- Whether the node is a conversion with its type in brackets. -/
def isParenCast : Expr → Bool
  | cast .paren .. => true
  | _ => false

/-- Whether there is such a conversion in the tree. -/
def hasParenCast (e : Expr) : Bool := e.nodes.any isParenCast

/-- A conversion in front of its operand is found at the root or in a tree inside. -/
theorem hasParenCast_eq (e : Expr) :
    e.hasParenCast = (e.isParenCast || e.children.any hasParenCast) := by
  rw [hasParenCast, nodes_eq, List.any_cons, List.any_flatMap]
  rfl

section HasParenCast

attribute [local simp] isParenCast children

/-- In nothing there is none. -/
@[simp] theorem hasParenCast_empty (l : Location) : (empty l).hasParenCast = false := by
  simp [hasParenCast_eq]

@[simp] theorem hasParenCast_atom (a : Atom) (l : Location) : (atom a l).hasParenCast = false := by
  simp [hasParenCast_eq]

/-- Other nodes hand the question on to what is inside. -/
@[simp] theorem hasParenCast_prefixed (op : Operator) (v : Expr) (l : Location) :
    (prefixed op v l).hasParenCast = v.hasParenCast := by
  simp [hasParenCast_eq (prefixed ..)]

@[simp] theorem hasParenCast_postfixed (op : Operator) (v : Expr) (l : Location) :
    (postfixed op v l).hasParenCast = v.hasParenCast := by
  simp [hasParenCast_eq (postfixed ..)]

@[simp] theorem hasParenCast_binary (op : Operator) (a b : Expr) (l : Location) :
    (binary op a b l).hasParenCast = (a.hasParenCast || b.hasParenCast) := by
  simp [hasParenCast_eq (binary ..)]

/-- A conditional is asked in all three parts. -/
@[simp] theorem hasParenCast_ternary (c a b : Expr) (l : Location) :
    (ternary c a b l).hasParenCast = (c.hasParenCast || a.hasParenCast || b.hasParenCast) := by
  simp [hasParenCast_eq (ternary ..), Bool.or_assoc]

@[simp] theorem hasParenCast_subscript (v i : Expr) (l : Location) :
    (subscript v i l).hasParenCast = (v.hasParenCast || i.hasParenCast) := by
  simp [hasParenCast_eq (subscript ..)]

/-- A call is asked in its callee and its arguments. -/
@[simp] theorem hasParenCast_call (f : Expr) (args : List Expr) (l : Location) :
    (call f args l).hasParenCast = (f.hasParenCast || args.any hasParenCast) := by
  simp [hasParenCast_eq (call ..)]

@[simp] theorem hasParenCast_launch (k b t : Expr) (l : Location) :
    (launch k b t l).hasParenCast = (k.hasParenCast || b.hasParenCast || t.hasParenCast) := by
  simp [hasParenCast_eq (launch ..), Bool.or_assoc]

@[simp] theorem hasParenCast_sizeof (v : Expr) (l : Location) :
    (sizeof v l).hasParenCast = v.hasParenCast := by
  simp [hasParenCast_eq (sizeof ..)]

@[simp] theorem hasParenCast_throw (v : Expr) (l : Location) :
    (throw v l).hasParenCast = v.hasParenCast := by
  simp [hasParenCast_eq (throw ..)]

/-- A conversion in front of its operand is one. -/
@[simp] theorem hasParenCast_parenCast (t : Vartype) (v : Expr) (l : Location) :
    (cast .paren t v l).hasParenCast = true := by
  simp [hasParenCast_eq (cast ..)]

/-- A conversion that looks like a call is none. -/
@[simp] theorem hasParenCast_functionCast (t : Vartype) (v : Expr) (l : Location) :
    (cast .function t v l).hasParenCast = v.hasParenCast := by
  simp [hasParenCast_eq (cast ..)]

@[simp] theorem hasParenCast_parens (v : Expr) (l : Location) :
    (parens v l).hasParenCast = v.hasParenCast := by
  simp [hasParenCast_eq (parens ..)]

/-- A tuple is asked in its entries. -/
@[simp] theorem hasParenCast_tuple (args : List Expr) (l : Location) :
    (tuple args l).hasParenCast = args.any hasParenCast := by
  simp [hasParenCast_eq (tuple ..)]

end HasParenCast

/-- Whether some bracket of the tree takes a value that stands before the tree, if there is one. A
bracket behind a cast does so if another cast is closed inside it, since only the latest cast is
kept in mind. `behindCast` says whether the tree itself stands behind a cast. -/
def grabs : Expr → Bool → Bool
  | prefixed _ v _, _ => v.grabs false
  | postfixed _ v _, behindCast => v.grabs behindCast
  | binary _ a _ _, behindCast => a.grabs behindCast
  | ternary c _ _ _, behindCast => c.grabs behindCast
  | subscript v _ _, behindCast => v.grabs behindCast
  | call f _ _, behindCast => f.grabs behindCast
  | launch k _ _ _, behindCast => k.grabs behindCast
  | sizeof v _, _ => v.grabs false
  | throw v _, _ => v.grabs false
  | cast .paren _ v _, _ => v.grabs true
  | parens v _, behindCast => (behindCast && v.hasParenCast) || v.grabs false
  | tuple [] _, _ => false
  | tuple (a :: rest) _, behindCast =>
    (behindCast && (a :: rest).any hasParenCast) || a.grabs false
  | _, _ => false

/-- Brackets do not change whether what is measured takes more along. -/
theorem grabs_unbracketed (v : Expr) : v.unbracketed.grabs false = v.grabs false := by
  cases v <;> simp [unbracketed, grabs]

/-- A tree that can be one of several in a row: tighter than a comma, and no bracket in it takes the
one before. -/
structure Argument (e : Expr) : Prop where
  edge : e.leftEdge < 16
  grabs : e.grabs false = false

/-- The trees whose printed tokens tell their shape. -/
inductive Grouped : Expr → Prop
  | atom (a : Atom) (l : Location) : Grouped (atom a l)
  | prefixed {op : PrefixOp} {v : Expr} {l : Location}
      (hop : op.isPlain = true ∨ op = .globalScope) (hv : Grouped v)
      (hleft : v.StaysBehind op.precedence) : Grouped (prefixed (.pre op) v l)
  | postfixed {op : PostfixOp} {v : Expr} {l : Location} (hv : Grouped v)
      (hright : v.GivesWay 1) (hstep : v.endsInStep = false) : Grouped (postfixed (.post op) v l)
  | binary {op : BinaryOp} {a b : Expr} {l : Location} (ha : Grouped a)
      (hright : a.GivesWay op.precedence) (hb : Grouped b) (hleft : b.StaysBehind op.precedence)
      (hgrabs : b.grabs false = false) : Grouped (binary (.binary op) a b l)
  | ternary {c a b : Expr} {l : Location} (hc : Grouped c) (hcheck : c.rightEdge ≤ 13)
      (ha : Grouped a) (hleft : a.leftEdge ≤ 14) (hright : a.rightEdge ≤ 14)
      (hgrabs : a.grabs false = false) (hb : Grouped b) (hleft' : b.leftEdge ≤ 14)
      (hgrabs' : b.grabs false = false) : Grouped (ternary c a b l)
  | sizeof {v : Expr} {l : Location} (hv : Grouped v.unbracketed)
      (hstep : v.unbracketed.endsInStep = false) : Grouped (sizeof v l)
  | throw {v : Expr} {l : Location} (hv : Grouped v) (hleft : v.StaysBehind 15) :
      Grouped (throw v l)
  | parenCast {t : Vartype} {v : Expr} {l : Location} (hv : Grouped v) (hleft : v.StaysBehind 2) :
      Grouped (cast .paren t v l)
  | functionCast {t : Vartype} {v : Expr} {l : Location} (hv : Grouped v) (harg : v.Argument)
      (hstep : v.endsInStep = false) : Grouped (cast .function t v l)
  | parens {v : Expr} {l : Location} (hv : Grouped v) (htype : v.vartype? = none)
      (hstep : v.endsInStep = false) : Grouped (parens v l)
  | tuple {args : List Expr} {l : Location} (hargs : ∀ a ∈ args, Grouped a)
      (hedges : ∀ a ∈ args, a.leftEdge < 16) (hgrabs : ∀ a ∈ args.tail, a.grabs false = false)
      (hstep : ∀ a ∈ args.getLast?, a.endsInStep = false) : Grouped (tuple args l)
  | call {f : Expr} {args : List Expr} {l : Location} (hf : Grouped f) (hcallee : f.rightEdge < 0)
      (htype : f.vartype? = none ∨ args.length ≠ 1) (hargs : ∀ a ∈ args, Grouped a)
      (hargs' : ∀ a ∈ args, a.Argument) (hstep : ∀ a ∈ args.getLast?, a.endsInStep = false) :
      Grouped (call f args l)
  | subscript {v i : Expr} {l : Location} (hv : Grouped v) (hcallee : v.rightEdge < 0)
      (hi : Grouped i) (hgrabs : i.grabs false = false) (hstep : i.endsInStep = false) :
      Grouped (subscript v i l)
  | element {v : Expr} {l l' : Location} (hv : Grouped v) (hcallee : v.rightEdge < 0) :
      Grouped (subscript v (empty l') l)
  | launch {k b t : Expr} {l : Location} (hk : Grouped k) (hcallee : k.rightEdge < 0)
      (hb : Grouped b) (hblocks : b.Argument) (ht : Grouped t) (hthreads : t.Argument)
      (hstep : t.endsInStep = false) : Grouped (launch k b t l)

end Expr

end KernelTree
