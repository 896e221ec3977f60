import KernelTree.Proofs.Expr.Steps

/-!
# Trees that are written without further brackets

`Expr.NormalForm` are the trees whose shape can be read off their tokens: every operand binds
tightly enough for the place in which it stands. `Expr.lexemes` are the tokens of such a tree, left
to right, and `Expr.placed` puts the tree where given tokens stand, so that tree and tokens together
say everything about a reading.
-/

namespace KernelTree

/-- Prefix operators that become plain unary nodes, but for the double colon. -/
def PrefixOp.isPlain : PrefixOp → Bool
  | not => true
  | positive => true
  | negative => true
  | complement => true
  | increment => true
  | decrement => true
  | dereference => true
  | addressOf => true
  | _ => false

namespace Expr

/-- How loosely a node holds its parts together: delimited nodes and leaves come first, then the
operators by precedence. -/
def level : Expr → Int
  | prefixed .. => 2
  | sizeof .. => 2
  | binary op .. => op.precedence
  | ternary .. => 14
  | throw .. => 15
  | _ => -1

/-- The trees in which no operand is looser than its place allows. -/
inductive NormalForm : Expr → Prop
  | atom {a : Atom} {l : Location} (ha : a.vartype? = none) : NormalForm (atom a l)
  | prefixed {op : PrefixOp} {v : Expr} {l : Location} (hop : op.isPlain) (hv : NormalForm v)
      (hlevel : v.level ≤ 2) : NormalForm (prefixed (.pre op) v l)
  | sizeof {v : Expr} {l : Location} (hv : NormalForm v) (hlevel : v.level ≤ 2) :
      NormalForm (sizeof v l)
  | throw {v : Expr} {l : Location} (hv : NormalForm v) (hlevel : v.level ≤ 15) :
      NormalForm (throw v l)
  | leftBinary {op : BinaryOp} {a b : Expr} {l : Location}
      (hop : associativity op.precedence = .left) (ha : NormalForm a)
      (hleft : a.level ≤ op.precedence) (hb : NormalForm b) (hright : b.level < op.precedence) :
      NormalForm (binary (.binary op) a b l)
  | rightBinary {op : BinaryOp} {a b : Expr} {l : Location}
      (hop : associativity op.precedence = .right) (ha : NormalForm a)
      (hleft : a.level < op.precedence) (hb : NormalForm b) (hright : b.level ≤ op.precedence) :
      NormalForm (binary (.binary op) a b l)
  | ternary {c a b : Expr} {l : Location} (hc : NormalForm c) (hcheck : c.level ≤ 13)
      (ha : NormalForm a) (htrue : a.level ≤ 14) (hb : NormalForm b) (hfalse : b.level ≤ 14) :
      NormalForm (ternary c a b l)
  | parens {v : Expr} {l : Location} (hv : NormalForm v) : NormalForm (parens v l)
  | tuple {args : List Expr} {l : Location} (hargs : ∀ a ∈ args, NormalForm a)
      (hlevel : ∀ a ∈ args, a.level < 16) : NormalForm (tuple args l)
  | call {f : Expr} {args : List Expr} {l : Location} (hf : NormalForm f) (hcallee : f.level = -1)
      (hargs : ∀ a ∈ args, NormalForm a) (hlevel : ∀ a ∈ args, a.level < 16) :
      NormalForm (call f args l)
  | subscript {v i : Expr} {l : Location} (hv : NormalForm v) (hcallee : v.level = -1)
      (hi : NormalForm i) : NormalForm (subscript v i l)
  | launch {k b t : Expr} {l : Location} (hk : NormalForm k) (hcallee : k.level = -1)
      (hb : NormalForm b) (hblocks : b.level < 16) (ht : NormalForm t) (hthreads : t.level < 16) :
      NormalForm (launch k b t l)

/-! ### Tokens -/

mutual

/-- The tokens of a tree, left to right, with the readings of symbols left open. Nodes that have no
place in a normal form have none. -/
def lexemes : Expr → List Lexeme
  | atom a _ => [.atom a]
  | prefixed op v _ => .op op.generic :: lexemes v
  | sizeof v _ => .op (.pre .sizeof) :: lexemes v
  | throw v _ => .op (.pre .throw) :: lexemes v
  | binary op a b _ => lexemes a ++ .op op.generic :: lexemes b
  | ternary c a b _ =>
    lexemes c ++ .op (.pre .question) :: (lexemes a ++ .op (.pre .colon) :: lexemes b)
  | parens v _ => .op (.opening .round) :: (lexemes v ++ [.op (.closing .round)])
  | tuple args _ => .op (.opening .curly) :: (argLexemes args ++ [.op (.closing .curly)])
  | call f args _ =>
    lexemes f ++ .op (.opening .round) :: (argLexemes args ++ [.op (.closing .round)])
  | subscript v i _ =>
    lexemes v ++ .op (.opening .square) :: (lexemes i ++ [.op (.closing .square)])
  | launch k b t _ =>
    lexemes k ++ .op (.opening .launch) ::
      (lexemes b ++ .op (.binary .comma) :: (lexemes t ++ [.op (.closing .launch)]))
  | _ => []

/-- The tokens of arguments with commas between them. -/
def argLexemes : List Expr → List Lexeme
  | [] => []
  | a :: rest => lexemes a ++ moreLexemes rest

/-- The tokens of further arguments, each behind a comma. -/
def moreLexemes : List Expr → List Lexeme
  | [] => []
  | a :: rest => .op (.binary .comma) :: (lexemes a ++ moreLexemes rest)

end

/-! ### Places -/

/-- Where a row of tokens begins. -/
def start (ts : List Token) : Location := (ts.head?.map Token.location).getD .none

mutual

/-- The tree with every node where its token stands, or where its first child stands; `ts` are its
tokens. -/
def placed : Expr → List Token → Expr
  | atom a _, ts => atom a (start ts)
  | prefixed op v _, ts => prefixed op (placed v ts.tail) (start ts)
  | sizeof v _, ts => sizeof (placed v ts.tail) (start ts)
  | throw v _, ts => throw (placed v ts.tail) (start ts)
  | binary op a b _, ts =>
    let a' := placed a (ts.take (lexemes a).length)
    binary op a' (placed b (ts.drop ((lexemes a).length + 1))) a'.location
  | ternary c a b _, ts =>
    let c' := placed c (ts.take (lexemes c).length)
    let rest := ts.drop ((lexemes c).length + 1)
    ternary c' (placed a (rest.take (lexemes a).length))
      (placed b (rest.drop ((lexemes a).length + 1))) c'.location
  | parens v _, ts => parens (placed v (ts.tail.take (lexemes v).length)) (start ts)
  | tuple args _, ts => tuple (placedArgs args (ts.tail.take (argLexemes args).length)) (start ts)
  | call f args _, ts =>
    let f' := placed f (ts.take (lexemes f).length)
    let rest := ts.drop ((lexemes f).length + 1)
    call f' (placedArgs args (rest.take (argLexemes args).length)) f'.location
  | subscript v i _, ts =>
    let v' := placed v (ts.take (lexemes v).length)
    let rest := ts.drop ((lexemes v).length + 1)
    subscript v' (placed i (rest.take (lexemes i).length)) v'.location
  | launch k b t _, ts =>
    let k' := placed k (ts.take (lexemes k).length)
    let rest := ts.drop ((lexemes k).length + 1)
    launch k' (placed b (rest.take (lexemes b).length))
      (placed t ((rest.drop ((lexemes b).length + 1)).take (lexemes t).length)) k'.location
  | e, _ => e

/-- Arguments where their tokens stand, with one token between any two. -/
def placedArgs : List Expr → List Token → List Expr
  | [], _ => []
  | a :: rest, ts =>
    placed a (ts.take (lexemes a).length) ::
      placedArgs rest (ts.drop ((lexemes a).length + 1))

end

mutual

/-- The tree without places. -/
def unplaced : Expr → Expr
  | empty _ => empty .none
  | atom a _ => atom a .none
  | prefixed op v _ => prefixed op (unplaced v) .none
  | postfixed op v _ => postfixed op (unplaced v) .none
  | binary op a b _ => binary op (unplaced a) (unplaced b) .none
  | ternary c a b _ => ternary (unplaced c) (unplaced a) (unplaced b) .none
  | pair op v _ => pair op (unplaced v) .none
  | subscript v i _ => subscript (unplaced v) (unplaced i) .none
  | call f args _ => call (unplaced f) (unplacedArgs args) .none
  | launch k b t _ => launch (unplaced k) (unplaced b) (unplaced t) .none
  | sizeof v _ => sizeof (unplaced v) .none
  | new t v n _ => new t (unplaced v) (unplaced n) .none
  | delete v isArray _ => delete (unplaced v) isArray .none
  | throw v _ => throw (unplaced v) .none
  | cast k t v _ => cast k t (unplaced v) .none
  | parens v _ => parens (unplaced v) .none
  | tuple args _ => tuple (unplacedArgs args) .none

/-- Trees without places. -/
def unplacedArgs : List Expr → List Expr
  | [] => []
  | a :: rest => unplaced a :: unplacedArgs rest

end

/-! ### What placing keeps -/

mutual

/-- Placing a tree changes nothing but places. -/
theorem unplaced_placed (t : Expr) (ts : List Token) : (t.placed ts).unplaced = t.unplaced := by
  cases t with
  | prefixed _ v | sizeof v | throw v | parens v => simp [placed, unplaced, unplaced_placed v]
  | binary _ a b | subscript a b => simp [placed, unplaced, unplaced_placed a, unplaced_placed b]
  | ternary a b c | launch a b c =>
    simp [placed, unplaced, unplaced_placed a, unplaced_placed b, unplaced_placed c]
  | tuple args => simp [placed, unplaced, unplacedArgs_placedArgs args]
  | call f args => simp [placed, unplaced, unplaced_placed f, unplacedArgs_placedArgs args]
  | _ => simp [placed, unplaced]

theorem unplacedArgs_placedArgs (args : List Expr) (ts : List Token) :
    unplacedArgs (placedArgs args ts) = unplacedArgs args := by
  cases args with
  | nil => rfl
  | cons a rest =>
    simp [placedArgs, unplacedArgs, unplaced_placed a, unplacedArgs_placedArgs rest]

end

theorem vartype?_placed (t : Expr) (ts : List Token) : (t.placed ts).vartype? = t.vartype? := by
  cases t <;> simp [placed, vartype?]

/-! ### Lists of arguments -/

/-- A comma chain lists its arguments from left to right. -/
theorem argsBefore_foldl (e : Expr) (args rest : List Expr) :
    (args.foldl (mkBinary .comma) e).argsBefore rest = e.argsBefore (args ++ rest) := by
  induction args generalizing e with
  | nil => rfl
  | cons a args ih =>
    rw [List.foldl_cons, ih]
    rfl

/-! ### Splitting rows of tokens -/

section

variable {ts ta tb : List Token} {xs zs : List Lexeme} {y : Lexeme}

theorem exists_split (h : ts.map Token.lexeme = xs ++ y :: zs) :
    ∃ ta l tb, ts = ta ++ ⟨y, l⟩ :: tb ∧ ta.map Token.lexeme = xs ∧
      tb.map Token.lexeme = zs := by
  obtain ⟨ta, rest, rfl, ha, hrest⟩ := List.map_eq_append_iff.mp h
  obtain ⟨⟨y, l⟩, tb, rfl, rfl, hb⟩ := List.map_eq_cons_iff.mp hrest
  exact ⟨ta, l, tb, rfl, ha, hb⟩

theorem take_append_of_lexemes (h : ta.map Token.lexeme = xs) :
    (ta ++ tb).take xs.length = ta := by
  rw [← h, List.length_map, List.take_left]

theorem drop_append_of_lexemes (h : ta.map Token.lexeme = xs) :
    (ta ++ tb).drop (xs.length + 1) = tb.tail := by
  rw [← h, List.length_map, ← List.drop_drop, List.drop_left, List.drop_one]

end

namespace NormalForm

variable {t : Expr}

theorem lexemes_ne_nil (h : t.NormalForm) : t.lexemes ≠ [] := by
  induction h with
  | _ => simp [lexemes]

theorem vartype?_eq_none (h : t.NormalForm) : t.vartype? = none := by
  cases h with
  | atom ha => exact ha
  | _ => rfl

/-- A normal form is something, wherever it is placed. -/
theorem placed_ne_empty (h : t.NormalForm) (ts : List Token) (l : Location) :
    t.placed ts ≠ .empty l := by
  cases h <;> simp [placed]

/-- A normal form is a whole, wherever it is placed, and not a branch of a conditional. -/
theorem placed_ne_marker (h : t.NormalForm) (ts : List Token) :
    Build.isMarkerNode (t.placed ts) = false := by
  cases h with
  | @prefixed op v l hop => cases op <;> simp_all [placed, Build.isMarkerNode, PrefixOp.isPlain]
  | _ => simp [placed, Build.isMarkerNode]

/-- A normal form that is tighter than a comma is one argument, wherever it is placed. -/
theorem argsBefore_placed (h : t.NormalForm) (hlevel : t.level < 16) (ts : List Token)
    (rest : List Expr) : (t.placed ts).argsBefore rest = t.placed ts :: rest := by
  cases h with
  | @leftBinary op | @rightBinary op =>
    have hop : op ≠ .comma := by
      rintro rfl
      simp [level, Operator.precedence, BinaryOp.precedence] at hlevel
    simp [placed, argsBefore, hop]
  | _ => simp [placed, argsBefore]

end NormalForm

end Expr

end KernelTree
