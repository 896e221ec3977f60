import KernelTree.Proofs.Expr.Inversion

/-!
# Operands keep their order

The builder moves subtrees around, takes comma chains apart and makes types disappear in casts, but
it treats operands as a queue: the leaves of the finished tree that are no types, read from left to
right, are the tokens of that sort in the order in which they came (`Expr.operands_ofTokens`). While
the row is read, the same holds of the output stack with its bottom first (`Build.held`).
-/

namespace KernelTree

/-- Whether a leaf stands for a value, as all do that name no type. -/
def Atom.isOperand : Atom → Bool
  | .type _ => false
  | .vartype _ => false
  | _ => true

/-- A leaf that names a type is no operand. -/
theorem Atom.isOperand_of_vartype? {a : Atom} {t : Vartype} (h : a.vartype? = some t) :
    a.isOperand = false := by
  cases a <;> simp_all [Atom.vartype?, isOperand]

/-- Whether a token becomes a leaf that stands for a value. -/
def Token.isOperand (t : Token) : Bool :=
  match t.lexeme with
  | .atom a => a.isOperand
  | .op _ => false

namespace Expr

/-! ### The operands of a tree -/

/-- The token of a node that is an operand. -/
def operand? : Expr → Option Token
  | atom a l => if a.isOperand then some ⟨.atom a, l⟩ else none
  | _ => none

/-- The tokens of all operands, in the order of the nodes. -/
def operands (e : Expr) : List Token := e.nodes.filterMap operand?

/-- A node that is no operand has those of its children. -/
theorem operands_eq {e : Expr} (h : e.operand? = none) :
    e.operands = e.children.flatMap operands := by
  rw [operands, nodes_eq, List.filterMap_cons, h, List.filterMap_flatMap]
  rfl

/-- A leaf is an operand unless it names a type. -/
@[simp] theorem operands_atom (a : Atom) (l : Location) :
    (atom a l).operands = [⟨.atom a, l⟩].filter Token.isOperand := by
  rw [operands, nodes_eq]
  cases h : a.isOperand <;> simp [children, operand?, Token.isOperand, h]

/-- Nothing has no operands. -/
@[simp] theorem operands_empty (l : Location) : (empty l).operands = [] := by
  rw [operands_eq rfl]
  rfl

/-- Operators bring no operands of their own. -/
@[simp] theorem operands_prefixed (op : Operator) (v : Expr) (l : Location) :
    (prefixed op v l).operands = v.operands := by
  rw [operands_eq rfl]
  simp [children]

@[simp] theorem operands_postfixed (op : Operator) (v : Expr) (l : Location) :
    (postfixed op v l).operands = v.operands := by
  rw [operands_eq rfl]
  simp [children]

/-- The operands of the left side come first. -/
@[simp] theorem operands_binary (op : Operator) (a b : Expr) (l : Location) :
    (binary op a b l).operands = a.operands ++ b.operands := by
  rw [operands_eq rfl]
  simp [children]

/-- A conditional has its check in front. -/
@[simp] theorem operands_ternary (a b c : Expr) (l : Location) :
    (ternary a b c l).operands = a.operands ++ b.operands ++ c.operands := by
  rw [operands_eq rfl]
  simp [children]

@[simp] theorem operands_subscript (v i : Expr) (l : Location) :
    (subscript v i l).operands = v.operands ++ i.operands := by
  rw [operands_eq rfl]
  simp [children]

/-- The callee stands in front of its arguments. -/
@[simp] theorem operands_call (f : Expr) (args : List Expr) (l : Location) :
    (call f args l).operands = f.operands ++ args.flatMap operands := by
  rw [operands_eq rfl]
  simp [children]

/-- A kernel stands in front of what it is launched with. -/
@[simp] theorem operands_launch (k b t : Expr) (l : Location) :
    (launch k b t l).operands = k.operands ++ b.operands ++ t.operands := by
  rw [operands_eq rfl]
  simp [children]

@[simp] theorem operands_sizeof (v : Expr) (l : Location) :
    (sizeof v l).operands = v.operands := by
  rw [operands_eq rfl]
  simp [children]

@[simp] theorem operands_throw (v : Expr) (l : Location) : (throw v l).operands = v.operands := by
  rw [operands_eq rfl]
  simp [children]

/-- The type of a conversion is no operand. -/
@[simp] theorem operands_cast (k : CastKind) (t : Vartype) (v : Expr) (l : Location) :
    (cast k t v l).operands = v.operands := by
  rw [operands_eq rfl]
  simp [children]

@[simp] theorem operands_parens (v : Expr) (l : Location) :
    (parens v l).operands = v.operands := by
  rw [operands_eq rfl]
  simp [children]

@[simp] theorem operands_tuple (args : List Expr) (l : Location) :
    (tuple args l).operands = args.flatMap operands := by
  rw [operands_eq rfl]
  rfl

/-- A type is no operand and has none. -/
theorem operands_of_vartype? {e : Expr} {t : Vartype} (h : e.vartype? = some t) :
    e.operands = [] := by
  cases e with
  | atom a l => simp [operands_atom, Token.isOperand, Atom.isOperand_of_vartype? h]
  | _ => cases h

/-- Taking a comma chain apart leaves its operands in order. -/
theorem operands_argsBefore (e : Expr) (rest : List Expr) :
    (e.argsBefore rest).flatMap operands = e.operands ++ rest.flatMap operands := by
  induction e, rest using argsBefore_induction with
  | comma a b l rest ih => rw [argsBefore, ih]; simp
  | nothing l => simp [argsBefore]
  | operand e rest _ hargs => rw [hargs, List.flatMap_cons]

/-- A chain of commas lists its operands in order. -/
theorem operands_args (e : Expr) : e.args.flatMap operands = e.operands := by
  rw [args, operands_argsBefore, List.flatMap_nil, List.append_nil]

end Expr

namespace Build

open KernelTree.Expr

/-! ### The operands on the output -/

/-- The operands on the output, the bottom of the stack first. -/
def held (output : List Expr) : List Token := output.reverse.flatMap operands

@[simp] theorem held_nil : held [] = [] := rfl

/-- The top of the stack came last. -/
@[simp] theorem held_cons (e : Expr) (output : List Expr) :
    held (e :: output) = held output ++ e.operands := by
  simp [held]

/-- What lies on top came later. -/
@[simp] theorem held_append (xs ys : List Expr) : held (xs ++ ys) = held ys ++ held xs := by
  simp [held]

variable {base : Nat} {p : Pending} {output output' rest : List Expr} {s s' : State}

/-- Folding a conditional keeps the order: the check came first, then both branches. -/
theorem held_foldTernary (base : Nat) (output : List Expr) :
    held (foldTernary base output) = held output := by
  rcases foldTernary_cases base output with h | ⟨onFalse, onTrue, check, l, l', rest, rfl, -, h⟩
  · rw [h]
  · rw [h]
    simp

/-- An operator makes one node of its operands and swaps none. -/
theorem Applies.held (h : Applies base p output output') : held output' = held output := by
  cases h with
  | binary => simp [mkBinary]
  | postfixed => simp [mkPostfixed]
  | prefixed _ hnode =>
    rw [held_foldTernary]
    rcases prefixNode_ok hnode with ⟨-, rfl⟩ | ⟨-, rfl⟩ | ⟨-, rfl⟩ <;>
      simp
  | cast =>
    rw [held_foldTernary]
    simp

/-- Applying what is pending keeps the order. -/
theorem held_applyAll {pending : List Pending} (h : applyAll base pending output = .ok output') :
    held output' = held output := by
  induction pending generalizing output with
  | nil =>
    obtain rfl := Except.ok.inj h
    rfl
  | cons p pending ih =>
    obtain ⟨middle, hp, hall⟩ := applyAll_cons_ok h
    rw [ih hall, hp.held]

/-! ### Brackets -/

/-- What stood in a bracket came after what was there before. -/
theorem Contains.held {frame : Frame} {value : Expr} (h : Contains frame output value rest) :
    held output = held rest ++ value.operands := by
  cases h with
  | nothing => simp
  | value => simp

/-- A value comes before the bracket that is attached to it. -/
theorem Attaches.held {frame : Frame} {callee value : Expr} {nodes : List Expr}
    (h : Attaches frame callee value nodes) : held nodes = callee.operands ++ value.operands := by
  cases h with
  | cast _ ht hargs =>
    -- The type of the conversion is the callee, which brings no operand.
    rw [operands_of_vartype? ht, ← operands_args value, hargs]
    simp
  | call => simp [operands_args]
  | subscript => simp
  | launch _ hargs =>
    rw [← operands_args value, hargs]
    simp
  | tuple => simp [operands_args]

/-- A bracket by itself adds what stood in it. -/
theorem StandsAlone.held {frame : Frame} {value : Expr} (h : StandsAlone s frame value s') :
    held s'.output = held s.output ++ value.operands := by
  cases h with
  | parens => simp
  | cast _ ht => simp [operands_of_vartype? ht]
  | tuple => simp [operands_args]

/-- Closing a bracket brings no operands and keeps their order. -/
theorem Closes.held {b : Bracket} (h : Closes s b s') : held s'.output = held s.output := by
  cases h with
  | attached _ _ hall hcontent _ hattach =>
    rw [← held_applyAll hall, hcontent.held]
    simp [hattach.held]
  | standing _ _ hall hcontent _ halone =>
    rw [← held_applyAll hall, hcontent.held, halone.held]

/-! ### The whole row -/

/-- An operand joins the end of the queue, and any other token leaves the queue as it is. -/
theorem Steps.held {t : Token} {next : Option Lexeme} (h : Steps s t next s') :
    held s'.output = held s.output ++ [t].filter Token.isOperand := by
  obtain ⟨lexeme, l⟩ := t
  cases h with
  | atom ht =>
    obtain rfl := ht
    simp [operands_atom]
  | op ht _ hread =>
    obtain rfl := ht
    refine Eq.trans ?_ (List.append_nil _).symm
    cases hread with
    | opening => rfl
    | closing hclose => exact hclose.held
    | action _ _ _ hall => exact held_applyAll hall

/-- The operands on the output are those of the tokens read so far, by induction from the front. -/
theorem held_run {ts : List Token} (h : run s ts = .ok s') :
    held s'.output = held s.output ++ ts.filter Token.isOperand := by
  induction ts generalizing s with
  | nil =>
    obtain rfl := Except.ok.inj h
    simp
  | cons t ts ih =>
    obtain ⟨middle, hstep, hrun⟩ := run_cons_ok h
    rw [ih hrun, hstep.held, List.append_assoc, ← List.filter_append]
    rfl

/-- The tree at the end has the operands of the output. -/
theorem operands_finish {start : Location} {e : Expr} (h : finish s start = .ok e) :
    e.operands = held s.output := by
  obtain ⟨-, output, hall, hend⟩ := finish_ok h
  rw [← held_applyAll hall, ← held_foldTernary 0 output]
  rcases hend with ⟨hnil, rfl⟩ | ⟨hone, -⟩
  · simp [hnil]
  · simp [hone]

end Build

namespace Expr

/-- **No operand is lost, doubled or moved**: the operands of a tree from left to right, each with
its place, are the operands among the tokens. -/
theorem operands_ofTokens {ts : List Token} {e : Expr} (h : ofTokens ts = .ok e) :
    e.operands = ts.filter Token.isOperand := by
  rcases Build.ofTokens_ok h with ⟨rfl, rfl⟩ | ⟨s, start, hrun, hfinish⟩
  · simp
  · rw [Build.operands_finish hfinish, Build.held_run hrun]
    rfl

/-- A call in a conditional, `c ? f(a, (int) b) : "d"`. -/
def conditionalCall : Expr :=
  ternary (atom (.identifier "c") ⟨1, 1⟩)
    (call (atom (.identifier "f") ⟨1, 5⟩)
      [atom (.identifier "a") ⟨1, 7⟩,
        cast .paren (.plain ⟨4⟩) (atom (.identifier "b") ⟨1, 16⟩) ⟨1, 10⟩] ⟨1, 5⟩)
    (atom (.string "d") ⟨1, 21⟩) ⟨1, 1⟩

/-- The tokens of the conditional, where they stand. -/
def conditionalCallTokens : List Token :=
  [⟨.atom (.identifier "c"), ⟨1, 1⟩⟩, ⟨.op (.pre .question), ⟨1, 3⟩⟩,
    ⟨.atom (.identifier "f"), ⟨1, 5⟩⟩, ⟨.op (.opening .round), ⟨1, 6⟩⟩,
    ⟨.atom (.identifier "a"), ⟨1, 7⟩⟩, ⟨.op (.binary .comma), ⟨1, 8⟩⟩,
    ⟨.op (.opening .round), ⟨1, 10⟩⟩, ⟨.atom (.type ⟨4⟩), ⟨1, 11⟩⟩,
    ⟨.op (.closing .round), ⟨1, 14⟩⟩, ⟨.atom (.identifier "b"), ⟨1, 16⟩⟩,
    ⟨.op (.closing .round), ⟨1, 17⟩⟩, ⟨.op (.pre .colon), ⟨1, 19⟩⟩,
    ⟨.atom (.string "d"), ⟨1, 21⟩⟩]

/-- The type between the brackets is gone, and the operands are in order. -/
theorem operands_conditionalCall :
    ofTokens conditionalCallTokens = .ok conditionalCall ∧
      conditionalCall.operands
        = [⟨.atom (.identifier "c"), ⟨1, 1⟩⟩, ⟨.atom (.identifier "f"), ⟨1, 5⟩⟩,
          ⟨.atom (.identifier "a"), ⟨1, 7⟩⟩, ⟨.atom (.identifier "b"), ⟨1, 16⟩⟩,
          ⟨.atom (.string "d"), ⟨1, 21⟩⟩] :=
  ⟨rfl, operands_ofTokens (show ofTokens conditionalCallTokens = .ok conditionalCall from rfl)⟩

end Expr

end KernelTree
