import KernelTree.Proofs.Expr.Leaves
import KernelTree.Pass.Substitution
import KernelTree.Proofs.Expr.NormalForm
import KernelTree.Proofs.Expr.Relabel

/-!
# Trees whose text keeps its groups

The text of a tree groups like the tree if no operand is looser than its place allows. That is a
condition on each node and its operands (`Expr.Fits`), so trees are put together from parts that
satisfy it by looking at the new node alone (`Expr.precedenceClosed_iff`). It does not depend on
what the leaves are, as long as no leaf becomes a type (`Expr.PrecedenceClosed.mapAtoms`).
-/

namespace KernelTree

namespace Expr

/-- What the places of a tree may hold beside operands that are tight enough. -/
structure Leeway where
  /-- A place may be left empty. -/
  blank : Prop
  /-- The value of a subscript may be loose. -/
  loose : Prop

/-- The node is a leaf that is no type or an operation, and every operand is tight enough for its
place. -/
def Fits (leeway : Leeway) : Expr → Prop
  | empty _ => leeway.blank
  | atom a _ => a.vartype? = none
  | prefixed _ v _ => v.level ≤ 2
  | sizeof v _ => v.level ≤ 2
  | throw v _ => v.level ≤ 15
  | binary op a b _ =>
    match associativity op.precedence with
    | .left => a.level ≤ op.precedence ∧ b.level < op.precedence
    | .right => a.level < op.precedence ∧ b.level ≤ op.precedence
  | ternary c a b _ => c.level ≤ 13 ∧ a.level ≤ 14 ∧ b.level ≤ 14
  | parens _ _ => True
  | tuple args _ => ∀ a ∈ args, a.level < 16
  | call f args _ => f.level = -1 ∧ ∀ a ∈ args, a.level < 16
  | subscript v _ _ => v.level = -1 ∨ leeway.loose
  | launch k b t _ => k.level = -1 ∧ b.level < 16 ∧ t.level < 16
  | _ => False

/-- The trees in which every node fits. -/
def PrecedenceClosed (leeway : Leeway) (e : Expr) : Prop := ∀ n ∈ e.nodes, n.Fits leeway

variable {leeway : Leeway} {a b e v : Expr} {l : Location}

/-- A tree is closed if its root is and all trees inside are. -/
theorem precedenceClosed_iff :
    e.PrecedenceClosed leeway ↔ e.Fits leeway ∧ ∀ c ∈ e.children, c.PrecedenceClosed leeway :=
  forall_mem_nodes

/-! ### Putting trees together -/

namespace PrecedenceClosed

/-- A leaf that is no type is closed. -/
theorem atom {x : Atom} (h : x.vartype? = none) : (atom x l).PrecedenceClosed leeway :=
  precedenceClosed_iff.mpr ⟨h, List.forall_mem_nil _⟩

/-- The use of a variable is closed. -/
theorem ofVar (id : VarId) (l : Location) : (ofVar id l).PrecedenceClosed leeway := atom rfl

/-- Brackets close what is closed. -/
theorem mkParens (h : v.PrecedenceClosed leeway) : v.mkParens.PrecedenceClosed leeway :=
  precedenceClosed_iff.mpr ⟨trivial, List.forall_mem_singleton.mpr h⟩

/-- An infix operator is closed if its sides are and bind tightly enough. -/
theorem binary {op : Operator} (ha : a.PrecedenceClosed leeway) (hb : b.PrecedenceClosed leeway)
    (h : (Expr.binary op a b l).Fits leeway) : (Expr.binary op a b l).PrecedenceClosed leeway :=
  precedenceClosed_iff.mpr ⟨h, forall_mem_pair.mpr ⟨ha, hb⟩⟩

/-- Operators that group to the left. -/
theorem mkBinary {op : BinaryOp} {p : Nat} (hop : op.precedence = p) (hp : associativity p = .left)
    (ha : a.PrecedenceClosed leeway) (hleft : a.level ≤ p) (hb : b.PrecedenceClosed leeway)
    (hright : b.level < p) : (Expr.mkBinary op a b).PrecedenceClosed leeway := by
  refine binary ha hb ?_
  simp only [Fits, Operator.precedence, hop, hp]
  exact ⟨hleft, hright⟩

/-- Operators that group to the right. -/
theorem mkAssign {op : BinaryOp} {p : Nat} (hop : op.precedence = p) (hp : associativity p = .right)
    (ha : a.PrecedenceClosed leeway) (hleft : a.level < p) (hb : b.PrecedenceClosed leeway)
    (hright : b.level ≤ p) : (Expr.mkBinary op a b).PrecedenceClosed leeway := by
  refine binary ha hb ?_
  simp only [Fits, Operator.precedence, hop, hp]
  exact ⟨hleft, hright⟩

/-- A subscript of a primary is closed. -/
theorem subscript {i : Expr} (hv : v.PrecedenceClosed leeway) (hlevel : v.level = -1)
    (hi : i.PrecedenceClosed leeway) : (Expr.subscript v i l).PrecedenceClosed leeway :=
  precedenceClosed_iff.mpr ⟨.inl hlevel, forall_mem_pair.mpr ⟨hv, hi⟩⟩

/-- An operand that keeps together fits as well as the expression. -/
theorem wrapped (h : e.PrecedenceClosed leeway) : e.wrapped.PrecedenceClosed leeway := by
  unfold Expr.wrapped
  split
  case h_9 => exact h
  all_goals exact mkParens h

end PrecedenceClosed

@[simp] theorem level_ofVar (id : VarId) (l : Location) : (ofVar id l).level = -1 := rfl

@[simp] theorem level_mkBinary (op : BinaryOp) (a b : Expr) :
    (mkBinary op a b).level = op.precedence := rfl

@[simp] theorem level_mkParens (e : Expr) : e.mkParens.level = -1 := rfl

/-- An operand that keeps together is at least as tight as a prefix operator. -/
theorem level_wrapped (e : Expr) : e.wrapped.level ≤ 2 := by
  cases e <;> simp [wrapped, mkParens, level]

/-! ### Other leaves -/

variable (f : Atom → Atom)

/-- Relabelling leaves how tightly a tree binds. -/
@[simp] theorem level_mapAtoms (e : Expr) : (e.mapAtoms f).level = e.level := by
  cases e <;> simp [level]

@[simp] theorem mapAtoms_mkParens (e : Expr) :
    e.mkParens.mapAtoms f = (e.mapAtoms f).mkParens := by
  simp [mkParens]

@[simp] theorem mapAtoms_mkBinary (op : BinaryOp) (a b : Expr) :
    (mkBinary op a b).mapAtoms f = mkBinary op (a.mapAtoms f) (b.mapAtoms f) := by
  simp [mkBinary]

@[simp] theorem mapAtoms_wrapped (e : Expr) : e.wrapped.mapAtoms f = (e.mapAtoms f).wrapped := by
  cases e <;> simp [wrapped]

/-- Whether a node fits does not depend on what its leaves are, a leaf apart. -/
theorem Fits.mapAtoms (h : e.Fits leeway)
    (hf : ∀ x, e.atom? = some x → x.vartype? = none → (f x).vartype? = none) :
    (e.mapAtoms f).Fits leeway := by
  cases e with
  | atom x l =>
    rw [mapAtoms_atom]
    exact hf x rfl h
  | postfixed | pair | new | delete | cast => exact False.elim h
  | parens v l =>
    rw [mapAtoms_parens]
    trivial
  | _ => simpa [Fits] using h

/-- The leaves of a tree are those of its nodes. -/
theorem forall_mem_atoms {P : Atom → Prop} :
    (∀ x ∈ e.atoms, P x) ↔ ∀ n ∈ e.nodes, ∀ x, n.atom? = some x → P x := by
  simp only [atoms, List.mem_filterMap]
  constructor
  · intro h n hn x hx
    exact h x ⟨n, hn, hx⟩
  · rintro h x ⟨n, hn, hx⟩
    exact h n hn x hx

/-- A relabelling that makes no leaf a type keeps the groups. -/
theorem PrecedenceClosed.mapAtoms (h : e.PrecedenceClosed leeway)
    (hf : ∀ x ∈ e.atoms, x.vartype? = none → (f x).vartype? = none) :
    (e.mapAtoms f).PrecedenceClosed leeway := by
  induction e using inductionOn with
  | step e ih =>
    obtain ⟨hfits, hchildren⟩ := precedenceClosed_iff.mp h
    obtain ⟨hroot, hbelow⟩ := forall_mem_nodes.mp (forall_mem_atoms.mp hf)
    refine precedenceClosed_iff.mpr ⟨hfits.mapAtoms f hroot, ?_⟩
    rw [children_mapAtoms]
    intro c' hc'
    obtain ⟨c, hc, rfl⟩ := List.mem_map.mp hc'
    exact ih c hc (hchildren c hc) (forall_mem_atoms.mpr (hbelow c hc))

end Expr

/-! ### Names and variables -/

/-- Whether a leaf is an identifier that is the name of a type in a scope. -/
def SymbolTable.NamesType (t : SymbolTable) (scope : ScopeId) (x : Atom) : Prop :=
  ∃ name id, x = .identifier name ∧ t.lookup scope name = some (.type id)

namespace Expr

variable {leeway : Leeway} {e : Expr}

/-- Resolving names keeps the groups if none of them is the name of a type. -/
theorem PrecedenceClosed.resolve (h : e.PrecedenceClosed leeway) {t : SymbolTable}
    {scope : ScopeId} (hnames : ∀ x ∈ e.atoms, ¬ t.NamesType scope x) :
    (t.resolve scope e).PrecedenceClosed leeway := by
  refine h.mapAtoms _ fun x hx hnone => ?_
  cases x with
  | identifier name =>
    rw [SymbolTable.resolveAtom]
    cases hlookup : t.lookup scope name with
    | none => rfl
    | some s =>
      cases s with
      | type id => exact absurd ⟨name, id, rfl, hlookup⟩ (hnames _ hx)
      | _ => rfl
  | _ => exact hnone

/-- A variable in place of another keeps the groups. -/
theorem PrecedenceClosed.substitute (h : e.PrecedenceClosed leeway) (v w : VarId) :
    (e.mapAtoms (Substitution.atom ⟨.variable v, .variable w⟩)).PrecedenceClosed leeway := by
  refine h.mapAtoms _ fun x _ hnone => ?_
  cases x <;> first | rfl | cases hnone

end Expr

end KernelTree
