import KernelTree.Statement

/-!
# Passes over trees

A pass names the kinds of nodes it cares about and answers, node by node, whether to keep, replace
or remove it. The walk goes from the leaves up, left to right, so that a pass sees a node after
everything below it; what replaces a node is not visited again. A removed statement leaves the list
it stands in, and any other place is left empty.

A pass carries a state along and may fail. From then on the walk changes nothing any more, and what
was changed before stays changed.
-/

namespace KernelTree

/-- What is to become of a node. -/
inductive Verdict (α : Type)
  | keep
  | replace (a : α)
  | remove

/-- How far a walk has come: the state of the pass, and its failure once it has failed. -/
structure Progress (σ ε : Type) where
  state : σ
  failure : Option ε

/-- A part of a walk. -/
abbrev Walk (σ ε : Type) := StateM (Progress σ ε)

namespace Walk

variable {σ ε α : Type}

/-- Asks the pass, and takes `otherwise` for its answer if it fails or has failed before. -/
def ask (question : σ → Except ε α × σ) (otherwise : α) : Walk σ ε α := fun progress =>
  match progress.failure with
  | some _ => (otherwise, progress)
  | none =>
    match question progress.state with
    | (.ok answer, state) => (answer, ⟨state, none⟩)
    | (.error failure, state) => (otherwise, ⟨state, some failure⟩)

/-- The walk from a state that has not failed. -/
def start (walk : Walk σ ε α) (state : σ) : α × Progress σ ε := walk.run ⟨state, none⟩

/-- A walk that has failed asks nothing any more. -/
theorem ask_of_failed {question : σ → Except ε α × σ} {otherwise : α} {p : Progress σ ε}
    (h : p.failure.isSome) : ask question otherwise p = (otherwise, p) := by
  obtain ⟨state, failure⟩ := p
  cases failure with
  | none => simp at h
  | some _ => rfl

end Walk

/-! ### Expressions -/

/-- A pass over the nodes of expressions. -/
structure ExprPass (σ ε : Type) where
  accepts : NodeKind → Bool
  visit : Expr → σ → Except ε (Verdict Expr) × σ

namespace Expr

variable {σ ε : Type}

/-- The node after the answer of a pass. -/
def settled (e : Expr) : Verdict Expr → Expr
  | .keep => e
  | .replace e' => e'
  | .remove => .empty e.location

/-- Asks a pass about the node, if it is of a kind that the pass cares about. -/
def visit (pass : ExprPass σ ε) (e : Expr) : Walk σ ε Expr :=
  if pass.accepts e.kind then e.settled <$> Walk.ask (pass.visit e) .keep else pure e

/-- Walks over the tree. -/
def walk (pass : ExprPass σ ε) (e : Expr) : Walk σ ε Expr := do
  let children ← e.children.attach.mapM fun ⟨c, h⟩ =>
    have := sizeOf_lt_of_mem_children h
    c.walk pass
  (e.withChildren children).visit pass
termination_by sizeOf e

end Expr

/-! ### Statements -/

/-- A pass over statements. It is told the scope that a statement stands in. -/
structure StatementPass (σ ε : Type) where
  accepts : StatementKind → Bool
  visit : Statement → ScopeId → σ → Except ε (Verdict Statement) × σ

namespace Statement

variable {σ ε : Type}

/-- What a pass answers about a statement; it keeps those of kinds it does not care about. -/
def answer (pass : StatementPass σ ε) (scope : ScopeId) (s : Statement) :
    Walk σ ε (Verdict Statement) :=
  if pass.accepts s.kind then Walk.ask (pass.visit s scope) .keep else pure .keep

/-- Settles a statement that has its place to itself. -/
def settle (pass : StatementPass σ ε) (scope : ScopeId) (s : Statement) : Walk σ ε Statement := do
  match ← s.answer pass scope with
  | .keep => return s
  | .replace s' => return s'
  | .remove => return .empty s.location

/-- Settles a statement of a list. -/
def settleInList (pass : StatementPass σ ε) (scope : ScopeId) (s : Statement) :
    Walk σ ε (List Statement) := do
  match ← s.answer pass scope with
  | .keep => return [s]
  | .replace s' => return [s']
  | .remove => return []

mutual

/-- Walks over everything below the statement. -/
def walkBelow (pass : StatementPass σ ε) : Statement → Walk σ ε Statement
  | .block scope body l => do
    let body ← walkList pass scope body
    return .block scope body l
  | .loop scope init check update body attributes l => do
    let init ← settle pass scope (← walkBelow pass init)
    let check ← settle pass scope (← walkBelow pass check)
    let update ← settle pass scope (← walkBelow pass update)
    let body ← walkList pass scope body
    return .loop scope init check update body attributes l
  | .branch scope condition body none l => do
    let condition ← settle pass scope (← walkBelow pass condition)
    let body ← walkList pass scope body
    return .branch scope condition body none l
  | .branch scope condition body (some otherwise) l => do
    let condition ← settle pass scope (← walkBelow pass condition)
    let body ← walkList pass scope body
    let otherwise ← walkList pass scope otherwise
    return .branch scope condition body (some otherwise) l
  | .while scope condition body isDoWhile l => do
    let condition ← settle pass scope (← walkBelow pass condition)
    let body ← walkList pass scope body
    return .while scope condition body isDoWhile l
  | s => return s

/-- Walks over a list of statements. -/
def walkList (pass : StatementPass σ ε) (scope : ScopeId) :
    List Statement → Walk σ ε (List Statement)
  | [] => return []
  | s :: rest => do
    let front ← settleInList pass scope (← walkBelow pass s)
    let rest ← walkList pass scope rest
    return front ++ rest

end

/-- Walks over a statement that stands in a scope. -/
def walk (pass : StatementPass σ ε) (scope : ScopeId) (s : Statement) : Walk σ ε Statement := do
  settle pass scope (← walkBelow pass s)

/-- Walks over the expressions that the statement itself holds. -/
def walkExprs (pass : ExprPass σ ε) (s : Statement) : Walk σ ε Statement := do
  return s.withExprs (← s.exprs.mapM (Expr.walk pass))

end Statement

end KernelTree
