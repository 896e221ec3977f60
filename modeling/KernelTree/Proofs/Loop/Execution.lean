import KernelTree.Loop.Canonical
import KernelTree.Proofs.Pass.Substitute

/-!
# Running nests of loops

Loop headers are arithmetic on integers without bounds; a `Machine` says what everything else means.
`Executes` runs nests of loops and branches around a body and lists the values that a variable has
whenever the body is run. A nest has one run at most (`Executes.unique`).
-/

namespace KernelTree

/-- The integers that the variables hold, and what else a program can change. -/
structure Store (μ : Type) where
  vars : VarId → Int
  memory : μ

namespace Store

variable {μ : Type}

/-- The store with another integer in a variable. -/
def set (s : Store μ) (v : VarId) (x : Int) : Store μ :=
  { s with vars := fun w => if w = v then x else s.vars w }

@[simp] theorem vars_set_self (s : Store μ) (v : VarId) (x : Int) : (s.set v x).vars v = x := by
  simp [set]

theorem vars_set_of_ne (s : Store μ) {v w : VarId} (h : w ≠ v) (x : Int) :
    (s.set v x).vars w = s.vars w := by
  simp [set, h]

end Store

/-- The integer that an operator of a loop header makes of two; a comparison makes one or zero. -/
def BinaryOp.meaning? : BinaryOp → Option (Int → Int → Int)
  | add => some fun x y => x + y
  | sub => some fun x y => x - y
  | mul => some fun x y => x * y
  | less => some fun x y => if x < y then 1 else 0
  | lessEq => some fun x y => if x ≤ y then 1 else 0
  | greater => some fun x y => if y < x then 1 else 0
  | greaterEq => some fun x y => if y ≤ x then 1 else 0
  | _ => none

/-- The meaning of all that is no arithmetic of loop headers: the values of other expressions, which
depend on no variable but those they mention, and the effect of statements. -/
structure Machine (μ : Type) where
  other : Store μ → Expr → Int
  run : List Statement → Store μ → Store μ
  other_set {e : Expr} {v : VarId} (h : ¬ e.Mentions v) (s : Store μ) (x : Int) :
    other (s.set v x) e = other s e

namespace Machine

variable {μ : Type} (M : Machine μ)

/-- The value of an expression. -/
def value (s : Store μ) : Expr → Int
  | .atom (.variable v) _ => s.vars v
  | .parens e _ => value s e
  | .binary (.binary op) a b l =>
    match op.meaning? with
    | some f => f (value s a) (value s b)
    | none => M.other s (.binary (.binary op) a b l)
  | e => M.other s e

/-- The variable that an expression moves as the update of a loop does, and how far. -/
def move? (s : Store μ) : Expr → Option (VarId × Int)
  | .prefixed op (.atom (.variable v) _) _ =>
    (CanonicalLoop.stepOperator? op).map fun up => (v, if up then 1 else -1)
  | .postfixed op (.atom (.variable v) _) _ =>
    (CanonicalLoop.stepOperator? op).map fun up => (v, if up then 1 else -1)
  | .binary (.binary .addAssign) (.atom (.variable v) _) e _ => some (v, M.value s e)
  | .binary (.binary .subAssign) (.atom (.variable v) _) e _ => some (v, -M.value s e)
  | _ => none

/-- The store after the first or the last part of a loop header. -/
def perform (s : Store μ) : Statement → Store μ
  | .declaration ds _ =>
    ds.foldl (fun s d => match d.value with
      | some e => s.set d.var (M.value s e)
      | none => s) s
  | .expression e l =>
    match M.move? s e with
    | some (v, x) => s.set v (s.vars v + x)
    | none => M.run [.expression e l] s
  | statement => M.run [statement] s

/-- Whether a condition holds. -/
def holds (s : Store μ) : Statement → Bool
  | .expression e _ => M.value s e ≠ 0
  | _ => true

end Machine

/-! ### Runs -/

/-- What is left to run: a list of statements, or the rounds of a loop from its check on. -/
inductive Task
  | statements (body : List Statement)
  | rounds (l : Loop)

/-- The runs of nests of loops and branches around a body, with the values of a variable at each run
of the body. -/
inductive Executes {μ : Type} (M : Machine μ) (watched : List Statement) (v : VarId) :
    Task → Store μ → List Int → Store μ → Prop
  | body {ss : List Statement} {s : Store μ} (h : ss = watched) :
    Executes M watched v (.statements ss) s [s.vars v] (M.run ss s)
  | loop {st : Statement} {l : Loop} {s s' : Store μ} {vs : List Int} (hne : [st] ≠ watched)
      (hl : st.loop? = some l) (h : Executes M watched v (.rounds l) (M.perform s l.init) vs s') :
    Executes M watched v (.statements [st]) s vs s'
  | taken {st condition : Statement} {scope : ScopeId} {body : List Statement} {l : Location}
      {s s' : Store μ} {vs : List Int} (hne : [st] ≠ watched)
      (hst : st = .branch scope condition body none l) (hcondition : M.holds s condition)
      (h : Executes M watched v (.statements body) s vs s') :
    Executes M watched v (.statements [st]) s vs s'
  | skipped {st condition : Statement} {scope : ScopeId} {body : List Statement} {l : Location}
      {s : Store μ} (hne : [st] ≠ watched) (hst : st = .branch scope condition body none l)
      (hcondition : ¬ M.holds s condition) :
    Executes M watched v (.statements [st]) s [] s
  | done {l : Loop} {s : Store μ} (hcheck : ¬ M.holds s l.check) :
    Executes M watched v (.rounds l) s [] s
  | round {l : Loop} {s s₁ s₂ : Store μ} {vs ws : List Int} (hcheck : M.holds s l.check)
      (hbody : Executes M watched v (.statements l.body) s vs s₁)
      (hrest : Executes M watched v (.rounds l) (M.perform s₁ l.update) ws s₂) :
    Executes M watched v (.rounds l) s (vs ++ ws) s₂

/-- A nest has one run at most. -/
theorem Executes.unique {μ : Type} {M : Machine μ} {watched : List Statement} {v : VarId}
    {task : Task} {s s' s'' : Store μ} {vs ws : List Int}
    (h : Executes M watched v task s vs s') (h' : Executes M watched v task s ws s'') :
    vs = ws ∧ s' = s'' := by
  induction h generalizing ws s'' with
  -- Each rule of the first run rules out all rules but its own for the second: the body is told
  -- apart from a nest, a check that holds from one that fails.
  | body h =>
    cases h' with
    | body => exact ⟨rfl, rfl⟩
    | loop hne | taken hne | skipped hne => exact absurd h hne
  | loop hne hl _ ih =>
    cases h' with
    | body h => exact absurd h hne
    | loop _ hl' h' =>
      obtain rfl := Option.some.inj (hl.symm.trans hl')
      exact ih h'
    | taken _ hst | skipped _ hst =>
      subst hst
      cases hl
  | taken hne hst hcondition _ ih =>
    subst hst
    cases h' with
    | body h => exact absurd h hne
    | loop _ hl' => cases hl'
    | taken _ hst' _ h' =>
      cases hst'
      exact ih h'
    | skipped _ hst' hcondition' =>
      cases hst'
      exact absurd hcondition hcondition'
  | skipped hne hst hcondition =>
    subst hst
    cases h' with
    | body h => exact absurd h hne
    | loop _ hl' => cases hl'
    | taken _ hst' hcondition' =>
      cases hst'
      exact absurd hcondition' hcondition
    | skipped => exact ⟨rfl, rfl⟩
  | done hcheck =>
    cases h' with
    | done => exact ⟨rfl, rfl⟩
    | round hcheck' => exact absurd hcheck' hcheck
  | round hcheck _ _ ihbody ihrest =>
    cases h' with
    | done hcheck' => exact absurd hcheck hcheck'
    | round _ hbody' hrest' =>
      obtain ⟨rfl, rfl⟩ := ihbody hbody'
      obtain ⟨rfl, rfl⟩ := ihrest hrest'
      exact ⟨rfl, rfl⟩

theorem executes_loop_iff {μ : Type} {M : Machine μ} {watched : List Statement} {v : VarId}
    {l : Loop} {s s' : Store μ} {vs : List Int} (hne : [l.toStatement] ≠ watched) :
    Executes M watched v (.statements [l.toStatement]) s vs s'
      ↔ Executes M watched v (.rounds l) (M.perform s l.init) vs s' := by
  refine ⟨fun h => ?_, fun h => .loop hne rfl h⟩
  cases h with
  | body h => exact absurd h hne
  | loop _ hl h =>
    obtain rfl : l = _ := Option.some.inj hl
    exact h
  | taken _ hst | skipped _ hst => cases hst

/-- The statement runs to its end from a store, and runs the body for just these values. -/
def Visits {μ : Type} (M : Machine μ) (watched : List Statement) (v : VarId) (st : Statement)
    (s : Store μ) (vs : List Int) : Prop :=
  ∃ s', Executes M watched v (.statements [st]) s vs s'

theorem Visits.unique {μ : Type} {M : Machine μ} {watched : List Statement} {v : VarId}
    {st : Statement} {s : Store μ} {vs ws : List Int} (h : Visits M watched v st s vs)
    (h' : Visits M watched v st s ws) : vs = ws := by
  obtain ⟨_, hex⟩ := h
  obtain ⟨_, hex'⟩ := h'
  exact (hex.unique hex').1

end KernelTree
