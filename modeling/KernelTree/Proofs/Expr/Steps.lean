import KernelTree.Expr.Build

/-!
# What the steps of the builder do

One lemma for each function of the builder and each way it goes, so that proofs about whole runs
need not open the functions.
-/

namespace KernelTree

/-! ### Lists of arguments -/

/-- Induction along the left side of a comma chain: a comma hands its right operand over to the
rest, an empty expression alone lists nothing, and anything else is the first argument. -/
@[elab_as_elim]
theorem Expr.argsBefore_induction {motive : Expr → List Expr → Prop}
    (comma : ∀ a b l rest, motive a (b :: rest) → motive (binary (.binary .comma) a b l) rest)
    (nothing : ∀ l, motive (empty l) [])
    (operand : ∀ e rest, (∀ a b l, e ≠ binary (.binary .comma) a b l) →
      e.argsBefore rest = e :: rest → motive e rest)
    (e : Expr) (rest : List Expr) : motive e rest := by
  refine argsBefore.induct motive ?_ ?_ ?_ ?_ e rest
  · exact comma
  · exact nothing
  · intro l rest hrest
    refine operand _ rest (fun a b l' h => by cases h) ?_
    rw [argsBefore, if_neg hrest]
  · intro e rest hcomma hempty
    exact operand e rest hcomma (argsBefore.eq_3 e rest hcomma hempty)

namespace Build

/-! ### Tokens -/

/-- A row is read token by token, each with an eye on the next one. -/
theorem run_cons {s s' : State} {t : Token} {rest : List Token}
    (h : step s t (rest.head?.map Token.lexeme) = .ok s') : run s (t :: rest) = run s' rest := by
  simp only [run, h]
  rfl

/-- A symbol is read by its settled reading. -/
theorem step_op {s s' : State} {symbol op : Operator} {l : Location} {next : Option Lexeme}
    (hop : settle s symbol l next = .ok op) (hread : readOperator s op l = .ok s') :
    step s ⟨.op symbol, l⟩ next
      = .ok { s' with index := s'.index + 1, previous := some (.op op) } := by
  simp only [step, hop, bind, Except.bind, hread]

/-! ### The end of the row -/

/-- Whether a node marks a branch of a conditional that is not complete. -/
def isMarkerNode : Expr → Bool
  | .prefixed (.pre .question) _ _ => true
  | .prefixed (.pre .colon) _ _ => true
  | _ => false

/-- What the row amounts to, from what is left on the output with the top first. -/
def conclude (start : Location) : List Expr → Except BuildError Expr
  | [] => .ok (.empty start)
  | [e] => if isMarkerNode e then .error ⟨.malformed, e.location⟩ else .ok e
  | _ :: e :: _ => .error ⟨.malformed, e.location⟩

/-- With no bracket open, the row amounts to what all pending operators leave. -/
theorem finish_nil {s : State} (start : Location) (hf : s.frames = []) :
    finish s start = (applyAll s.base s.pending s.output).bind
      fun output => conclude start (foldTernary 0 output) := by
  unfold finish
  rw [hf]
  show Except.bind _ _ = _
  congr 1
  funext output
  dsimp only
  split
  all_goals simp_all [conclude, isMarkerNode, Expr.location]

/-- With a bracket open, the row is refused unless an operator fails first. -/
theorem finish_cons {s : State} {frame : Frame} {frames : List Frame} (start : Location)
    (hf : s.frames = frame :: frames) :
    finish s start = (applyAll s.base s.pending s.output).bind fun _ =>
      .error ⟨.mismatchedPair .closing frame.bracket.closeSymbol, frame.location⟩ := by
  unfold finish
  rw [hf]
  rfl

/-! ### Brackets that follow no value -/

/-- Round brackets with nothing in them are refused. -/
theorem standAlone_empty {s : State} {frame : Frame} (hb : frame.bracket = .round)
    (l : Location) :
    standAlone s frame (.empty l) = .error ⟨.expectedExpression, frame.location⟩ := by
  simp [standAlone, hb]

/-- A type in round brackets waits for what it converts, unless `sizeof` measures it. -/
theorem standAlone_type {s : State} {frame : Frame} {value : Expr} {t : Vartype}
    (hb : frame.bracket = .round) (ht : value.vartype? = some t) :
    standAlone s frame value
      = .ok (if afterSizeof s.pending then
          { s with output := .parens value frame.location :: s.output }
        else
          { s with
            pending := ⟨.cast t, frame.location⟩ :: s.pending
            castClose := some s.index }) := by
  cases value with
  | empty l => simp [Expr.vartype?] at ht
  | _ =>
    simp only [standAlone, hb, ht]
    split <;> rfl

/-- Any other value in round brackets is a group. -/
theorem standAlone_parens {s : State} {frame : Frame} {value : Expr}
    (hb : frame.bracket = .round) (hne : ∀ l, value ≠ .empty l) (ht : value.vartype? = none) :
    standAlone s frame value
      = .ok { s with output := .parens value frame.location :: s.output } := by
  cases value with
  | empty l => exact absurd rfl (hne l)
  | _ => simp only [standAlone, hb, ht]

/-- Curly brackets make a tuple of what stands between their commas. -/
theorem standAlone_tuple {s : State} {frame : Frame} {value : Expr}
    (hb : frame.bracket = .curly) :
    standAlone s frame value
      = .ok { s with output := .tuple value.args frame.location :: s.output } := by
  simp [standAlone, hb]

/-- Square and launch brackets have to follow a value. -/
theorem standAlone_error {s : State} {frame : Frame} {value : Expr}
    (hb : frame.bracket = .square ∨ frame.bracket = .launch) :
    standAlone s frame value = .error ⟨.expectedExpression, frame.location⟩ := by
  rcases hb with hb | hb <;> simp [standAlone, hb]

end Build

end KernelTree
