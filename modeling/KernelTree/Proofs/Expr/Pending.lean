import KernelTree.Proofs.Expr.NormalForm

/-!
# Partially reduced stacks

When the tokens of a tree have been read, the tree lies on the output but for operators that are
still pending (`Build.Holds`), all of them no looser than the tree. Whatever may follow the tree in
a normal form applies exactly those (`Build.Holds.push`), and nothing inside the tree applies an
operator that was pending before (`Build.Bars`).
-/

namespace KernelTree

namespace Build

/-! ### Pending operators -/

/-- No operator of level at most `level` that comes next applies what is on top of the pending
operators. A colon is left out: it goes back to its own `?` and no further. -/
def Bars (pending : List Pending) (level : Int) : Prop :=
  ∀ top ∈ pending.head?, ∀ action : Action, (action.precedence : Int) ≤ level →
    action ≠ .pre .colon → yields action top.action = false

/-- What bars a tree bars all that bind more tightly. -/
theorem Bars.mono {pending : List Pending} {l l' : Int} (h : Bars pending l) (hl : l' ≤ l) :
    Bars pending l' :=
  fun top htop action ha hc => h top htop action (by omega) hc

/-- Nothing that waits bars nothing. -/
theorem bars_nil (level : Int) : Bars [] level := by
  intro top htop
  simp at htop

/-- An operator bars those that bind tighter. -/
theorem bars_of_lt {p : Pending} {pending : List Pending} {level : Int}
    (h : level < p.action.precedence) : Bars (p :: pending) level := by
  intro top htop action ha hc
  obtain rfl : p = top := by simpa using htop
  have hlt : ¬ p.action.precedence < action.precedence := by omega
  have hne : action.precedence ≠ p.action.precedence := by omega
  simp [yields, hlt, hne]

/-- An operator that groups to the right bars those of its own precedence too. -/
theorem bars_of_right {p : Pending} {pending : List Pending} {level : Int}
    (h : level ≤ p.action.precedence) (hassoc : associativity p.action.precedence = .right) :
    Bars (p :: pending) level := by
  intro top htop action ha hc
  obtain rfl : p = top := by simpa using htop
  have hlt : ¬ p.action.precedence < action.precedence := by omega
  simp [yields, hlt, hassoc]

/-- Only markers and no binary operator have the precedence of a conditional. -/
theorem eq_marker_of_precedence {action : Action} (h : action.precedence = 14) :
    action = .pre .question ∨ action = .pre .colon := by
  cases action with
  | pre op => cases op <;> simp_all [Action.precedence, PrefixOp.precedence]
  | post op => simp [Action.precedence, PostfixOp.precedence] at h
  | binary op => cases op <;> simp [Action.precedence, BinaryOp.precedence] at h
  | cast t => simp [Action.precedence, PrefixOp.precedence] at h

/-- Both marks of a conditional have its precedence. -/
theorem precedence_of_isMarker {action : Action} (h : action.isMarker) :
    action.precedence = 14 := by
  revert h
  unfold Action.isMarker
  split <;> simp [Action.precedence, PrefixOp.precedence]

/-- A branch of a conditional bars all that may stand in it. -/
theorem bars_marker (marker : Action) (h : marker.isMarker) {l : Location}
    {pending : List Pending} : Bars (⟨marker, l⟩ :: pending) 14 := by
  intro top htop action ha hc
  obtain rfl : ⟨marker, l⟩ = top := by simpa using htop
  have hp := precedence_of_isMarker h
  -- Only the two markers have this precedence, and a new `?` leaves pending markers alone.
  by_cases heq : action.precedence = 14
  · obtain rfl := (eq_marker_of_precedence heq).resolve_right hc
    simp [yields, h]
  · have hlt : ¬ 14 < action.precedence := by omega
    simp [yields, hlt, hp, heq]

/-- What binds no looser than an operator is applied before it is put on the stack; at the same
precedence only where operators group to the left. -/
theorem yields_of_le {action top : Action} (h : top.precedence ≤ action.precedence)
    (hassoc : top.precedence = action.precedence → associativity action.precedence = .left)
    (hq : action = .pre .question → top.isMarker = false) : yields action top = true := by
  have hopen := Decidable.not_or_of_imp hq
  by_cases heq : top.precedence = action.precedence
  · simpa [yields, heq, hassoc heq] using hopen
  · have hlt : top.precedence < action.precedence := by omega
    simpa [yields, hlt] using hopen

/-! ### Applying a row of operators -/

/-- Applying two rows of pending operators is applying one after the other. -/
theorem applyAll_append (base : Nat) (xs ys : List Pending) (output : List Expr) :
    applyAll base (xs ++ ys) output
      = (applyAll base xs output).bind fun output => applyAll base ys output := by
  induction xs generalizing output with
  | nil => rfl
  | cons p xs ih =>
    simp only [List.cons_append, applyAll]
    cases apply base p output with
    | error e => rfl
    | ok output => exact ih output

/-- Operators that all give way are applied, and the rest of the stack decides what comes next. -/
theorem applyFaster_append {base : Nat} {action : Action} {ops pending : List Pending}
    {output output' : List Expr} (hyield : ∀ p ∈ ops, yields action p.action = true)
    (hstop : ∀ p ∈ ops, ¬ (action = .pre .colon ∧ p.action = .pre .question))
    (h : applyAll base ops output = .ok output') :
    applyFaster base action (ops ++ pending) output
      = applyFaster base action pending output' := by
  induction ops generalizing output with
  | nil =>
    obtain rfl : output = output' := Except.ok.inj h
    rfl
  | cons p ops ih =>
    simp only [applyAll] at h
    cases hp : apply base p output with
    | error e => rw [hp] at h; cases h
    | ok out =>
      rw [hp] at h
      -- A colon would stop here, once it has taken its `?` away.
      have hgo : ¬ (action = .pre .colon && p.action = .pre .question) = true := by
        simpa using hstop p (by simp)
      simp only [List.cons_append, applyFaster, hyield p (by simp), if_true, hp]
      show (if _ then _ else _) = _
      rw [if_neg hgo]
      exact ih (fun q hq => hyield q (by simp [hq])) (fun q hq => hstop q (by simp [hq])) h

/-- Nothing is applied if the last that waits does not yield. -/
theorem applyFaster_stop {base : Nat} {action : Action} {pending : List Pending}
    {output : List Expr} (h : ∀ top ∈ pending.head?, yields action top.action = false) :
    applyFaster base action pending output = .ok (pending, output) := by
  cases pending with
  | nil => rfl
  | cons p pending => simp [applyFaster, h p (by simp)]

/-- The last operand is taken off where there is one above the bracket. -/
theorem popOperand_cons {base : Nat} {l : Location} {e : Expr} {rest : List Expr}
    (h : base ≤ rest.length) : popOperand base l (e :: rest) = .ok (e, rest) := by
  have : ¬ (e :: rest).length ≤ base := by simp; omega
  simp only [popOperand, if_neg this]

/-- Nothing is folded without a mark on the output. -/
theorem foldTernary_cons {base : Nat} {e : Expr} {rest : List Expr}
    (h : isMarkerNode e = false) : foldTernary base (e :: rest) = e :: rest := by
  unfold foldTernary
  split
  · simp_all [isMarkerNode]
  · rfl

/-- An infix operator takes its two operands off the output. -/
theorem apply_binary {base : Nat} {op : BinaryOp} {l : Location} {a b : Expr} {rest : List Expr}
    (h : base ≤ rest.length) :
    apply base ⟨.binary op, l⟩ (b :: a :: rest) = .ok (.mkBinary op a b :: rest) := by
  have h' : base ≤ (a :: rest).length := by simp; omega
  simp only [apply, popOperand_cons h', bind, Except.bind, popOperand_cons h]

/-- A prefix operator that makes a node of its own puts it in the place of the operand. -/
theorem apply_pre {base : Nat} {op : PrefixOp} {l : Location} {v node : Expr}
    {rest : List Expr} (hnode : prefixNode op v l = .ok node) (h : base ≤ rest.length) :
    apply base ⟨.pre op, l⟩ (v :: rest) = .ok (foldTernary base (node :: rest)) := by
  simp only [apply, popOperand_cons h, bind, Except.bind, hnode]

/-- The second marker completes a conditional. -/
theorem apply_colon {base : Nat} {l l' : Location} {c a b : Expr} {rest : List Expr}
    (h : base ≤ rest.length) :
    apply base ⟨.pre .colon, l⟩ (b :: .prefixed (.pre .question) a l' :: c :: rest)
      = .ok (.ternary c a b c.location :: rest) := by
  have h' : base ≤ (Expr.prefixed (.pre .question) a l' :: c :: rest).length := by simp; omega
  have hnode : prefixNode .colon b l = .ok (.prefixed (.pre .colon) b l) := rfl
  rw [apply_pre hnode h']
  have : base + 3 ≤ (Expr.prefixed (.pre .colon) b l
      :: .prefixed (.pre .question) a l' :: c :: rest).length := by simp; omega
  simp only [foldTernary, if_pos this]

/-! ### Reading a tree -/

/-- An operand can be read next. -/
structure State.WantsOperand (s : State) : Prop where
  previous : ∀ p ∈ s.previous, neighbour p = .opening ∨ neighbour p = .wanting
  castClose : s.castClose = none
  base : s.base ≤ s.output.length

/-- From `s` on an expression has been read, and the state is now `s'`: applying the operators that
came with it, none of which is looser than `level`, leaves its tree `e` on the output of `s`. -/
structure Holds (s s' : State) (e : Expr) (level : Int) : Prop where
  frames : s'.frames = s.frames
  castClose : s'.castClose = none
  index : s'.index ≠ 0
  previous : ∃ p, s'.previous = some p ∧ neighbour p = .value
  reduces : ∃ ops, s'.pending = ops ++ s.pending ∧
    applyAll s.base ops s'.output = .ok (e :: s.output) ∧
    ∀ p ∈ ops, (p.action.precedence : Int) ≤ level ∧ p.action ≠ .pre .question

namespace Holds

variable {s s' : State} {e : Expr} {level : Int}

/-- What holds a tree holds it for a looser level. -/
theorem mono {level' : Int} (h : Holds s s' e level) (hl : level ≤ level') :
    Holds s s' e level' := by
  obtain ⟨ops, hpending, hall, hops⟩ := h.reduces
  exact { h with
    reduces := ⟨ops, hpending, hall, fun p hp => ⟨Int.le_trans (hops p hp).1 hl, (hops p hp).2⟩⟩ }

/-- A tree that is held lies above the same bracket. -/
theorem base (h : Holds s s' e level) : s'.base = s.base := by
  simp [State.base, h.frames]

/-- A delimited node or a leaf lies on the output at once. -/
theorem of_neg (h : Holds s s' e level) (hl : level < 0) :
    s'.pending = s.pending ∧ s'.output = e :: s.output := by
  obtain ⟨ops, hpending, hall, hops⟩ := h.reduces
  cases ops with
  | nil => exact ⟨hpending, Except.ok.inj hall⟩
  | cons p ops =>
    have := (hops p (by simp)).1
    omega

/-- An operator that comes after the tree and is loose enough applies exactly the operators that
came with it. -/
theorem push (h : Holds s s' e level) (action : Action) (l : Location)
    (hpre : action.isPrefixed = false)
    (hyield : ∀ p : Pending, (p.action.precedence : Int) ≤ level → p.action ≠ .pre .question →
      yields action p.action = true)
    (hstop : ∀ top ∈ s.pending.head?, yields action top.action = false) :
    Build.push s' action l
      = .ok { s' with output := e :: s.output, pending := ⟨action, l⟩ :: s.pending } := by
  obtain ⟨ops, hpending, hall, hops⟩ := h.reduces
  have happly : applyFaster s'.base action s'.pending s'.output
      = .ok (s.pending, e :: s.output) := by
    rw [h.base, hpending, applyFaster_append (fun p hp => hyield p (hops p hp).1 (hops p hp).2)
      (fun p hp hc => (hops p hp).2 hc.2) hall, applyFaster_stop hstop]
  simp only [Build.push, hpre, happly]
  rfl

/-- The operator under the tree takes it as its last operand. -/
theorem apply {s₀ : State} {p : Pending} {e' : Expr} {level' : Int} (h : Holds s s' e level)
    (hframes : s.frames = s₀.frames) (hpending : s.pending = p :: s₀.pending)
    (happly : Build.apply s₀.base p (e :: s.output) = .ok (e' :: s₀.output))
    (hl : level ≤ level') (hp : (p.action.precedence : Int) ≤ level')
    (hq : p.action ≠ .pre .question) : Holds s₀ s' e' level' := by
  obtain ⟨ops, hops_pending, hall, hops⟩ := h.reduces
  have hbase : s.base = s₀.base := by simp [State.base, hframes]
  refine
    { frames := h.frames.trans hframes
      castClose := h.castClose
      index := h.index
      previous := h.previous
      reduces := ⟨ops ++ [p], by rw [hops_pending, hpending]; simp, ?_, ?_⟩ }
  · rw [applyAll_append, ← hbase, hall]
    simp only [Except.bind, applyAll, hbase, happly]
    rfl
  · intro q hq'
    rcases List.mem_append.mp hq' with hq' | hq'
    · exact ⟨Int.le_trans (hops q hq').1 hl, (hops q hq').2⟩
    · obtain rfl := List.mem_singleton.mp hq'
      exact ⟨hp, hq⟩

end Holds

/-! ### Reading operators -/

/-- Where an operand is wanted, a symbol is a prefix. -/
theorem readsAsPrefix_of_wants {s : State} (h : s.WantsOperand) (a : Ambiguous) (l : Location)
    (next : Lexeme) : readsAsPrefix s a l (some next) = .ok true := by
  have hcast : s.afterCast = false := by simp [State.afterCast, h.castClose]
  cases hp : s.previous with
  | none => simp [readsAsPrefix, hp]
  | some p => rcases h.previous p hp with hn | hn <;> simp [readsAsPrefix, hp, hcast, hn]

/-- Behind a value, a symbol is an infix. -/
theorem readsAsPrefix_of_value {s : State} {p : Lexeme} (hp : s.previous = some p)
    (hn : neighbour p = .value) (hc : s.castClose = none) {a : Ambiguous}
    (ha : a.isStep = false) (l : Location) (next : Lexeme) :
    readsAsPrefix s a l (some next) = .ok false := by
  have hcast : s.afterCast = false := by simp [State.afterCast, hc]
  simp [readsAsPrefix, hp, hcast, hn, ha]

/-- A prefix operator is written as the symbol with two readings that it belongs to, or as
itself. -/
theorem generic_pre (op : PrefixOp) :
    (∃ a : Ambiguous, (Operator.pre op).generic = .unresolved a ∧ a.prefixReading = op) ∨
      (Operator.pre op).generic = .pre op := by
  cases op with
  | positive => exact .inl ⟨.plus, rfl, rfl⟩
  | negative => exact .inl ⟨.minus, rfl, rfl⟩
  | dereference => exact .inl ⟨.asterisk, rfl, rfl⟩
  | addressOf => exact .inl ⟨.ampersand, rfl, rfl⟩
  | increment => exact .inl ⟨.increment, rfl, rfl⟩
  | decrement => exact .inl ⟨.decrement, rfl, rfl⟩
  | globalScope => exact .inl ⟨.doubleColon, rfl, rfl⟩
  | _ => exact .inr rfl

/-- An infix operator is written as the symbol with two readings that it belongs to, or as
itself. -/
theorem generic_binary (op : BinaryOp) :
    (∃ a : Ambiguous, (Operator.binary op).generic = .unresolved a ∧ a.isStep = false ∧
      a.otherReading = .binary op) ∨ (Operator.binary op).generic = .binary op := by
  cases op with
  | scope => exact .inl ⟨.doubleColon, rfl, rfl, rfl⟩
  | mul => exact .inl ⟨.asterisk, rfl, rfl, rfl⟩
  | add => exact .inl ⟨.plus, rfl, rfl, rfl⟩
  | sub => exact .inl ⟨.minus, rfl, rfl, rfl⟩
  | bitAnd => exact .inl ⟨.ampersand, rfl, rfl, rfl⟩
  | _ => exact .inr rfl

/-- Where an operand is wanted, a symbol is read as the operator in front of it. -/
theorem settle_pre {s : State} (h : s.WantsOperand) (op : PrefixOp) (l : Location)
    (next : Lexeme) : settle s (Operator.pre op).generic l (some next) = .ok (.pre op) := by
  rcases generic_pre op with ⟨a, ha, hop⟩ | ha
  · rw [ha]
    simp [settle, readsAsPrefix_of_wants h, Except.map, Ambiguous.reading, hop]
  · rw [ha]
    rfl

/-- Behind a value, a symbol is read as the operator between two. -/
theorem Holds.settle_binary {s s' : State} {e : Expr} {level : Int} (h : Holds s s' e level)
    (op : BinaryOp) (l : Location) (next : Lexeme) :
    settle s' (Operator.binary op).generic l (some next) = .ok (.binary op) := by
  obtain ⟨p, hp, hn⟩ := h.previous
  rcases generic_binary op with ⟨a, ha, hstep, hop⟩ | ha
  · rw [ha]
    simp [settle, readsAsPrefix_of_value hp hn h.castClose hstep, Except.map, Ambiguous.reading,
      hop]
  · rw [ha]
    rfl

/-- The state after an operator that waits for the operand behind it. -/
def State.awaiting (s : State) (output : List Expr) (pending : List Pending) (op : Operator) :
    State :=
  { s with output, pending, index := s.index + 1, previous := some (.op op) }

/-- Behind an operator that waits an operand is wanted. -/
theorem State.wantsOperand_awaiting {s : State} {output : List Expr} {pending : List Pending}
    (op : Operator) (hop : neighbour (.op op) = .wanting) (hc : s.castClose = none)
    (hbase : s.base ≤ output.length) : (s.awaiting output pending op).WantsOperand where
  previous p hp := by
    obtain rfl : Lexeme.op op = p := by simpa [State.awaiting] using hp
    exact .inr hop
  castClose := hc
  base := hbase

/-- Where an operand is wanted, a prefix operator waits. -/
theorem step_pre {s : State} (h : s.WantsOperand) {op : PrefixOp}
    (hop : (Action.pre op).isPrefixed) (l : Location) (next : Lexeme) :
    step s ⟨.op (Operator.pre op).generic, l⟩ (some next)
      = .ok (s.awaiting s.output (⟨.pre op, l⟩ :: s.pending) (.pre op)) := by
  have hpush : push s (.pre op) l = .ok { s with pending := ⟨.pre op, l⟩ :: s.pending } :=
    if_pos hop
  exact step_op (settle_pre h op l next) hpush

end Build

end KernelTree
