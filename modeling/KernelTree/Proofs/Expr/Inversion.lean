import KernelTree.Proofs.Expr.Steps

/-!
# What the builder has done when it goes on

Each function of the builder that can fail is described by what it did where it did not: which nodes
it took from the output and what it put in their place. Properties of finished trees are carried
from token to token by these descriptions, and no proof has to open the functions again.
-/

namespace KernelTree.Build

section

variable {α β ε : Type}

/-- A row of two actions succeeds where both do. -/
theorem bind_ok {x : Except ε α} {k : α → Except ε β} {b : β} (h : x >>= k = .ok b) :
    ∃ a, x = .ok a ∧ k a = .ok b := by
  cases x with
  | error e => cases h
  | ok a => exact ⟨a, rfl, h⟩

/-- A row of two actions fails where one of them does. -/
theorem bind_error {x : Except ε α} {k : α → Except ε β} {e : ε} (h : x >>= k = .error e) :
    x = .error e ∨ ∃ a, x = .ok a ∧ k a = .error e := by
  cases x with
  | error e' =>
    obtain rfl := Except.error.inj h
    exact .inl rfl
  | ok a => exact .inr ⟨a, rfl, h⟩

end

variable {base : Nat} {p : Pending} {output output' rest : List Expr} {s s' : State}

/-! ### Operators -/

/-- An operand is the node on top of the output, above the bracket. -/
theorem popOperand_ok {l : Location} {e : Expr} (h : popOperand base l output = .ok (e, rest)) :
    output = e :: rest ∧ base ≤ rest.length := by
  cases output with
  | nil => cases h
  | cons e' rest' =>
    rw [popOperand] at h
    by_cases hlow : (e' :: rest').length ≤ base
    · rw [if_pos hlow] at h
      cases h
    · rw [if_neg hlow] at h
      obtain ⟨rfl, rfl⟩ : e' = e ∧ rest' = rest := by simpa using h
      rw [List.length_cons] at hlow
      exact ⟨rfl, by omega⟩

/-- Either nothing is folded, or a condition and two markers become a conditional. -/
theorem foldTernary_cases (base : Nat) (output : List Expr) :
    foldTernary base output = output ∨
      ∃ onFalse onTrue check l l' rest,
        output = .prefixed (.pre .colon) onFalse l :: .prefixed (.pre .question) onTrue l'
          :: check :: rest ∧ base ≤ rest.length ∧
        foldTernary base output = .ternary check onTrue onFalse check.location :: rest := by
  unfold foldTernary
  split
  case h_1 onFalse l onTrue l' check rest =>
    by_cases hroom : base + 3 ≤ (Expr.prefixed (.pre .colon) onFalse l
        :: .prefixed (.pre .question) onTrue l' :: check :: rest).length
    · rw [if_pos hroom]
      simp only [List.length_cons] at hroom
      exact .inr ⟨onFalse, onTrue, check, l, l', rest, rfl, by omega, rfl⟩
    · rw [if_neg hroom]
      exact .inl rfl
  · exact .inl rfl

/-- What an operator does to the output. -/
inductive Applies (base : Nat) : Pending → List Expr → List Expr → Prop
  | binary {op : BinaryOp} {l : Location} {a b : Expr} {rest : List Expr}
      (hbase : base ≤ rest.length) :
      Applies base ⟨.binary op, l⟩ (b :: a :: rest) (.mkBinary op a b :: rest)
  | postfixed {op : PostfixOp} {l : Location} {v : Expr} {rest : List Expr}
      (hbase : base ≤ rest.length) :
      Applies base ⟨.post op, l⟩ (v :: rest) (.mkPostfixed (.post op) v :: rest)
  | prefixed {op : PrefixOp} {l : Location} {v node : Expr} {rest : List Expr}
      (hbase : base ≤ rest.length) (hnode : prefixNode op v l = .ok node) :
      Applies base ⟨.pre op, l⟩ (v :: rest) (foldTernary base (node :: rest))
  | cast {t : Vartype} {l : Location} {v : Expr} {rest : List Expr}
      (hbase : base ≤ rest.length) :
      Applies base ⟨.cast t, l⟩ (v :: rest) (foldTernary base (.cast .paren t v l :: rest))

/-- What an action has taken from the output and left there. -/
theorem apply_ok (h : apply base p output = .ok output') : Applies base p output output' := by
  obtain ⟨action, l⟩ := p
  cases action with
  | binary op =>
    obtain ⟨⟨b, rest⟩, hb, hrest⟩ := bind_ok h
    obtain ⟨⟨a, rest'⟩, ha, hnode⟩ := bind_ok hrest
    obtain ⟨rfl, -⟩ := popOperand_ok hb
    obtain ⟨rfl, hbase⟩ := popOperand_ok ha
    obtain rfl := Except.ok.inj hnode
    exact .binary hbase
  | post op =>
    obtain ⟨⟨v, rest⟩, hv, hnode⟩ := bind_ok h
    obtain ⟨rfl, hbase⟩ := popOperand_ok hv
    obtain rfl := Except.ok.inj hnode
    exact .postfixed hbase
  | pre op =>
    obtain ⟨⟨v, rest⟩, hv, hrest⟩ := bind_ok h
    obtain ⟨node, hnode, hfold⟩ := bind_ok hrest
    obtain ⟨rfl, hbase⟩ := popOperand_ok hv
    obtain rfl := Except.ok.inj hfold
    exact .prefixed hbase hnode
  | cast t =>
    obtain ⟨⟨v, rest⟩, hv, hfold⟩ := bind_ok h
    obtain ⟨rfl, hbase⟩ := popOperand_ok hv
    obtain rfl := Except.ok.inj hfold
    exact .cast hbase

/-- Which prefix operators make a node, and which. -/
theorem prefixNode_ok {op : PrefixOp} {v node : Expr} {l : Location}
    (h : prefixNode op v l = .ok node) :
    (op = .sizeof ∧ node = .sizeof v l) ∨ (op = .throw ∧ node = .throw v l) ∨
      (op ∉ [PrefixOp.cast, .sizeof, .new, .delete, .throw] ∧
        node = .prefixed (.pre op) v l) := by
  cases op <;> cases h <;> simp

/-- The actions that wait are applied one after the other. -/
theorem applyAll_cons_ok {pending : List Pending}
    (h : applyAll base (p :: pending) output = .ok output') :
    ∃ middle, Applies base p output middle ∧ applyAll base pending middle = .ok output' := by
  obtain ⟨middle, hp, h⟩ := bind_ok h
  exact ⟨middle, apply_ok hp, h⟩

/-- The operators that give way are taken from the top and applied. -/
theorem applyFaster_ok {action : Action} {pending pending' : List Pending}
    (h : applyFaster base action pending output = .ok (pending', output')) :
    ∃ applied, pending = applied ++ pending' ∧ applyAll base applied output = .ok output' := by
  induction pending generalizing output with
  | nil =>
    obtain ⟨rfl, rfl⟩ : [] = pending' ∧ output = output' := by simpa [applyFaster] using h
    exact ⟨[], rfl, rfl⟩
  | cons top pending ih =>
    rw [applyFaster] at h
    by_cases hyield : yields action top.action = true
    · rw [if_pos hyield] at h
      obtain ⟨middle, htop, h⟩ := bind_ok h
      by_cases hstop : (action = .pre .colon && top.action = .pre .question) = true
      · rw [if_pos hstop] at h
        obtain ⟨rfl, rfl⟩ : pending = pending' ∧ middle = output' := by simpa using h
        exact ⟨[top], rfl, by rw [applyAll, htop]; rfl⟩
      · rw [if_neg hstop] at h
        obtain ⟨applied, rfl, hall⟩ := ih h
        exact ⟨top :: applied, rfl, by rw [applyAll, htop]; exact hall⟩
    · rw [if_neg hyield] at h
      obtain ⟨rfl, rfl⟩ : top :: pending = pending' ∧ output = output' := by simpa using h
      exact ⟨[], rfl, rfl⟩

/-- An operator goes on top of those that do not give way. -/
theorem push_ok {action : Action} {l : Location} (h : push s action l = .ok s') :
    ∃ applied pending output, s.pending = applied ++ pending ∧
      applyAll s.base applied s.output = .ok output ∧
      s' = { s with output, pending := ⟨action, l⟩ :: pending } := by
  rw [push] at h
  by_cases hpre : action.isPrefixed = true
  · rw [if_pos hpre] at h
    obtain rfl := Except.ok.inj h
    exact ⟨[], s.pending, s.output, rfl, rfl, rfl⟩
  · rw [if_neg hpre] at h
    obtain ⟨⟨pending, output⟩, hfaster, h⟩ := bind_ok h
    obtain ⟨applied, happlied, hall⟩ := applyFaster_ok hfaster
    obtain rfl := Except.ok.inj h
    exact ⟨applied, pending, output, happlied, hall, rfl⟩

/-! ### Brackets -/

/-- What stood between two brackets, and what is left of the output below it. -/
inductive Contains (frame : Frame) : List Expr → Expr → List Expr → Prop
  | nothing {output : List Expr} (h : output.length ≤ frame.base) :
      Contains frame output (.empty frame.location) output
  | value {v : Expr} {rest : List Expr} (h : rest.length = frame.base) :
      Contains frame (v :: rest) v rest

/-- What is in a bracket is one node, or nothing. -/
theorem content_ok {frame : Frame} {value : Expr}
    (h : content frame output = .ok (value, rest)) : Contains frame output value rest := by
  unfold content at h
  split at h
  case h_1 hcount =>
    obtain ⟨rfl, rfl⟩ : .empty frame.location = value ∧ _ = rest := by simpa using h
    exact .nothing (by omega)
  case h_2 v rest' hcount =>
    obtain ⟨rfl, rfl⟩ : v = value ∧ rest' = rest := by simpa using h
    rw [List.length_cons] at hcount
    exact .value (by omega)
  case h_3 => cases h

/-- What a bracket and the value before it become. -/
inductive Attaches (frame : Frame) (callee value : Expr) : List Expr → Prop
  | cast {t : Vartype} {arg : Expr} (hb : frame.bracket = .round)
      (ht : callee.vartype? = some t) (hargs : value.args = [arg]) :
      Attaches frame callee value [.cast .function t arg callee.location]
  | call (hb : frame.bracket = .round)
      (hargs : callee.vartype? = none ∨ value.args.length ≠ 1) :
      Attaches frame callee value [.call callee value.args callee.location]
  | subscript (hb : frame.bracket = .square) :
      Attaches frame callee value [.subscript callee value callee.location]
  | launch {blocks threads : Expr} (hb : frame.bracket = .launch)
      (hargs : value.args = [blocks, threads]) :
      Attaches frame callee value [.launch callee blocks threads callee.location]
  | tuple (hb : frame.bracket = .curly) :
      Attaches frame callee value [.tuple value.args frame.location, callee]

/-- What a bracket makes of the value in front of it. -/
theorem attach_ok {frame : Frame} {callee value : Expr} {nodes : List Expr}
    (h : attach frame callee value = .ok nodes) : Attaches frame callee value nodes := by
  unfold attach at h
  cases hb : frame.bracket with
  | round =>
    simp only [hb] at h
    split at h
    case h_1 t arg ht hargs =>
      obtain rfl := Except.ok.inj h
      exact .cast hb ht hargs
    -- Without a type in front, or with no or several arguments, the bracket is a call.
    case h_2 hother =>
      obtain rfl := Except.ok.inj h
      refine .call hb ?_
      cases ht : callee.vartype? with
      | none => exact .inl rfl
      | some t =>
        refine .inr fun hlength => ?_
        obtain ⟨arg, hargs⟩ := List.length_eq_one_iff.mp hlength
        exact hother t arg ht hargs
  | square =>
    simp only [hb] at h
    obtain rfl := Except.ok.inj h
    exact .subscript hb
  | curly =>
    simp only [hb] at h
    obtain rfl := Except.ok.inj h
    exact .tuple hb
  | launch =>
    simp only [hb] at h
    split at h
    case h_1 blocks threads hargs =>
      obtain rfl := Except.ok.inj h
      exact .launch hb hargs
    case h_2 => cases h
    case h_3 => cases h

/-- What a bracket that follows no value becomes. -/
inductive StandsAlone (s : State) (frame : Frame) (value : Expr) : State → Prop
  | parens (hb : frame.bracket = .round) (hne : ∀ l, value ≠ .empty l)
      (ht : value.vartype? = none ∨ afterSizeof s.pending = true) :
      StandsAlone s frame value { s with output := .parens value frame.location :: s.output }
  | cast {t : Vartype} (hb : frame.bracket = .round) (ht : value.vartype? = some t)
      (hs : afterSizeof s.pending = false) :
      StandsAlone s frame value { s with
        pending := ⟨.cast t, frame.location⟩ :: s.pending
        castClose := some s.index }
  | tuple (hb : frame.bracket = .curly) :
      StandsAlone s frame value
        { s with output := .tuple value.args frame.location :: s.output }

/-- What a bracket makes of itself if it takes no value. -/
theorem standAlone_ok {frame : Frame} {value : Expr} (h : standAlone s frame value = .ok s') :
    StandsAlone s frame value s' := by
  cases hb : frame.bracket with
  | round =>
    -- An empty group fails; a type is a cast unless `sizeof` waits for it.
    by_cases hne : ∃ l, value = .empty l
    · obtain ⟨l, rfl⟩ := hne
      rw [standAlone_empty hb] at h
      cases h
    · have hne : ∀ l, value ≠ .empty l := fun l hl => hne ⟨l, hl⟩
      cases ht : value.vartype? with
      | none =>
        rw [standAlone_parens hb hne ht] at h
        obtain rfl := Except.ok.inj h
        exact .parens hb hne (.inl ht)
      | some t =>
        rw [standAlone_type hb ht] at h
        by_cases hs : afterSizeof s.pending = true
        · rw [if_pos hs] at h
          obtain rfl := Except.ok.inj h
          exact .parens hb hne (.inr hs)
        · rw [if_neg hs] at h
          obtain rfl := Except.ok.inj h
          exact .cast hb ht (by simpa using hs)
  | curly =>
    rw [standAlone_tuple hb] at h
    obtain rfl := Except.ok.inj h
    exact .tuple hb
  | square =>
    rw [standAlone_error (.inl hb)] at h
    cases h
  | launch =>
    rw [standAlone_error (.inr hb)] at h
    cases h

theorem StandsAlone.index {frame : Frame} {value : Expr} (h : StandsAlone s frame value s') :
    s'.index = s.index := by
  cases h <;> rfl

/-- What the closing of a bracket does: the operators inside are applied, and the bracket goes to
the value before it or stands for itself. -/
inductive Closes (s : State) (b : Bracket) : State → Prop
  | attached {frame : Frame} {frames : List Frame} {output rest nodes : List Expr}
      {callee value : Expr} (hframes : s.frames = frame :: frames) (hb : b = frame.bracket)
      (hall : applyAll s.base s.pending s.output = .ok output)
      (hcontent : Contains frame output value (callee :: rest))
      (hfollows : frame.followsValue s.castClose = true)
      (hattach : Attaches frame callee value nodes) :
      Closes s b { s with output := nodes ++ rest, pending := frame.outer, frames }
  | standing {frame : Frame} {frames : List Frame} {output rest : List Expr} {value : Expr}
      {s' : State} (hframes : s.frames = frame :: frames) (hb : b = frame.bracket)
      (hall : applyAll s.base s.pending s.output = .ok output)
      (hcontent : Contains frame output value rest)
      (hfollows : rest = [] ∨ frame.followsValue s.castClose = false)
      (halone : StandsAlone { s with output := rest, pending := frame.outer, frames } frame value
        s') : Closes s b s'

/-- What a closing bracket leaves, with its counterpart open. -/
theorem close_ok {b : Bracket} {l : Location} (h : close s b l = .ok s') : Closes s b s' := by
  obtain ⟨output, hall, h⟩ := bind_ok h
  cases hframes : s.frames with
  | nil =>
    rw [hframes] at h
    cases h
  | cons frame frames =>
    rw [hframes] at h
    dsimp only at h
    by_cases hb : b ≠ frame.bracket
    · rw [if_pos hb] at h
      cases h
    · rw [if_neg hb] at h
      have hb : b = frame.bracket := Decidable.not_not.mp hb
      obtain ⟨⟨value, rest⟩, hcontent, h⟩ := bind_ok h
      have hcontent := content_ok hcontent
      cases hfollows : frame.followsValue s.castClose with
      | false =>
        rw [hfollows] at h
        refine .standing hframes hb hall hcontent (.inr hfollows) (standAlone_ok ?_)
        cases rest <;> exact h
      | true =>
        rw [hfollows] at h
        cases rest with
        | nil => exact .standing hframes hb hall hcontent (.inl rfl) (standAlone_ok h)
        | cons callee rest =>
          obtain ⟨nodes, hattach, h⟩ := bind_ok h
          obtain rfl := Except.ok.inj h
          exact .attached hframes hb hall hcontent hfollows (attach_ok hattach)

/-! ### Tokens -/

/-- What an operator with a settled reading does. -/
inductive ReadsOperator (s : State) (l : Location) : Operator → State → Prop
  | opening {b : Bracket} : ReadsOperator s l (.opening b) (openBracket s b l)
  | closing {b : Bracket} {s' : State} (h : Closes s b s') : ReadsOperator s l (.closing b) s'
  | action {op : Operator} {action : Action} {applied pending : List Pending}
      {output : List Expr} (hop : ∀ b, op ≠ .opening b ∧ op ≠ .closing b)
      (hcast : ∀ t, action ≠ .cast t) (hpending : s.pending = applied ++ pending)
      (hall : applyAll s.base applied s.output = .ok output) :
      ReadsOperator s l op { s with output, pending := ⟨action, l⟩ :: pending }

/-- What an operator does to the state, by its kind. -/
theorem readOperator_ok {op : Operator} {l : Location} (h : readOperator s op l = .ok s') :
    ReadsOperator s l op s' := by
  cases op with
  | opening b =>
    obtain rfl := Except.ok.inj h
    exact .opening
  | closing b => exact .closing (close_ok h)
  | unresolved a => cases h
  | _ =>
    obtain ⟨applied, pending, output, hpending, hall, rfl⟩ := push_ok h
    exact .action (by simp) (by simp) hpending hall

/-- A symbol is settled without touching brackets. -/
theorem settle_ok {op op' : Operator} {l : Location} {next : Option Lexeme}
    (h : settle s op l next = .ok op') :
    (op' = op ∧ ∀ a, op ≠ .unresolved a) ∨
      ∃ a isPrefixed, op = .unresolved a ∧ op' = a.reading isPrefixed := by
  cases op with
  | unresolved a =>
    cases hr : readsAsPrefix s a l next with
    | error e => simp [settle, hr, Except.map] at h
    | ok isPrefixed =>
      obtain rfl : a.reading isPrefixed = op' := by simpa [settle, hr, Except.map] using h
      exact .inr ⟨a, isPrefixed, rfl, rfl⟩
  | _ => exact .inl ⟨(Except.ok.inj h).symm, by simp⟩

/-- What a token does. -/
inductive Steps (s : State) (t : Token) (next : Option Lexeme) : State → Prop
  | atom {a : Atom} (ht : t.lexeme = .atom a) :
      Steps s t next { s with
        output := .atom a t.location :: s.output
        index := s.index + 1
        previous := some (.atom a) }
  | op {symbol op : Operator} {s' : State} (ht : t.lexeme = .op symbol)
      (hsettle : settle s symbol t.location next = .ok op)
      (hread : ReadsOperator s t.location op s') :
      Steps s t next { s' with index := s'.index + 1, previous := some (.op op) }

/-- What one token does to the state. -/
theorem step_ok {t : Token} {next : Option Lexeme} (h : step s t next = .ok s') :
    Steps s t next s' := by
  obtain ⟨lexeme, l⟩ := t
  cases lexeme with
  | atom a =>
    obtain rfl := Except.ok.inj h
    exact .atom rfl
  | op symbol =>
    obtain ⟨op, hsettle, h⟩ := bind_ok h
    obtain ⟨s₁, hread, h⟩ := bind_ok h
    obtain rfl := Except.ok.inj h
    exact .op rfl hsettle (readOperator_ok hread)

theorem run_cons_ok {t : Token} {ts : List Token} (h : run s (t :: ts) = .ok s') :
    ∃ middle, Steps s t (ts.head?.map Token.lexeme) middle ∧ run middle ts = .ok s' := by
  obtain ⟨middle, hstep, h⟩ := bind_ok h
  exact ⟨middle, step_ok hstep, h⟩

/-- Where the row ends well, no bracket is open and one node is left, or none. -/
theorem finish_ok {start : Location} {e : Expr} (h : finish s start = .ok e) :
    s.frames = [] ∧ ∃ output, applyAll s.base s.pending s.output = .ok output ∧
      ((foldTernary 0 output = [] ∧ e = .empty start) ∨
        (foldTernary 0 output = [e] ∧ isMarkerNode e = false)) := by
  cases hframes : s.frames with
  | cons frame frames =>
    rw [finish_cons start hframes] at h
    obtain ⟨output, -, h⟩ := bind_ok h
    cases h
  | nil =>
    rw [finish_nil start hframes] at h
    obtain ⟨output, hall, h⟩ := bind_ok h
    refine ⟨rfl, output, hall, ?_⟩
    revert h
    generalize foldTernary 0 output = nodes
    intro h
    rcases nodes with _ | ⟨e', _ | ⟨e'', nodes⟩⟩
    · exact .inl ⟨rfl, (Except.ok.inj h).symm⟩
    · rw [conclude] at h
      by_cases hmarker : isMarkerNode e' = true
      · rw [if_pos hmarker] at h
        cases h
      · rw [if_neg hmarker] at h
        obtain rfl := Except.ok.inj h
        exact .inr ⟨rfl, by simpa using hmarker⟩
    · cases h

/-- A tree is what a run from the beginning ends with. -/
theorem ofTokens_ok {ts : List Token} {e : Expr} (h : Expr.ofTokens ts = .ok e) :
    (ts = [] ∧ e = .empty .none) ∨
      ∃ s start, run .initial ts = .ok s ∧ finish s start = .ok e := by
  cases ts with
  | nil => exact .inl ⟨rfl, (Except.ok.inj h).symm⟩
  | cons t ts =>
    obtain ⟨s, hrun, h⟩ := bind_ok h
    exact .inr ⟨s, t.location, hrun, h⟩

end KernelTree.Build
