import KernelTree.Proofs.Expr.Carry
import KernelTree.Proofs.Expr.Weight

/-!
# Operands and operators take turns

The builder never asks whether operators stand next to their operands; it counts. What it counts is
made precise here. `Build.Role` is what a token is to the values around it, and `Build.Tally` reads
a row of roles and counts its *gaps*, where a value is due and does not come, and its *clashes*,
where a value begins right behind another. In a row that has a tree there are exactly as many gaps
as there are clashes and marks of conditionals that never met (`Expr.gaps_eq`).
-/

namespace KernelTree

namespace Build

/-! ### Roles -/

/-- What a token is to the values around it. -/
inductive Role
  /-- A leaf. -/
  | leaf
  /-- An operator in front of its operand. -/
  | before
  /-- An operator or a mark of a conditional between two values. -/
  | between
  /-- An operator behind its operand. -/
  | behind
  /-- The beginning of a bracket. -/
  | opening
  /-- The end of a bracket that takes the value in front of it: a call, a subscript or a launch. -/
  | taking
  /-- The end of a bracket that is a value of its own: a group or a list. -/
  | standing
  /-- The end of a cast. -/
  | casting
  deriving DecidableEq, Repr

/-- The role of the token that was read between two states. -/
def role (s s' : State) : Role :=
  match s'.previous with
  | some (.op (.pre op)) => if (Action.pre op).isMarker then .between else .before
  | some (.op (.post _)) => .behind
  | some (.op (.binary _)) => .between
  | some (.op (.opening _)) => .opening
  | some (.op (.closing b)) =>
    if s'.afterCast then .casting
    else if b ≠ .curly && s.frames.head?.any fun f => f.followsValue s.castClose && f.base ≠ 0
    then .taking
    else .standing
  | _ => .leaf

/-- The roles of a row of tokens, as far as it can be read. -/
def roles (s : State) : List Token → List Role
  | [] => []
  | t :: rest =>
    match step s t (rest.head?.map Token.lexeme) with
    | .ok s' => role s s' :: roles s' rest
    | .error _ => []

/-- What has been counted in a row so far. -/
structure Tally where
  /-- Whether a value ends here. -/
  ended : Bool
  /-- Whether the row or a bracket begins here. -/
  begins : Bool
  /-- For each open bracket, the innermost first, whether a value ended in front of it. -/
  outer : List Bool
  gaps : Nat
  clashes : Nat
  deriving DecidableEq, Repr

namespace Tally

/-- Nothing read yet. -/
def start : Tally := ⟨false, true, [], 0, 0⟩

/-- A gap if the row or a bracket ends here and a value is still due. -/
def due (t : Tally) : Nat := if t.ended || t.begins then 0 else 1

/-- Counts a token: what begins a value must not stand behind one, and what goes on from a value
must. A bracket is judged at its end, when it is known what it is. -/
def read (t : Tally) : Role → Tally
  | .leaf => { t with ended := true, begins := false, clashes := t.clashes + t.ended.toNat }
  | .before => { t with ended := false, begins := false, clashes := t.clashes + t.ended.toNat }
  | .between => { t with ended := false, begins := false, gaps := t.gaps + (!t.ended).toNat }
  | .behind => { t with ended := true, begins := false, gaps := t.gaps + (!t.ended).toNat }
  | .opening => { t with ended := false, begins := true, outer := t.ended :: t.outer }
  | .taking =>
    ⟨true, false, t.outer.tail, t.gaps + t.due + (!t.outer.headD false).toNat, t.clashes⟩
  | .standing =>
    ⟨true, false, t.outer.tail, t.gaps + t.due, t.clashes + (t.outer.headD false).toNat⟩
  | .casting =>
    ⟨false, false, t.outer.tail, t.gaps + t.due, t.clashes + (t.outer.headD false).toNat⟩

end Tally

end Build

namespace Expr

/-- What is counted in a row of tokens. -/
def tally (ts : List Token) : Build.Tally :=
  (Build.roles .initial ts).foldl Build.Tally.read .start

/-- The number of places of a row where a value is due and does not come. -/
def gaps (ts : List Token) : Nat := (tally ts).gaps + (tally ts).due

/-- The number of places of a row where a value begins right behind another. -/
def clashes (ts : List Token) : Nat := (tally ts).clashes

end Expr

namespace Build

open KernelTree.Expr

/-! ### The law -/

/-- Operators that make one value of two, and the marks, which do so in pairs. -/
def joins : Operator → Nat
  | .binary _ => 1
  | .pre .question => 1
  | .pre .colon => 1
  | _ => 0

/-- Marks of conditionals that are left alone. -/
def mark (e : Expr) : Nat := (isMarkerNode e).toNat

/-- Whether a value ends where the next token begins. -/
def State.ended (s : State) : Bool :=
  !s.afterCast && s.previous.any fun p => neighbour p = .postfixed || neighbour p = .value

/-- What is left on the output would be a single value, if values and operators had taken turns
since the beginning; every gap and every clash makes a difference of one. -/
structure Balanced (t : Tally) (s : State) : Prop where
  outer : t.outer.length = s.frames.length
  begins : t.begins = s.previous.all fun p => neighbour p = .opening
  ended : t.ended = s.ended
  casts : ∀ j ∈ s.castClose, j < s.index
  count : s.output.length + t.gaps = totals mark s.output + waiting joins s.pending +
    (s.frames.map fun f => waiting joins f.outer).sum + t.ended.toNat +
    (t.outer.map Bool.toNat).sum + t.clashes

variable {base : Nat} {p : Pending} {pending : List Pending} {output output' rest : List Expr}
  {s s' : State} {y : Tally}

theorem mark_eq_zero_of_bringsNone (e : Expr) (he : e.bringsNone = true) : mark e = 0 := by
  unfold Expr.bringsNone at he
  split at he
  case h_10 => cases he
  all_goals rfl

theorem balanced_initial : Balanced .start .initial where
  outer := rfl
  begins := rfl
  ended := rfl
  casts := nofun
  count := rfl

/-! ### Applying operators -/

theorem length_foldTernary (base : Nat) (output : List Expr) :
    (foldTernary base output).length + totals mark output
      = output.length + totals mark (foldTernary base output) := by
  rcases foldTernary_cases base output with h | ⟨onFalse, onTrue, check, l, l', rest, rfl, -, h⟩
  · rw [h]
  · rw [h]
    simp [total_eq (ternary ..), total_eq (prefixed ..), children, mark, isMarkerNode]
    omega

/-- A mark is put behind one value, and a prefix operator leaves as many as it found. -/
theorem mark_prefixNode {op : PrefixOp} {v node : Expr} {l : Location}
    (h : prefixNode op v l = .ok node) : node.total mark = joins (.pre op) + v.total mark := by
  rcases prefixNode_ok h with ⟨rfl, rfl⟩ | ⟨rfl, rfl⟩ | ⟨-, rfl⟩
  · simp [total_eq (Expr.sizeof ..), children, mark, isMarkerNode, joins]
  · simp [total_eq (Expr.throw ..), children, mark, isMarkerNode, joins]
  · cases op <;> simp [total_eq (Expr.prefixed ..), children, mark, isMarkerNode, joins]

/-- An operator that joins two values leaves one less, or a mark more. -/
theorem Applies.length (h : Applies base p output output') :
    output'.length + totals mark output + waiting joins [p]
      = output.length + totals mark output' := by
  cases h with
  | binary =>
    simp [mkBinary, total_eq (Expr.binary ..), children, mark, isMarkerNode, Action.operator?,
      joins]
    omega
  | postfixed =>
    simp [mkPostfixed, total_eq (Expr.postfixed ..), children, mark, isMarkerNode,
      Action.operator?, joins]
  | @prefixed op l v node rest _ hnode =>
    have hfold := length_foldTernary base (node :: rest)
    have hmark := mark_prefixNode hnode
    simp [Action.operator?] at hfold ⊢
    omega
  | @cast t l v rest =>
    have hfold := length_foldTernary base (.cast .paren t v l :: rest)
    simp [total_eq (Expr.cast ..), children, mark, isMarkerNode, Action.operator?] at hfold ⊢
    omega

theorem length_applyAll (h : applyAll base pending output = .ok output') :
    output'.length + totals mark output + waiting joins pending
      = output.length + totals mark output' := by
  induction pending generalizing output with
  | nil =>
    obtain rfl := Except.ok.inj h
    rfl
  | cons p pending ih =>
    obtain ⟨middle, hp, hall⟩ := applyAll_cons_ok h
    have hlength := hp.length
    have hrest := ih hall
    simp only [waiting_cons, waiting_nil] at hlength ⊢
    omega

/-! ### The end of a bracket -/

theorem Attaches.length {frame : Frame} {callee value : Expr} {nodes : List Expr}
    (h : Attaches frame callee value nodes) :
    nodes.length = if frame.bracket = .curly then 2 else 1 := by
  cases h <;> simp [*]

section

variable {frame : Frame} {frames : List Frame} {value : Expr}

/-- At the end of a bracket there is a value, be it due or not, unless the bracket begins there. -/
theorem Balanced.length_content (hy : Balanced y s) (hs : s.Orderly)
    (hframes : s.frames = frame :: frames)
    (hall : applyAll s.base s.pending s.output = .ok output)
    (hcontent : Contains frame output value rest) :
    output.length = rest.length + (y.due + y.ended.toNat) := by
  have hbase : s.base = frame.base := by simp [State.base, hframes]
  obtain ⟨p, hp⟩ : ∃ p, s.previous = some p :=
    Option.ne_none_iff_exists'.mp fun hnone => by simp [(hs.fresh hnone).1] at hframes
  by_cases hopening : neighbour p = .opening
  · obtain ⟨-, hpending, hlength⟩ := hs.idle p hp hopening
    have houtput : s.output = output := by simpa [hpending, applyAll] using hall
    have hbegins : y.begins = true := by simp [hy.begins, hp, hopening]
    have hended : y.ended = false := by simp [hy.ended, State.ended, hp, hopening]
    rw [houtput] at hlength
    cases hcontent with
    | nothing => simp [Tally.due, hbegins, hended]
    | value hrest =>
      rw [List.length_cons] at hlength
      omega
  · have hbegins : y.begins = false := by simp [hy.begins, hp, hopening]
    have hlt := (base_le_applyAll hall hs.height).2 (hs.busy p hp hopening)
    cases hcontent with
    | nothing hle => omega
    | value => cases hended : y.ended <;> simp [Tally.due, hbegins, hended]

/-- The count at the end of a bracket, when its operators are applied and its value is taken. -/
theorem Balanced.count_content (hy : Balanced y s) (hs : s.Orderly)
    (hframes : s.frames = frame :: frames)
    (hall : applyAll s.base s.pending s.output = .ok output)
    (hcontent : Contains frame output value rest) :
    rest.length + (y.gaps + y.due) = value.total mark + totals mark rest +
      (waiting joins frame.outer + (frames.map fun f => waiting joins f.outer).sum) +
      ((y.outer.headD false).toNat + (y.outer.tail.map Bool.toNat).sum) + y.clashes := by
  have hlength := hy.length_content hs hframes hall hcontent
  have hout := length_applyAll hall
  have hmarks := hcontent.totals mark_eq_zero_of_bringsNone
  have hcount := hy.count
  have houter : (y.outer.map Bool.toNat).sum
      = (y.outer.headD false).toNat + (y.outer.tail.map Bool.toNat).sum := by
    cases y.outer <;> simp
  simp only [hframes, List.map_cons, List.sum_cons] at hcount
  omega

/-- The role of a bracket shows at its end. -/
theorem role_closing {b : Bracket} (hprevious : s'.previous = some (.op (.closing b))) :
    role s s' =
      if s'.afterCast then .casting
      else if b ≠ .curly && s.frames.head?.any fun f => f.followsValue s.castClose && f.base ≠ 0
      then .taking
      else .standing := by
  simp [role, hprevious]

/-- A bracket that takes the value in front of it. An initializer leaves that value where it is. -/
theorem Attaches.balanced {callee : Expr} {nodes : List Expr}
    (h : Attaches frame callee value nodes) (hs : s.Orderly) (hy : Balanced y s)
    (hframes : s.frames = frame :: frames)
    (hall : applyAll s.base s.pending s.output = .ok output)
    (hcontent : Contains frame output value (callee :: rest))
    (hfollows : frame.followsValue s.castClose = true) (hs' : s' = { s with
      output := nodes ++ rest, pending := frame.outer, frames, index := s.index + 1,
      previous := some (.op (.closing frame.bracket)) }) : Balanced (y.read (role s s')) s' := by
  have hprevious : s'.previous = some (.op (.closing frame.bracket)) := by rw [hs']
  have hcast : s'.afterCast = false := by
    rw [hs']
    exact State.afterCast_succ rfl rfl hy.casts
  have hrest := hs.length_rest hframes hall hcontent
  -- An initializer leaves the value in front of it beside its own node, so it counts as a value of
  -- its own.
  have hrole : (role s s' = .taking ∧ nodes.length = 1) ∨
      (role s s' = .standing ∧ nodes.length = 2) := by
    have hne : frame.base ≠ 0 := by
      rw [List.length_cons] at hrest
      omega
    rw [role_closing hprevious, hcast, if_neg Bool.false_ne_true]
    by_cases hcurly : frame.bracket = .curly
    · exact .inr ⟨if_neg (by simp [hcurly]), h.length.trans (if_pos hcurly)⟩
    · exact .inl ⟨if_pos (by simp [hcurly, hframes, hfollows, hne]), h.length.trans (if_neg hcurly)⟩
  have houter : y.outer.tail.length = frames.length := by simp [hy.outer, hframes]
  have htaken : (!y.outer.headD false).toNat + (y.outer.headD false).toNat = 1 := by
    cases y.outer.headD false <;> rfl
  have hmarks := h.totals mark_eq_zero_of_bringsNone
  have hcount := hy.count_content hs hframes hall hcontent
  rw [List.length_cons, totals_cons] at hcount
  rcases hrole with ⟨hr, hlength⟩ | ⟨hr, hlength⟩
  all_goals
    rw [hr]
    exact
      { outer := by
          rw [hs']
          exact houter
        begins := by simp [Tally.read, hprevious, neighbour]
        ended := by simp [Tally.read, State.ended, hcast, hprevious, neighbour]
        casts := fun j hj => by
          rw [hs'] at hj ⊢
          exact Nat.lt_succ_of_lt (hy.casts j hj)
        count := by
          rw [hs']
          simp only [Tally.read, List.length_append, totals_append, Bool.toNat_true, hlength,
            hmarks]
          omega }

/-- A bracket that takes no value is a value itself, or a cast that waits for one. -/
theorem StandsAlone.balanced {s₁ : State} (hs : s.Orderly) (hy : Balanced y s)
    (hframes : s.frames = frame :: frames)
    (hall : applyAll s.base s.pending s.output = .ok output)
    (hcontent : Contains frame output value rest)
    (hfollows : rest = [] ∨ frame.followsValue s.castClose = false)
    (h : StandsAlone { s with output := rest, pending := frame.outer, frames } frame value s₁)
    (hs' : s' = { s₁ with
      index := s₁.index + 1, previous := some (.op (.closing frame.bracket)) }) :
    Balanced (y.read (role s s')) s' := by
  subst hs'
  have hcount := hy.count_content hs hframes hall hcontent
  have hmarks : Expr.totals mark s₁.output = Expr.totals mark rest + value.total mark :=
    h.totals mark_eq_zero_of_bringsNone
  have hrest := hs.length_rest hframes hall hcontent
  have hindex : s₁.index = s.index := h.index
  -- With no value below there is nothing to take, even where the token in front ended one.
  have hnotTaking : (frame.followsValue s.castClose && frame.base ≠ 0) = false := by
    rcases hfollows with rfl | hfollows
    · simp [← hrest]
    · simp [hfollows]
  obtain ⟨hframes', hcases⟩ := h.cases
  have houter : y.outer.tail.length = s₁.frames.length := by simp [hframes', hy.outer, hframes]
  rw [role_closing rfl]
  rcases hcases with ⟨node, houtput, -, hpending, hclose⟩ | ⟨houtput, hclose, -, t, hpending, -⟩
  · have hcast : State.afterCast { s₁ with
        index := s₁.index + 1, previous := some (.op (.closing frame.bracket)) } = false :=
      State.afterCast_succ (congrArg (· + 1) hindex) hclose hy.casts
    have hlength : s₁.output.length = rest.length + 1 := congrArg List.length houtput
    rw [hcast, if_neg Bool.false_ne_true, hframes, List.head?_cons, Option.any_some, hnotTaking,
      Bool.and_false, if_neg Bool.false_ne_true]
    exact
      { outer := houter
        begins := rfl
        ended := by simp [Tally.read, State.ended, hcast, neighbour]
        casts := fun j hj => hindex ▸ Nat.lt_succ_of_lt (hy.casts j (hclose ▸ hj))
        count := by
          simp only [Tally.read, Bool.toNat_true, hmarks, hlength, hpending, hframes']
          omega }
  · have hcast : State.afterCast { s₁ with
        index := s₁.index + 1, previous := some (.op (.closing frame.bracket)) } = true := by
      simp [State.afterCast, hclose, hindex]
    have hlength : s₁.output.length = rest.length := congrArg List.length houtput
    rw [hcast, if_pos rfl]
    exact
      { outer := houter
        begins := rfl
        ended := by simp [Tally.read, State.ended, hcast]
        casts := by simp [hclose, hindex]
        count := by
          simp only [Tally.read, Bool.toNat_false, hmarks, hlength, hpending, hframes',
            waiting_cons, Action.operator?, Option.map_none, Option.getD_none]
          omega }

end

/-! ### The whole row -/

/-- The role of an operator that is no bracket, how many values it joins and whether it ends one. -/
theorem role_action {op : Operator} {action : Action} (hop : action.operator? = some op)
    (hprevious : s'.previous = some (.op op)) :
    (role s s' = .before ∧ joins op = 0 ∧ neighbour (.op op) = .wanting) ∨
      (role s s' = .between ∧ joins op = 1 ∧ neighbour (.op op) = .wanting) ∨
      (role s s' = .behind ∧ joins op = 0 ∧ neighbour (.op op) = .postfixed) := by
  cases action with
  | pre op =>
    obtain rfl := Option.some.inj hop
    cases op <;> simp [role, hprevious, joins, neighbour, Action.isMarker]
  | post op =>
    obtain rfl := Option.some.inj hop
    simp [role, hprevious, joins, neighbour]
  | binary op =>
    obtain rfl := Option.some.inj hop
    simp [role, hprevious, joins, neighbour]
  | cast t => cases hop

theorem balanced_action {op : Operator} {action : Action} {applied : List Pending} {l : Location}
    (hy : Balanced y s) (hop : action.operator? = some op)
    (hpending : s.pending = applied ++ pending)
    (hall : applyAll s.base applied s.output = .ok output) (hs' : s' = { s with
      output, pending := ⟨action, l⟩ :: pending, index := s.index + 1,
      previous := some (.op op) }) : Balanced (y.read (role s s')) s' := by
  have hprevious : s'.previous = some (.op op) := by rw [hs']
  have hrole := role_action (s := s) hop hprevious
  have hcount := hy.count
  have hlength := length_applyAll hall
  have hended : (!y.ended).toNat + y.ended.toNat = 1 := by cases y.ended <;> rfl
  have hcast : s'.afterCast = false := by
    rw [hs']
    exact State.afterCast_succ rfl rfl hy.casts
  have hcasts : ∀ j ∈ s'.castClose, j < s'.index := fun j hj => by
    rw [hs'] at hj ⊢
    exact Nat.lt_succ_of_lt (hy.casts j hj)
  simp only [hpending, waiting_append] at hcount
  rcases hrole with ⟨hr, hj, hn⟩ | ⟨hr, hj, hn⟩ | ⟨hr, hj, hn⟩
  all_goals
    rw [hr]
    exact
      { outer := by
          rw [hs']
          exact hy.outer
        begins := by simp [Tally.read, hprevious, hn]
        ended := by simp [Tally.read, State.ended, hcast, hprevious, hn]
        casts := hcasts
        count := by
          rw [hs']
          simp [Tally.read, hop, hj]
          omega }

/-- A token keeps the balance. -/
theorem balanced_step {t : Token} {next : Option Lexeme} (h : step s t next = .ok s')
    (hs : s.Orderly) (hy : Balanced y s) : Balanced (y.read (role s s')) s' := by
  cases step_ok h with
  | atom =>
    have hcount := hy.count
    have hcast (output pending frames previous) :
        State.afterCast ⟨output, pending, frames, s.index + 1, previous, s.castClose⟩ = false :=
      State.afterCast_succ rfl rfl hy.casts
    exact
      { outer := hy.outer
        begins := rfl
        ended := by simp [role, Tally.read, State.ended, hcast, neighbour]
        casts := fun j hj => Nat.lt_succ_of_lt (hy.casts j hj)
        count := by
          simp [role, Tally.read, total_eq (Expr.atom ..), children, mark, isMarkerNode]
          omega }
  | @op symbol op s' _ _ hread =>
    cases hread with
    | opening =>
      have hcount := hy.count
      exact
        { outer := congrArg (· + 1) hy.outer
          begins := rfl
          ended := by simp [role, Tally.read, State.ended, neighbour]
          casts := fun j hj => Nat.lt_succ_of_lt (hy.casts j hj)
          count := by
            simp [role, Tally.read, openBracket]
            omega }
    | closing hclose =>
      cases hclose with
      | attached hframes hb hall hcontent hfollows hattach =>
        exact hattach.balanced hs hy hframes hall hcontent hfollows (by rw [hb])
      | standing hframes hb hall hcontent hfollows halone =>
        exact halone.balanced hs hy hframes hall hcontent hfollows (by rw [hb])
    | action hop _ hpending hall =>
      obtain ⟨p, pending, hp, hop⟩ := step_top h rfl hop
      obtain ⟨rfl, rfl⟩ := List.cons.inj hp
      exact balanced_action hy hop hpending hall rfl

theorem roles_cons {t : Token} {ts : List Token}
    (h : step s t (ts.head?.map Token.lexeme) = .ok s') :
    roles s (t :: ts) = role s s' :: roles s' ts := by
  simp only [roles, h]

theorem balanced_run {ts : List Token} (h : run s ts = .ok s') (hs : s.Orderly)
    (hy : Balanced y s) : Balanced ((roles s ts).foldl Tally.read y) s' := by
  induction ts generalizing s y with
  | nil =>
    obtain rfl := Except.ok.inj h
    exact hy
  | cons t ts ih =>
    obtain ⟨middle, hstep, hrun⟩ := bind_ok h
    rw [roles_cons hstep, List.foldl_cons]
    exact ih hrun ((step_ok hstep).orderly hs) (balanced_step hstep hs hy)

end Build

namespace Expr

open Build

/-- Adding up ones is counting. -/
theorem sum_map_toNat {α : Type} (p : α → Bool) (as : List α) :
    (as.map fun a => (p a).toNat).sum = as.countP p := by
  induction as with
  | nil => rfl
  | cons a as ih =>
    rw [List.map_cons, List.sum_cons, ih, List.countP_cons, Nat.add_comm]
    cases p a <;> rfl

theorem total_mark (e : Expr) : e.total mark = e.nodes.countP isMarkerNode :=
  sum_map_toNat isMarkerNode e.nodes

/-- What is known at the end of a row that has a tree. -/
theorem balanced_ofTokens {ts : List Token} {e : Expr} (h : ofTokens ts = .ok e) (hne : ts ≠ []) :
    ∃ s, run .initial ts = .ok s ∧ (tally ts).begins = false ∧ (tally ts).ended = s.ended ∧
      1 + (tally ts).gaps = e.total mark + (tally ts).ended.toNat + (tally ts).clashes := by
  obtain ⟨s, hrun, hs, hframes, hall, -⟩ := ofTokens_ne_nil h hne
  have hy : Balanced (tally ts) s := balanced_run hrun orderly_initial balanced_initial
  refine ⟨s, hrun, ?_, hy.ended, ?_⟩
  · obtain ⟨p, hp⟩ : ∃ p, s.previous = some p :=
      Option.ne_none_iff_exists'.mp (previous_ne_none_of_run hrun (.inl hne))
    have hopening : neighbour p ≠ .opening := fun hn => (hs.idle p hp hn).1 hframes
    simp [hy.begins, hp, hopening]
  · have hcount := hy.count
    have hlength := length_applyAll hall
    have houter : (tally ts).outer = [] := by simpa [hframes] using hy.outer
    simp [hframes, houter] at hcount hlength
    omega

/-- **Gaps, clashes and lonely marks**: in a row that has a tree, what is missing is made up by what
is there twice and by marks that never met. -/
theorem gaps_eq {ts : List Token} {e : Expr} (h : ofTokens ts = .ok e) :
    gaps ts = clashes ts + e.nodes.countP isMarkerNode := by
  by_cases hne : ts = []
  · subst hne
    obtain rfl : empty .none = e := Except.ok.inj h
    rw [nodes_eq]
    rfl
  · obtain ⟨s, -, hbegins, -, hcount⟩ := balanced_ofTokens h hne
    rw [← total_mark, gaps, clashes, Tally.due, hbegins]
    cases hended : (tally ts).ended <;> simp [hended] at hcount ⊢ <;> omega

end Expr

end KernelTree
