import KernelTree.Proofs.Expr.Inversion

/-!
# Brackets pair up

A row of tokens whose brackets do not pair up has no tree, and where the builder says so it points
at the right bracket (`Expr.ofTokens_brackets`). What pairs up is said by a grammar, `Nested`, and
`Opens` says which brackets are open behind a row. The frames of the builder are these brackets at
every moment (`Build.opens_run`), whatever happens to operators and pending casts.
-/

namespace KernelTree

/-- Whether a token opens or closes a bracket. -/
def Token.isBracket (t : Token) : Bool :=
  match t.lexeme with
  | .op (.opening _) => true
  | .op (.closing _) => true
  | _ => false

/-- Every bracket is closed by one of its own kind, and pairs do not cross. -/
inductive Nested : List Token → Prop
  | nil : Nested []
  | other {t : Token} {ts : List Token} (ht : t.isBracket = false) (h : Nested ts) :
      Nested (t :: ts)
  | pair {b : Bracket} {l l' : Location} {inner rest : List Token} (hinner : Nested inner)
      (hrest : Nested rest) :
      Nested (⟨.op (.opening b), l⟩ :: (inner ++ ⟨.op (.closing b), l'⟩ :: rest))

/-- The brackets that are open behind a row of tokens, the innermost first. All others pair up. -/
inductive Opens : List Token → List Token → Prop
  | nested {ts : List Token} (h : Nested ts) : Opens ts []
  | bracket {b : Bracket} {l : Location} {before inner stack : List Token}
      (hbefore : Opens before stack) (hinner : Nested inner) :
      Opens (before ++ ⟨.op (.opening b), l⟩ :: inner) (⟨.op (.opening b), l⟩ :: stack)

/-- The bracket that a mismatch is blamed on, as it is described by which half is missing, how that
would be written, and the place. A closing bracket is to blame if no bracket is open before it, and
an opening one if it is the innermost open bracket before the end or a closing bracket of another
kind. -/
inductive Blamed (ts : List Token) : Side → String → Location → Prop
  | closing {b : Bracket} {l : Location} {before after : List Token}
      (hts : ts = before ++ ⟨.op (.closing b), l⟩ :: after) (hbefore : Opens before []) :
      Blamed ts .opening (Operator.closing b).counterpart l
  | opening {b : Bracket} {l : Location} {before after stack : List Token}
      (hts : ts = before ++ after) (hbefore : Opens before (⟨.op (.opening b), l⟩ :: stack))
      (hafter : ∀ t ∈ after.head?, ∃ c, t.lexeme = .op (.closing c) ∧ c ≠ b) :
      Blamed ts .closing (Operator.opening b).counterpart l

/-! ### Rows of brackets -/

/-- Two nested rows one after the other are nested. -/
theorem Nested.append {xs ys : List Token} (hx : Nested xs) (hy : Nested ys) :
    Nested (xs ++ ys) := by
  induction hx with
  | nil => exact hy
  | other ht _ ih => exact .other ht ih
  | pair hinner _ _ ih =>
    rw [List.cons_append, List.append_assoc, List.cons_append]
    exact .pair hinner ih

namespace Opens

variable {ts xs stack : List Token}

/-- A row in which nothing is left open is nested. -/
theorem nested_of_nil (h : Opens ts []) : Nested ts := by
  cases h with
  | nested h => exact h

/-- What pairs up within itself opens nothing. -/
theorem append (h : Opens ts stack) (hx : Nested xs) : Opens (ts ++ xs) stack := by
  rcases h with hnested | ⟨hbefore, hinner⟩
  · exact .nested (hnested.append hx)
  · rw [List.append_assoc, List.cons_append]
    exact .bracket hbefore (hinner.append hx)

/-- What is no bracket leaves the open ones open. -/
theorem snoc_other {t : Token} (h : Opens ts stack) (ht : t.isBracket = false) :
    Opens (ts ++ [t]) stack := h.append (.other ht .nil)

/-- A bracket that opens is open. -/
theorem snoc_opening (h : Opens ts stack) (b : Bracket) (l : Location) :
    Opens (ts ++ [⟨.op (.opening b), l⟩]) (⟨.op (.opening b), l⟩ :: stack) := .bracket h .nil

/-- A bracket of the same kind closes the last one that is open. -/
theorem snoc_closing {b : Bracket} {l : Location}
    (h : Opens ts (⟨.op (.opening b), l⟩ :: stack)) (l' : Location) :
    Opens (ts ++ [⟨.op (.closing b), l'⟩]) stack := by
  rcases h with _ | ⟨hbefore, hinner⟩
  rw [List.append_assoc, List.cons_append]
  exact hbefore.append (.pair hinner .nil)

end Opens

/-! ### Rows that do not pair up -/

/-- What a token does to the kinds of brackets that are open; none if it closes no such bracket. -/
def Token.nest (stack : List Bracket) (t : Token) : Option (List Bracket) :=
  match t.lexeme, stack with
  | .op (.opening b), stack => some (b :: stack)
  | .op (.closing _), [] => none
  | .op (.closing b), c :: stack => if b = c then some stack else none
  | _, stack => some stack

/-- What is no bracket leaves the kinds of the open ones. -/
theorem Token.nest_other {t : Token} (ht : t.isBracket = false) (stack : List Bracket) :
    t.nest stack = some stack := by
  obtain ⟨lexeme, l⟩ := t
  rcases lexeme with a | (_ | _ | _ | b | b | _)
  case op.opening => cases ht
  case op.closing => cases ht
  all_goals rfl

/-- What pairs up leaves the open brackets as they are. -/
theorem Nested.foldlM_nest {ts : List Token} (h : Nested ts) (stack : List Bracket) :
    ts.foldlM Token.nest stack = some stack := by
  induction h generalizing stack with
  | nil => rfl
  | other ht _ ih =>
    rw [List.foldlM_cons, Token.nest_other ht]
    exact ih stack
  | @pair b l l' inner rest _ _ ihinner ihrest =>
    simp [List.foldlM_cons, List.foldlM_append, Token.nest, ihinner, ihrest]

/-- Counting brackets along a row gives the kinds of those that are left open. -/
theorem Opens.foldlM_nest {ts stack : List Token} (h : Opens ts stack) :
    ∃ kinds : List Bracket, ts.foldlM Token.nest [] = some kinds ∧
      stack.map Token.lexeme = kinds.map fun b => .op (.opening b) := by
  induction h with
  | nested h => exact ⟨[], h.foldlM_nest [], rfl⟩
  | @bracket b l before inner stack _ hinner ih =>
    obtain ⟨kinds, hkinds, hstack⟩ := ih
    refine ⟨b :: kinds, ?_, by simp [hstack]⟩
    simp [List.foldlM_cons, List.foldlM_append, hkinds, Token.nest, hinner.foldlM_nest]

/-- Where a bracket is to blame, the row does not pair up. -/
theorem Blamed.not_nested {ts : List Token} {side : Side} {expected : String} {l : Location}
    (h : Blamed ts side expected l) : ¬ Nested ts := by
  intro hnested
  have hts := hnested.foldlM_nest []
  rcases h with ⟨rfl, hbefore⟩ | @⟨b, _, before, after, stack, rfl, hbefore, hafter⟩
  · obtain ⟨kinds, hkinds, hstack⟩ := hbefore.foldlM_nest
    obtain rfl : kinds = [] := by simpa using hstack.symm
    simp [List.foldlM_cons, List.foldlM_append, hkinds, Token.nest] at hts
  · obtain ⟨kinds, hkinds, hstack⟩ := hbefore.foldlM_nest
    rcases kinds with _ | ⟨b', kinds⟩
    · simp at hstack
    · obtain ⟨rfl, -⟩ : b = b' ∧ _ := by simpa using hstack
      rcases after with _ | ⟨t, after⟩
      · simp [hkinds] at hts
      · obtain ⟨c, hc, hne⟩ := hafter t rfl
        simp [List.foldlM_cons, List.foldlM_append, hkinds, Token.nest, hc, hne] at hts

namespace Build

/-! ### Frames are the open brackets -/

/-- The token that opened a frame. -/
def Frame.opener (frame : Frame) : Token := ⟨.op (.opening frame.bracket), frame.location⟩

variable {s s' : State} {read : List Token}

/-- Closing a bracket takes off the last frame, which is of its kind. -/
theorem frames_closes {b : Bracket} (h : Closes s b s') :
    ∃ frame, frame.bracket = b ∧ s.frames = frame :: s'.frames := by
  rcases h with ⟨hframes, hb⟩ | ⟨hframes, hb, -, -, -, halone⟩
  · exact ⟨_, hb.symm, hframes⟩
  · refine ⟨_, hb.symm, ?_⟩
    rcases halone with _ | _ | _ <;> exact hframes

/-- A symbol with two readings is never read as a bracket. -/
theorem reading_ne_bracket (a : Ambiguous) (isPrefixed : Bool) (b : Bracket) :
    a.reading isPrefixed ≠ .opening b ∧ a.reading isPrefixed ≠ .closing b := by
  cases a <;> cases isPrefixed <;> simp [Ambiguous.reading, Ambiguous.otherReading]

/-- No reading of a symbol is a bracket. -/
theorem isBracket_settle {symbol op : Operator} {l : Location} {next : Option Lexeme}
    (h : settle s symbol l next = .ok op) :
    (⟨.op symbol, l⟩ : Token).isBracket = (⟨.op op, l⟩ : Token).isBracket ∧
      ∀ b, (op = .opening b → symbol = .opening b) ∧ (op = .closing b → symbol = .closing b) := by
  rcases settle_ok h with ⟨rfl, -⟩ | ⟨a, isPrefixed, rfl, rfl⟩
  · exact ⟨rfl, fun b => ⟨id, id⟩⟩
  · refine ⟨?_, fun b => ?_⟩
    · cases a <;> cases isPrefixed <;> rfl
    · obtain ⟨hopening, hclosing⟩ := reading_ne_bracket a isPrefixed b
      exact ⟨fun h => absurd h hopening, fun h => absurd h hclosing⟩

/-- A step keeps the frames in line with the brackets that are open. -/
theorem opens_step {t : Token} {next : Option Lexeme} (h : Steps s t next s')
    (hopens : Opens read (s.frames.map Frame.opener)) :
    Opens (read ++ [t]) (s'.frames.map Frame.opener) := by
  obtain ⟨lexeme, l⟩ := t
  rcases h with ht | @⟨symbol, op, s', ht, hsettle, hread⟩
  · obtain rfl := ht
    exact hopens.snoc_other rfl
  · obtain rfl := ht
    obtain ⟨hbracket, hkind⟩ := isBracket_settle hsettle
    rcases hread with @b | @⟨b, _, hclose⟩ | ⟨hop, -, -, -⟩
    · obtain rfl := (hkind b).1 rfl
      exact hopens.snoc_opening b l
    · obtain rfl := (hkind b).2 rfl
      obtain ⟨frame, rfl, hframes⟩ := frames_closes hclose
      rw [hframes] at hopens
      exact hopens.snoc_closing l
    · refine hopens.snoc_other (hbracket.trans ?_)
      cases op with
      | opening b => exact absurd rfl (hop b).1
      | closing b => exact absurd rfl (hop b).2
      | _ => rfl

/-- At every moment the frames are the brackets that are open behind the tokens read. -/
theorem opens_run {ts : List Token} (h : run s ts = .ok s')
    (hopens : Opens read (s.frames.map Frame.opener)) :
    Opens (read ++ ts) (s'.frames.map Frame.opener) := by
  induction ts generalizing s read with
  | nil =>
    obtain rfl := Except.ok.inj h
    simpa using hopens
  | cons t ts ih =>
    obtain ⟨middle, hstep, hrun⟩ := run_cons_ok h
    simpa using ih hrun (opens_step hstep hopens)

/-! ### Who reports a mismatch -/

/-- A result that blames no bracket, whatever else may be wrong. -/
def BlamesNone {α : Type} (x : Except BuildError α) : Prop :=
  ∀ side expected l, x ≠ .error ⟨.mismatchedPair side expected, l⟩

/-- What succeeds blames no bracket. -/
theorem blamesNone_ok {α : Type} (a : α) : BlamesNone (.ok a) :=
  nofun

/-- Two steps in a row blame no bracket if neither does. -/
theorem BlamesNone.bind {α β : Type} {x : Except BuildError α} {k : α → Except BuildError β}
    (hx : BlamesNone x) (hk : ∀ a, BlamesNone (k a)) : BlamesNone (x >>= k) := by
  cases x with
  | error e =>
    intro side expected l h
    exact hx side expected l (by cases h; rfl)
  | ok a => exact hk a

/-- If the first of two actions blames no bracket, the second does. -/
theorem BlamesNone.of_bind {α β : Type} {x : Except BuildError α} {k : α → Except BuildError β}
    {side : Side} {expected : String} {l : Location} (hx : BlamesNone x)
    (h : x >>= k = .error ⟨.mismatchedPair side expected, l⟩) :
    ∃ a, x = .ok a ∧ k a = .error ⟨.mismatchedPair side expected, l⟩ :=
  (bind_error h).resolve_left (hx side expected l)

/-- A missing operand blames no bracket. -/
theorem blamesNone_popOperand (base : Nat) (l : Location) (output : List Expr) :
    BlamesNone (popOperand base l output) := by
  unfold popOperand
  split
  · nofun
  · split <;> nofun

theorem blamesNone_prefixNode (op : PrefixOp) (value : Expr) (l : Location) :
    BlamesNone (prefixNode op value l) := by
  cases op <;> simp [BlamesNone, prefixNode]

/-- Applying an operator blames no bracket. -/
theorem blamesNone_apply (base : Nat) (p : Pending) (output : List Expr) :
    BlamesNone (apply base p output) := by
  obtain ⟨action, l⟩ := p
  have hpop := blamesNone_popOperand base l
  cases action with
  | binary op => exact (hpop _).bind fun _ => (hpop _).bind fun _ => blamesNone_ok _
  | post op => exact (hpop _).bind fun _ => blamesNone_ok _
  | pre op =>
    exact (hpop _).bind fun _ => (blamesNone_prefixNode op _ l).bind fun _ => blamesNone_ok _
  | cast t => exact (hpop _).bind fun _ => blamesNone_ok _

theorem blamesNone_applyAll (base : Nat) (pending : List Pending) (output : List Expr) :
    BlamesNone (applyAll base pending output) := by
  induction pending generalizing output with
  | nil => exact blamesNone_ok _
  | cons p pending ih => exact (blamesNone_apply base p output).bind ih

/-- Applying what binds more tightly blames no bracket. -/
theorem blamesNone_applyFaster (base : Nat) (action : Action) (pending : List Pending)
    (output : List Expr) : BlamesNone (applyFaster base action pending output) := by
  induction pending generalizing output with
  | nil => exact blamesNone_ok _
  | cons p pending ih =>
    rw [applyFaster]
    split
    · refine (blamesNone_apply base p output).bind fun middle => ?_
      split
      · exact blamesNone_ok _
      · exact ih middle
    · exact blamesNone_ok _

/-- An operator that waits blames no bracket. -/
theorem blamesNone_push (s : State) (action : Action) (l : Location) :
    BlamesNone (push s action l) := by
  unfold push
  split
  · exact blamesNone_ok _
  · exact (blamesNone_applyFaster s.base action s.pending s.output).bind fun _ => blamesNone_ok _

/-- What stands in a bracket blames none. -/
theorem blamesNone_content (frame : Frame) (output : List Expr) :
    BlamesNone (content frame output) := by
  unfold content
  split <;> nofun

/-- Attaching a bracket to a value blames none. -/
theorem blamesNone_attach (frame : Frame) (callee value : Expr) :
    BlamesNone (attach frame callee value) := by
  unfold attach
  dsimp only
  repeat' split
  all_goals nofun

/-- A bracket by itself blames none. -/
theorem blamesNone_standAlone (s : State) (frame : Frame) (value : Expr) :
    BlamesNone (standAlone s frame value) := by
  unfold standAlone
  repeat' split
  all_goals nofun

theorem blamesNone_readsAsPrefix (s : State) (a : Ambiguous) (l : Location)
    (next : Option Lexeme) : BlamesNone (readsAsPrefix s a l next) := by
  unfold readsAsPrefix
  repeat' split
  all_goals nofun

/-- Settling a reading blames no bracket. -/
theorem blamesNone_settle (s : State) (op : Operator) (l : Location) (next : Option Lexeme) :
    BlamesNone (settle s op l next) := by
  cases op with
  | unresolved a =>
    have hreads := blamesNone_readsAsPrefix s a l next
    rw [settle]
    cases h : readsAsPrefix s a l next with
    | error e =>
      intro side expected l' heq
      obtain rfl := Except.error.inj heq
      exact hreads side expected l' h
    | ok isPrefixed => exact blamesNone_ok _
  | _ => exact blamesNone_ok _

variable {side : Side} {expected : String} {l : Location}

/-- A closing bracket is blamed if no bracket is open, and else the innermost open one if that is
of another kind. -/
theorem close_mismatch {b : Bracket} {l' : Location}
    (h : close s b l' = .error ⟨.mismatchedPair side expected, l⟩) :
    (s.frames = [] ∧ side = .opening ∧ expected = b.openSymbol ∧ l = l') ∨
      ∃ frame frames, s.frames = frame :: frames ∧ b ≠ frame.bracket ∧ side = .closing ∧
        expected = frame.bracket.closeSymbol ∧ l = frame.location := by
  obtain ⟨output, -, hframe⟩ := (blamesNone_applyAll _ _ _).of_bind h
  cases hframes : s.frames with
  | nil =>
    rw [hframes] at hframe
    obtain ⟨⟨rfl, rfl⟩, rfl⟩ : (Side.opening = side ∧ b.openSymbol = expected) ∧ l' = l := by
      simpa using hframe
    exact .inl ⟨rfl, rfl, rfl, rfl⟩
  | cons frame frames =>
    rw [hframes] at hframe
    dsimp only at hframe
    by_cases hb : b ≠ frame.bracket
    · rw [if_pos hb] at hframe
      obtain ⟨⟨rfl, rfl⟩, rfl⟩ : (Side.closing = side ∧ frame.bracket.closeSymbol = expected) ∧
          frame.location = l := by simpa using hframe
      exact .inr ⟨frame, frames, rfl, hb, rfl, rfl, rfl⟩
    · rw [if_neg hb] at hframe
      -- Whatever fails from here on is no mismatch: the kinds of the brackets agree.
      obtain ⟨⟨value, rest⟩, -, hvalue⟩ := (blamesNone_content _ _).of_bind hframe
      rcases rest with _ | ⟨callee, rest⟩
      · exact absurd hvalue (blamesNone_standAlone _ _ _ side expected l)
      · cases hfollows : frame.followsValue s.castClose with
        | false =>
          rw [hfollows] at hvalue
          exact absurd hvalue (blamesNone_standAlone _ _ _ side expected l)
        | true =>
          rw [hfollows] at hvalue
          obtain ⟨nodes, -, hnodes⟩ := (blamesNone_attach _ _ _).of_bind hvalue
          cases hnodes

/-- Only a closing bracket finds a mismatch. -/
theorem step_mismatch {t : Token} {next : Option Lexeme}
    (h : step s t next = .error ⟨.mismatchedPair side expected, l⟩) :
    ∃ b, t.lexeme = .op (.closing b) ∧
      close s b t.location = .error ⟨.mismatchedPair side expected, l⟩ := by
  obtain ⟨lexeme, l'⟩ := t
  rcases lexeme with a | symbol
  · cases h
  · obtain ⟨op, hsettle, hread⟩ := (blamesNone_settle _ _ _ _).of_bind h
    rcases bind_error hread with hread | ⟨_, -, hread⟩
    · cases op with
      | closing b =>
        obtain rfl := ((isBracket_settle hsettle).2 b).2 rfl
        exact ⟨b, rfl, hread⟩
      | opening b => cases hread
      | unresolved a => cases hread
      | _ => exact absurd hread (blamesNone_push _ _ _ side expected l)
    · cases hread

/-- A mismatch that is found on the way is blamed on the right bracket. -/
theorem blamed_run {ts : List Token} (h : run s ts = .error ⟨.mismatchedPair side expected, l⟩)
    (hopens : Opens read (s.frames.map Frame.opener)) :
    Blamed (read ++ ts) side expected l := by
  induction ts generalizing s read with
  | nil => cases h
  | cons t ts ih =>
    rcases bind_error h with hstep | ⟨middle, hstep, hrun⟩
    · -- The mismatch is found here, so the tokens read so far show what is open.
      obtain ⟨b, ht, hclose⟩ := step_mismatch hstep
      obtain ⟨lexeme, l'⟩ := t
      obtain rfl := ht
      rcases close_mismatch hclose with ⟨hframes, rfl, rfl, rfl⟩ |
        ⟨frame, frames, hframes, hne, rfl, rfl, rfl⟩
      · rw [hframes] at hopens
        exact .closing rfl hopens
      · rw [hframes] at hopens
        refine .opening rfl hopens ?_
        rintro t ht
        obtain rfl : ⟨.op (.closing b), l'⟩ = t := by simpa using ht
        exact ⟨b, rfl, hne⟩
    · have hrest := ih hrun (opens_step (step_ok hstep) hopens)
      rwa [List.append_assoc] at hrest

/-- At the end the innermost open bracket is blamed. -/
theorem blamed_finish {start : Location}
    (h : finish s start = .error ⟨.mismatchedPair side expected, l⟩)
    (hopens : Opens read (s.frames.map Frame.opener)) : Blamed read side expected l := by
  cases hframes : s.frames with
  | nil =>
    rw [finish_nil start hframes] at h
    obtain ⟨output, -, hconclude⟩ := (blamesNone_applyAll _ _ _).of_bind h
    revert hconclude
    generalize foldTernary 0 output = nodes
    intro hconclude
    rcases nodes with _ | ⟨e, _ | ⟨e', nodes⟩⟩
    · cases hconclude
    · rw [conclude] at hconclude
      split at hconclude <;> cases hconclude
    · cases hconclude
  | cons frame frames =>
    rw [finish_cons start hframes] at h
    obtain ⟨output, -, hframe⟩ := (blamesNone_applyAll _ _ _).of_bind h
    obtain ⟨⟨rfl, rfl⟩, rfl⟩ : (Side.closing = side ∧ frame.bracket.closeSymbol = expected) ∧
        frame.location = l := by simpa using hframe
    rw [hframes] at hopens
    refine .opening (List.append_nil read).symm hopens ?_
    rintro t ht
    cases ht

end Build

namespace Expr

/-- **Only brackets that pair up are accepted, and a mismatch is blamed on the right bracket**: on a
closing one before which no bracket is open, or on the innermost one that is open before a closing
one of another kind or the end. -/
theorem ofTokens_brackets (ts : List Token) :
    (∀ e, ofTokens ts = .ok e → Nested ts) ∧
      ∀ side expected l, ofTokens ts = .error ⟨.mismatchedPair side expected, l⟩ →
        ¬ Nested ts ∧ Blamed ts side expected l := by
  have hinitial : Opens [] (Build.State.initial.frames.map Build.Frame.opener) := .nested .nil
  constructor
  · intro e h
    rcases Build.ofTokens_ok h with ⟨rfl, -⟩ | ⟨s, start, hrun, hfinish⟩
    · exact .nil
    · have hopens := Build.opens_run hrun hinitial
      rw [(Build.finish_ok hfinish).1] at hopens
      exact hopens.nested_of_nil
  · intro side expected l h
    have hblamed : Blamed ts side expected l := by
      rcases ts with _ | ⟨t, ts⟩
      · cases h
      · rcases Build.bind_error h with hrun | ⟨s, hrun, hfinish⟩
        · exact Build.blamed_run hrun hinitial
        · exact Build.blamed_finish hfinish (Build.opens_run hrun hinitial)
    exact ⟨hblamed.not_nested, hblamed⟩

/-- The tokens of `f[a]`. -/
def elementTokens : List Token :=
  [⟨.atom (.identifier "f"), ⟨1, 1⟩⟩, ⟨.op (.opening .square), ⟨1, 2⟩⟩,
    ⟨.atom (.identifier "a"), ⟨1, 3⟩⟩, ⟨.op (.closing .square), ⟨1, 4⟩⟩]

/-- The tokens of `f[(a]`. -/
def crossedTokens : List Token :=
  [⟨.atom (.identifier "f"), ⟨1, 1⟩⟩, ⟨.op (.opening .square), ⟨1, 2⟩⟩,
    ⟨.op (.opening .round), ⟨1, 3⟩⟩, ⟨.atom (.identifier "a"), ⟨1, 4⟩⟩,
    ⟨.op (.closing .square), ⟨1, 5⟩⟩]

/-- The round bracket is to blame, not the square one that comes too early. -/
theorem brackets_crossed :
    (ofTokens elementTokens
        = .ok (subscript (atom (.identifier "f") ⟨1, 1⟩) (atom (.identifier "a") ⟨1, 3⟩) ⟨1, 1⟩) ∧
      Nested elementTokens) ∧
      ofTokens crossedTokens = .error ⟨.mismatchedPair .closing ")", ⟨1, 3⟩⟩ ∧
      ¬ Nested crossedTokens ∧ Blamed crossedTokens .closing ")" ⟨1, 3⟩ :=
  ⟨⟨rfl, (ofTokens_brackets elementTokens).1 _ rfl⟩, rfl,
    (ofTokens_brackets crossedTokens).2 .closing ")" ⟨1, 3⟩ rfl⟩

end Expr

end KernelTree
