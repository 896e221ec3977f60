import KernelTree.Proofs.Expr.Complete
import KernelTree.Proofs.Expr.Grouped

/-!
# States that carry a printed tree

`Build.Carries` says how far the builder is behind the tokens of a tree, casts and steps included:
the tree lies on the output but for operators that are still pending, and the builder remembers the
bracket of the latest cast (`Build.Casts`). A bracket behind a cast is taken for the operand of the
cast as long as no other cast is closed inside it (`Build.Surrounds.standing`).
-/

namespace KernelTree

namespace Expr

/-! ### Reprinted nodes -/

theorem unplacedArgs_eq_map (args : List Expr) : unplacedArgs args = args.map unplaced := by
  induction args with
  | nil => rfl
  | cons a args ih => rw [unplacedArgs, ih, List.map_cons]

theorem bracketSizeofs_eq_map (args : List Expr) :
    bracketSizeofs args = args.map bracketSizeof := by
  induction args with
  | nil => rfl
  | cons a args ih => rw [bracketSizeofs, ih, List.map_cons]

theorem map_reprint (args : List Expr) :
    unplacedArgs (bracketSizeofs args) = args.map reprint := by
  rw [unplacedArgs_eq_map, bracketSizeofs_eq_map, List.map_map]
  rfl

variable {e t : Expr}

/-- The place of a node is no part of its shape. -/
theorem leftEdge_of_reprint (h : e.unplaced = t.reprint) : e.leftEdge = t.leftEdge := by
  have hunplaced (e : Expr) : e.unplaced.leftEdge = e.leftEdge := by cases e <;> rfl
  have hbracket (e : Expr) : e.bracketSizeof.leftEdge = e.leftEdge := by
    cases e with
    | sizeof v => cases v <;> rfl
    | _ => rfl
  rw [← hunplaced e, h, reprint, hunplaced, hbracket]

theorem vartype?_of_reprint (h : e.unplaced = t.reprint) : e.vartype? = t.vartype? := by
  have hunplaced (e : Expr) : e.unplaced.vartype? = e.vartype? := by cases e <;> rfl
  have hbracket (e : Expr) : e.bracketSizeof.vartype? = e.vartype? := by
    cases e with
    | sizeof v => cases v <;> rfl
    | _ => rfl
  rw [← hunplaced e, h, reprint, hunplaced, hbracket]

theorem isEmpty_of_reprint (h : e.unplaced = t.reprint) : e.isEmpty = t.isEmpty := by
  have hunplaced (e : Expr) : e.unplaced.isEmpty = e.isEmpty := by cases e <;> rfl
  have hbracket (e : Expr) : e.bracketSizeof.isEmpty = e.isEmpty := by
    cases e with
    | sizeof v => cases v <;> rfl
    | _ => rfl
  rw [← hunplaced e, h, reprint, hunplaced, hbracket]

theorem isMarkerNode_of_reprint (h : e.unplaced = t.reprint) :
    Build.isMarkerNode e = Build.isMarkerNode t := by
  have hprefixed (op : Operator) (v v' : Expr) (l l' : Location) :
      Build.isMarkerNode (prefixed op v l) = Build.isMarkerNode (prefixed op v' l') := by
    unfold Build.isMarkerNode
    split <;> simp_all
  have hunplaced (e : Expr) : Build.isMarkerNode e.unplaced = Build.isMarkerNode e := by
    cases e with
    | prefixed op v l => exact hprefixed ..
    | _ => rfl
  have hbracket (e : Expr) : Build.isMarkerNode e.bracketSizeof = Build.isMarkerNode e := by
    cases e with
    | prefixed op v l => exact hprefixed ..
    | sizeof v => cases v <;> rfl
    | _ => rfl
  rw [← hunplaced e, h, reprint, hunplaced, hbracket]

/-- What is tighter than a comma and not empty is one argument. -/
theorem argsBefore_of_leftEdge (h : e.leftEdge < 16) (hne : e.isEmpty = false)
    (rest : List Expr) : e.argsBefore rest = e :: rest := by
  cases e with
  | empty l => cases hne
  | binary op a b l =>
    have hop : op ≠ .binary .comma := by
      rintro rfl
      simp [leftEdge, Operator.precedence, BinaryOp.precedence] at h
    simp [argsBefore, hop]
  | _ => rfl

/-! ### Edges -/

theorem precedence_le (op : Operator) : op.precedence ≤ 16 := by
  cases op with
  | pre op => cases op <;> decide
  | post op => cases op <;> decide
  | binary op => cases op <;> decide
  | unresolved a => cases a <;> decide
  | _ => exact Nat.zero_le _

/-- A comma is the loosest of all. -/
theorem rightEdge_le (e : Expr) : e.rightEdge ≤ 16 := by
  induction e using inductionOn with
  | step e ih =>
    cases e with
    | prefixed op v l =>
      have := precedence_le op
      have := ih v (by simp [children])
      simp only [rightEdge]
      omega
    | binary op a b l =>
      have := precedence_le op
      have := ih b (by simp [children])
      simp only [rightEdge]
      omega
    | ternary c a b l =>
      have := ih b (by simp [children])
      simp only [rightEdge]
      omega
    | throw v l =>
      have := ih v (by simp [children])
      simp only [rightEdge]
      omega
    | cast k t v l =>
      have := ih v (by simp [children])
      cases k <;> simp only [rightEdge] <;> omega
    | _ => simp [rightEdge]

/-- An operator behind the first operand waits for the last one too, or comes after all of them. -/
theorem leftEdge_le_rightEdge (e : Expr) : e.leftEdge ≤ e.rightEdge := by
  cases e with
  | prefixed op v l =>
    simp only [leftEdge, rightEdge]
    omega
  | binary op a b l => exact Int.le_max_left ..
  | ternary c a b l => exact Int.le_max_left ..
  | throw v l =>
    simp only [leftEdge, rightEdge]
    omega
  | cast k t v l => cases k <;> simp only [leftEdge, rightEdge] <;> omega
  | _ => simp [leftEdge, rightEdge]

/-- A tree with no operator waiting at its end does not end in a step. -/
theorem endsInStep_of_rightEdge (h : e.rightEdge < 0) : e.endsInStep = false := by
  cases e with
  | prefixed op v l =>
    simp only [rightEdge] at h
    omega
  | postfixed op v l => simp [rightEdge] at h
  | binary op a b l =>
    simp only [rightEdge] at h
    omega
  | ternary c a b l =>
    simp only [rightEdge] at h
    omega
  | throw v l =>
    simp only [rightEdge] at h
    omega
  | cast k t v l =>
    cases k with
    | paren =>
      simp only [rightEdge] at h
      omega
    | _ => rfl
  | _ => rfl

theorem leftEdge_le_of_givesWay {p : Nat} (h : e.GivesWay p) : e.leftEdge ≤ p := by
  have := leftEdge_le_rightEdge e
  rcases h with h | ⟨h, -⟩ <;> omega

end Expr

namespace Build

open KernelTree.Expr

variable {s s' s₀ : State} {t e : Expr}

/-- What stands behind an operator and leaves it alone is barred by it. -/
theorem bars_of_staysBehind {p : Pending} {pending : List Pending}
    (h : t.StaysBehind p.action.precedence) : Bars (p :: pending) t.leftEdge := by
  rcases h with h | ⟨h, hassoc⟩
  · exact bars_of_lt h
  · exact bars_of_right (Int.le_of_eq h) hassoc

/-- What gives way to an operator is put together before it. -/
theorem yields_of_givesWay {p : Pending} {action : Action} (h : t.GivesWay action.precedence)
    (hq : action ≠ .pre .question) (hp : (p.action.precedence : Int) ≤ t.rightEdge) :
    yields action p.action = true := by
  refine yields_of_le ?_ ?_ fun hq' => absurd hq' hq
  · rcases h with h | ⟨h, -⟩ <;> omega
  · intro heq
    rcases h with h | ⟨-, hassoc⟩
    · omega
    · exact hassoc

/-! ### Places of casts -/

/-- An operand can be read next: behind an opening bracket, a cast or an operator that wants one. -/
structure State.Awaits (s : State) : Prop where
  previous : s.afterCast = true ∨
    ∀ p ∈ s.previous, neighbour p = .opening ∨ neighbour p = .wanting
  castClose : ∀ j ∈ s.castClose, j < s.index
  base : s.base ≤ s.output.length

/-- Between the states, another cast was closed only if `hasCast` says so. -/
structure Casts (hasCast : Bool) (s s' : State) : Prop where
  index : s.index ≤ s'.index
  castClose : s'.castClose = s.castClose ∨
    hasCast = true ∧ ∃ j ∈ s'.castClose, s.index ≤ j

theorem Casts.trans {s₁ s₂ : State} {c c' : Bool} (h : Casts c s s₁) (h' : Casts c' s₁ s₂) :
    Casts (c || c') s s₂ where
  index := Nat.le_trans h.index h'.index
  castClose := by
    rcases h'.castClose with h₂ | ⟨hc, j, hj, hle⟩
    · rcases h.castClose with h₁ | ⟨hc, j, hj, hle⟩
      · exact .inl (h₂.trans h₁)
      · exact .inr ⟨by simp [hc], j, h₂ ▸ hj, hle⟩
    · exact .inr ⟨by simp [hc], j, hj, Nat.le_trans h.index hle⟩

/-- From `s` on the tokens of `t` have been read, and the state is now `s'`: applying the operators
that came with them leaves the tree `e` on the output of `s`. -/
structure Carries (s s' : State) (t e : Expr) : Prop where
  tree : e.unplaced = t.reprint
  frames : s'.frames = s.frames
  index : s.index < s'.index
  casts : Casts t.hasParenCast s s'
  closed : ∀ j ∈ s'.castClose, j + 1 < s'.index
  previous : ∃ p, s'.previous = some p ∧
    neighbour p = if t.endsInStep then Neighbour.postfixed else .value
  reduces : ∃ ops, s'.pending = ops ++ s.pending ∧
    applyAll s.base ops s'.output = .ok (e :: s.output) ∧
    ∀ p ∈ ops, (p.action.precedence : Int) ≤ t.rightEdge ∧ p.action ≠ .pre .question

namespace Carries

theorem base (h : Carries s s' t e) : s'.base = s.base := by
  rw [State.base, h.frames]
  rfl

theorem castClose (h : Carries s s' t e) : ∀ j ∈ s'.castClose, j < s'.index := by
  intro j hj
  have := h.closed j hj
  omega

theorem afterCast (h : Carries s s' t e) : s'.afterCast = false := by
  cases hc : s'.castClose with
  | none => simp [State.afterCast, hc]
  | some j =>
    have := h.closed j (by simp [hc])
    have hne : j ≠ s'.index - 1 := by omega
    simp [State.afterCast, hc, hne]

/-- With no operator waiting at its end, the tree lies on the output at once. -/
theorem of_neg (h : Carries s s' t e) (hedge : t.rightEdge < 0) :
    s'.pending = s.pending ∧ s'.output = e :: s.output := by
  obtain ⟨ops, hpending, hall, hops⟩ := h.reduces
  cases ops with
  | nil => exact ⟨hpending, Except.ok.inj hall⟩
  | cons p ops =>
    have := (hops p (by simp)).1
    omega

/-- An operator that comes after the tree and is loose enough applies exactly the operators that
came with it. -/
theorem push (h : Carries s s' t e) (action : Action) (l : Location)
    (hpre : action.isPrefixed = false)
    (hyield : ∀ p : Pending, (p.action.precedence : Int) ≤ t.rightEdge →
      yields action p.action = true)
    (hstop : ∀ top ∈ s.pending.head?, yields action top.action = false) :
    Build.push s' action l
      = .ok { s' with output := e :: s.output, pending := ⟨action, l⟩ :: s.pending } := by
  obtain ⟨ops, hpending, hall, hops⟩ := h.reduces
  have happly : applyFaster s'.base action s'.pending s'.output
      = .ok (s.pending, e :: s.output) := by
    rw [h.base, hpending, applyFaster_append (fun p hp => hyield p (hops p hp).1)
      (fun p hp hc => (hops p hp).2 hc.2) hall, applyFaster_stop hstop]
  simp only [Build.push, hpre, happly]
  rfl

/-- The operator under the tree takes it as its last operand. -/
theorem apply {p : Pending} {t' e' : Expr} {c : Bool} (h : Carries s s' t e)
    (hframes : s.frames = s₀.frames) (hcasts : Casts c s₀ s)
    (hpending : s.pending = p :: s₀.pending)
    (happly : Build.apply s₀.base p (e :: s.output) = .ok (e' :: s₀.output))
    (hq : p.action ≠ .pre .question) (htree : e'.unplaced = t'.reprint)
    (hedge : t'.rightEdge = max (p.action.precedence : Int) t.rightEdge)
    (hstep : t'.endsInStep = t.endsInStep) (hcast : t'.hasParenCast = (c || t.hasParenCast)) :
    Carries s₀ s' t' e' := by
  obtain ⟨ops, hops_pending, hall, hops⟩ := h.reduces
  have hbase : s.base = s₀.base := by
    rw [State.base, hframes]
    rfl
  refine
    { tree := htree
      frames := h.frames.trans hframes
      index := Nat.lt_of_le_of_lt hcasts.index h.index
      casts := hcast ▸ hcasts.trans h.casts
      closed := h.closed
      previous := hstep ▸ h.previous
      reduces := ⟨ops ++ [p], by rw [hops_pending, hpending]; simp, ?_, ?_⟩ }
  · rw [applyAll_append, ← hbase, hall]
    simp only [Except.bind, applyAll, hbase, happly]
    rfl
  · intro q hq'
    rcases List.mem_append.mp hq' with hq' | hq'
    · have := (hops q hq').1
      exact ⟨by omega, (hops q hq').2⟩
    · obtain rfl := List.mem_singleton.mp hq'
      exact ⟨by omega, hq⟩

end Carries

/-! ### Readings -/

namespace State.Awaits

theorem readsAsPrefix (h : s.Awaits) (a : Ambiguous) (l : Location) (next : Lexeme) :
    readsAsPrefix s a l (some next) = .ok true := by
  cases hp : s.previous with
  | none => simp [Build.readsAsPrefix, hp]
  | some p =>
    cases hc : s.afterCast with
    | true => simp [Build.readsAsPrefix, hp, hc]
    | false =>
      rcases h.previous with hc' | hn
      · rw [hc] at hc'
        cases hc'
      · rcases hn p hp with hn | hn <;> simp [Build.readsAsPrefix, hp, hc, hn]

/-- Where an operand is wanted, a symbol is read as the operator in front of it. -/
theorem settle_pre (h : s.Awaits) (op : PrefixOp) (l : Location) (next : Lexeme) :
    settle s (Operator.pre op).generic l (some next) = .ok (.pre op) := by
  rcases generic_pre op with ⟨a, ha, hop⟩ | ha
  · rw [ha]
    simp [settle, h.readsAsPrefix, Except.map, Ambiguous.reading, hop]
  · rw [ha]
    rfl

theorem step_pre (h : s.Awaits) {op : PrefixOp} (hop : (Action.pre op).isPrefixed)
    (l : Location) (next : Lexeme) :
    step s ⟨.op (Operator.pre op).generic, l⟩ (some next)
      = .ok (s.awaiting s.output (⟨.pre op, l⟩ :: s.pending) (.pre op)) := by
  have hpush : Build.push s (.pre op) l = .ok { s with pending := ⟨.pre op, l⟩ :: s.pending } :=
    if_pos hop
  exact step_op (h.settle_pre op l next) hpush

/-- But for a cast, no value stands before the place where an operand is awaited. -/
theorem afterValue (h : s.Awaits) (hc : s.afterCast = false) (b : Bracket) (l : Location) :
    (s.frame b l).afterValue = false := by
  rcases h.previous with hc' | hn
  · rw [hc] at hc'
    cases hc'
  · cases hp : s.previous with
    | none => simp [State.frame, hp]
    | some p => rcases hn p hp with hn | hn <;> simp [State.frame, hp, hn]

/-- What a bracket finds before it there is no value, or the bracket of the latest cast. -/
theorem followsValue (h : s.Awaits) (b : Bracket) (l : Location) :
    (s.frame b l).followsValue s.castClose = false := by
  cases hc : s.afterCast with
  | false => simp [Frame.followsValue, h.afterValue hc]
  | true =>
    simp only [State.afterCast, ne_eq, decide_not, Bool.and_eq_true, Bool.not_eq_eq_eq_not,
      Bool.not_true, decide_eq_false_iff_not, decide_eq_true_eq] at hc
    simp [Frame.followsValue, State.frame, hc.1, hc.2]

end State.Awaits

section

variable {output : List Expr} {pending : List Pending} {op : Operator} {b : Bracket} {l : Location}

theorem State.awaits_awaiting (hop : neighbour (.op op) = .wanting)
    (hc : ∀ j ∈ s.castClose, j < s.index) (hbase : s.base ≤ output.length) :
    (s.awaiting output pending op).Awaits where
  previous := by
    refine .inr fun p hp => ?_
    obtain rfl : Lexeme.op op = p := by simpa [State.awaiting] using hp
    exact .inr hop
  castClose j hj := Nat.lt_succ_of_lt (hc j hj)
  base := hbase

theorem State.awaits_opened (hc : ∀ j ∈ s.castClose, j < s.index) : (s.opened b l).Awaits where
  previous := by
    refine .inr fun p hp => ?_
    obtain rfl : Lexeme.op (.opening b) = p := by simpa [State.opened] using hp
    exact .inl rfl
  castClose j hj := Nat.lt_succ_of_lt (hc j hj)
  base := Nat.le_refl _

/-- The token before is none that closed a cast if another token came after the latest cast. -/
theorem State.afterCast_succ {s₁ : State} (hindex : s₁.index = s.index + 1)
    (hcast : s₁.castClose = s.castClose) (hc : ∀ j ∈ s.castClose, j < s.index) :
    s₁.afterCast = false := by
  cases hj : s.castClose with
  | none => simp [State.afterCast, hcast, hj]
  | some j =>
    have := hc j (by simp [hj])
    have hne : j ≠ s.index := by omega
    simp [State.afterCast, hcast, hj, hindex, hne]

end

namespace Carries

/-- Behind a value, a symbol is read as the operator between two. -/
theorem settle_binary (h : Carries s s' t e) (op : BinaryOp) (l : Location) (next : Lexeme) :
    settle s' (Operator.binary op).generic l (some next) = .ok (.binary op) := by
  obtain ⟨p, hp, hn⟩ := h.previous
  rcases generic_binary op with ⟨a, ha, hstep, hop⟩ | ha
  · have hreads : readsAsPrefix s' a l (some next) = .ok false := by
      cases ht : t.endsInStep <;> simp [readsAsPrefix, hp, h.afterCast, hn, ht, hstep]
    rw [ha]
    simp [settle, hreads, Except.map, Ambiguous.reading, hop]
  · rw [ha]
    rfl

/-- A symbol that counts stands behind a value if an operator comes next, or nothing. -/
theorem settle_post (h : Carries s s' t e) (ht : t.endsInStep = false) (op : PostfixOp)
    (l : Location) (next : Option Lexeme) (hnext : ∀ n ∈ next, isOperator n = true) :
    settle s' (Operator.post op).generic l next = .ok (.post op) := by
  obtain ⟨p, hp, hn⟩ := h.previous
  rw [ht] at hn
  have hreads (a : Ambiguous) (ha : a.isStep = true) : readsAsPrefix s' a l next = .ok false := by
    cases next with
    | none => simp [readsAsPrefix, hp]
    | some n => simp [readsAsPrefix, hp, h.afterCast, hn, ha, hnext n rfl]
  cases op with
  | increment =>
    show (readsAsPrefix s' .increment l next).map _ = _
    rw [hreads .increment rfl]
    rfl
  | decrement =>
    show (readsAsPrefix s' .decrement l next).map _ = _
    rw [hreads .decrement rfl]
    rfl

end Carries

/-! ### Brackets -/

/-- `value` is what has been read since the bracket that opened in `s`. -/
structure Surrounds (s s' : State) (b : Bracket) (l : Location) (value : Expr) (hasCast : Bool) :
    Prop where
  frames : s'.frames = s.frame b l :: s.frames
  casts : Casts hasCast (s.opened b l) s'
  castClose : ∀ j ∈ s'.castClose, j < s'.index
  reduces : ∃ output, applyAll s'.base s'.pending s'.output = .ok output ∧
    content (s.frame b l) output = .ok (value, s.output)

section

variable {b : Bracket} {l : Location} {value node : Expr} {c : Bool}

theorem surrounds_opened (hc : ∀ j ∈ s.castClose, j < s.index) :
    Surrounds s (s.opened b l) b l (.empty l) false where
  frames := rfl
  casts := ⟨Nat.le_refl _, .inl rfl⟩
  castClose j hj := Nat.lt_succ_of_lt (hc j hj)
  reduces := ⟨s.output, rfl, by simp [content, State.frame]⟩

theorem Carries.surrounds (h : Carries (s.opened b l) s' t e) :
    Surrounds s s' b l e t.hasParenCast where
  frames := h.frames
  casts := h.casts
  castClose := h.castClose
  reduces := by
    obtain ⟨ops, hpending, hall, -⟩ := h.reduces
    refine ⟨e :: s.output, ?_, by simp [content, State.frame]⟩
    rw [h.base, hpending]
    simpa [State.opened] using hall

/-- With the bracket closed, its node is on the output of `s₀`. -/
theorem Surrounds.closed (h : Surrounds s s' b l value c) (hcasts : Casts t.hasParenCast s₀ s')
    (l' : Location) (hclose : close s' b l' = .ok { s' with
      output := node :: s₀.output
      pending := s₀.pending
      frames := s₀.frames }) (htree : node.unplaced = t.reprint) (hstep : t.endsInStep = false)
    (rest : List Token) :
    ∃ s'', run s' (⟨.op (.closing b), l'⟩ :: rest) = run s'' rest ∧ Carries s₀ s'' t node := by
  refine ⟨_, run_cons (step_op rfl hclose), ?_⟩
  exact
    { tree := htree
      frames := rfl
      index := Nat.lt_succ_of_le hcasts.index
      casts := ⟨Nat.le_succ_of_le hcasts.index, hcasts.castClose⟩
      closed := fun j hj => Nat.succ_lt_succ (h.castClose j hj)
      previous := ⟨_, rfl, by rw [hstep]; rfl⟩
      reduces := ⟨[], rfl, rfl, by simp⟩ }

/-- The tokens between two brackets, as far as the latest cast is concerned. -/
theorem casts_opened (s : State) (b : Bracket) (l : Location) :
    Casts false s (s.opened b l) := ⟨Nat.le_succ _, .inl rfl⟩

/-- A bracket that opened where an operand was awaited stands for itself, unless a cast was closed
inside it, another one before it, and a value stands before both. -/
theorem Surrounds.standing (h : Surrounds s s' b l value c) (hs : s.Awaits)
    (hgrab : s.afterCast = true → c = true → s.output = [])
    (hnode : ∀ s₁ : State, s₁.pending = s.pending →
      standAlone s₁ (s.frame b l) value = .ok { s₁ with output := node :: s₁.output })
    (htree : node.unplaced = t.reprint) (hcast : t.hasParenCast = c)
    (hstep : t.endsInStep = false) (l' : Location) (rest : List Token) :
    ∃ s'', run s' (⟨.op (.closing b), l'⟩ :: rest) = run s'' rest ∧ Carries s s'' t node := by
  obtain ⟨output, hall, hcontent⟩ := h.reduces
  have hcasts : Casts t.hasParenCast s s' := by
    rw [hcast]
    exact (casts_opened s b l).trans h.casts
  have hb : (s.frame b l).bracket = b := rfl
  have halone (o : List Expr) : standAlone
      { s' with output := o, pending := (s.frame b l).outer, frames := s.frames } (s.frame b l)
        value = .ok { s' with
          output := node :: o, pending := (s.frame b l).outer, frames := s.frames } :=
    hnode _ rfl
  refine h.closed hcasts l' ?_ htree hstep rest
  simp only [close, hall, h.frames, hb, hcontent, bind, Except.bind, ne_eq, not_true_eq_false,
    if_false]
  cases ho : s.output with
  | nil => exact halone []
  | cons callee below =>
    -- A value lies below the bracket; the latest cast tells that it is not the one before it.
    have hfollows : (s.frame b l).followsValue s'.castClose = false := by
      rcases h.casts.castClose with hsame | ⟨hc, -⟩
      · rw [hsame]
        exact hs.followsValue b l
      · cases hafter : s.afterCast with
        | true =>
          rw [hgrab hafter hc] at ho
          cases ho
        | false => simp [Frame.followsValue, hs.afterValue hafter]
    rw [hfollows]
    exact halone (callee :: below)

/-- A bracket that opened behind a value is attached to it. -/
theorem Surrounds.attached {f callee : Expr} (h : Surrounds s s' b l value c)
    (hs : Carries s₀ s f callee) (hedge : f.rightEdge < 0)
    (hnode : attach (s.frame b l) callee value = .ok [node]) (htree : node.unplaced = t.reprint)
    (hcast : t.hasParenCast = (f.hasParenCast || c)) (hstep : t.endsInStep = false)
    (l' : Location) (rest : List Token) :
    ∃ s'', run s' (⟨.op (.closing b), l'⟩ :: rest) = run s'' rest ∧ Carries s₀ s'' t node := by
  obtain ⟨output, hall, hcontent⟩ := h.reduces
  obtain ⟨p, hp, hn⟩ := hs.previous
  rw [endsInStep_of_rightEdge hedge] at hn
  obtain ⟨hpending, houtput⟩ := hs.of_neg hedge
  have hcasts : Casts t.hasParenCast s₀ s' := by
    have := (hs.casts.trans (casts_opened s b l)).trans h.casts
    rwa [Bool.or_false, ← hcast] at this
  have hindex : s.index ≠ 0 := Nat.ne_of_gt (Nat.zero_lt_of_lt hs.index)
  -- The token before the bracket closed no cast: the latest one is older or inside the bracket.
  have hbefore : s'.castClose ≠ some (s.index - 1) := by
    intro hj
    rcases h.casts.castClose with hsame | ⟨-, j, hj', hle⟩
    · have := hs.closed (s.index - 1) (by rw [← show _ = s.castClose from hsame]; exact hj)
      omega
    · have hj' : j = s.index - 1 := by simpa [hj] using hj'.symm
      have hle : s.index + 1 ≤ j := hle
      omega
  have hfollows : (s.frame b l).followsValue s'.castClose = true := by
    simp [Frame.followsValue, State.frame, hp, hn, hindex, Ne.symm hbefore]
  have hb : (s.frame b l).bracket = b := rfl
  have houter : (s.frame b l).outer = s₀.pending := hpending
  refine h.closed hcasts l' ?_ htree hstep rest
  simp only [close, hall, h.frames, hb, hcontent, bind, Except.bind, houtput, hfollows, hnode,
    houter, hs.frames, ne_eq, not_true_eq_false, if_false]
  rfl

end

end Build

end KernelTree
