import Mathlib.Algebra.Ring.Nat
import KernelTree.Proofs.Expr.Heights

/-!
# Operators are neither lost nor doubled

Give every operator but the comma a weight. Then a tree weighs as much as the tokens that it was
built from, in the readings that the builder settled (`Build.weight_step`, `Expr.weight_ofTokens`),
where a conditional weighs as much as its two marks. Commas are left out because argument lists
take them apart.
-/

namespace KernelTree

namespace Expr

/-! ### Sums over the nodes of a tree -/

/-- The sum of a weight over all nodes. -/
def total (w : Expr → Nat) (e : Expr) : Nat := (e.nodes.map w).sum

/-- The sum over all nodes of some trees. -/
def totals (w : Expr → Nat) (es : List Expr) : Nat := (es.map (total w)).sum

variable {w : Expr → Nat}

@[simp] theorem totals_nil : totals w [] = 0 := rfl

@[simp] theorem totals_cons (e : Expr) (es : List Expr) :
    totals w (e :: es) = e.total w + totals w es := by
  simp [totals]

@[simp] theorem totals_append (xs ys : List Expr) :
    totals w (xs ++ ys) = totals w xs + totals w ys := by
  simp [totals]

/-- A node comes on top of what is under it. -/
theorem total_eq (e : Expr) : e.total w = w e + totals w e.children := by
  have hflat : ∀ es : List Expr, ((es.flatMap nodes).map w).sum = totals w es := by
    intro es
    induction es with
    | nil => rfl
    | cons e es ih => simp [ih, total]
  rw [total, nodes_eq, List.map_cons, List.sum_cons, hflat]

/-- Whether a node stands for no operator, or for a comma, which argument lists take apart. -/
def bringsNone : Expr → Bool
  | empty _ => true
  | atom _ _ => true
  | binary (.binary .comma) _ _ _ => true
  | subscript .. => true
  | call .. => true
  | launch .. => true
  | cast .function _ _ _ => true
  | parens .. => true
  | tuple .. => true
  | _ => false

theorem total_of_bringsNone (hw : ∀ e : Expr, e.bringsNone = true → w e = 0) (e : Expr)
    (he : e.bringsNone = true) : e.total w = totals w e.children := by
  rw [total_eq, hw e he, Nat.zero_add]

/-- Taking a comma chain apart loses nothing but commas. -/
theorem totals_argsBefore (hw : ∀ e : Expr, e.bringsNone = true → w e = 0) (e : Expr)
    (rest : List Expr) : totals w (e.argsBefore rest) = e.total w + totals w rest := by
  induction e, rest using argsBefore_induction with
  | comma a b l rest ih =>
    rw [argsBefore, ih, total_of_bringsNone hw (binary _ a b l) rfl]
    simp [children]
    omega
  | nothing l => simp [argsBefore, total_of_bringsNone hw (empty l) rfl, children]
  | operand e rest _ hargs => rw [hargs, totals_cons]

theorem totals_args (hw : ∀ e : Expr, e.bringsNone = true → w e = 0) (e : Expr) :
    totals w e.args = e.total w := totals_argsBefore hw e []

/-! ### The weight of operators -/

/-- What a node weighs if operators weigh `c`. -/
def weight (c : Operator → Nat) : Expr → Nat
  | prefixed op _ _ => c op
  | postfixed op _ _ => c op
  | binary op _ _ _ => c op
  | ternary .. => c (.pre .question) + c (.pre .colon)
  | sizeof .. => c (.pre .sizeof)
  | throw .. => c (.pre .throw)
  | _ => 0

end Expr

/-- Brackets and commas, which can go missing in a tree, weigh nothing. -/
structure Weighs (c : Operator → Nat) : Prop where
  comma : c (.binary .comma) = 0
  opening : ∀ b, c (.opening b) = 0
  closing : ∀ b, c (.closing b) = 0

/-- If brackets and commas weigh nothing, so do their nodes. -/
theorem Weighs.bringsNone {c : Operator → Nat} (hc : Weighs c) (e : Expr)
    (he : e.bringsNone = true) : e.weight c = 0 := by
  unfold Expr.bringsNone at he
  split at he
  case h_3 => exact hc.comma
  case h_10 => cases he
  all_goals rfl

/-- What a token weighs. -/
def Lexeme.weight (c : Operator → Nat) : Lexeme → Nat
  | .atom _ => 0
  | .op o => c o

namespace Build

open KernelTree.Expr

/-- The operator of an action, if it was written as one. -/
def Action.operator? : Action → Option Operator
  | pre op => some (.pre op)
  | post op => some (.post op)
  | binary op => some (.binary op)
  | cast _ => none

/-- What operators that wait weigh. -/
def waiting (c : Operator → Nat) (pending : List Pending) : Nat :=
  (pending.map fun p => (p.action.operator?.map c).getD 0).sum

/-- What has been read so far weighs. -/
def State.weight (c : Operator → Nat) (s : State) : Nat :=
  totals (Expr.weight c) s.output + waiting c s.pending +
    (s.frames.map fun f => waiting c f.outer).sum

variable {c : Operator → Nat} {base : Nat} {p : Pending} {pending : List Pending}
  {output output' rest : List Expr} {s s' : State}

@[simp] theorem waiting_nil : waiting c [] = 0 := rfl

@[simp] theorem waiting_cons (p : Pending) (pending : List Pending) :
    waiting c (p :: pending) = (p.action.operator?.map c).getD 0 + waiting c pending := by
  simp [waiting]

@[simp] theorem waiting_append (xs ys : List Pending) :
    waiting c (xs ++ ys) = waiting c xs + waiting c ys := by
  simp [waiting]

/-! ### Applying operators -/

theorem totals_foldTernary (base : Nat) (output : List Expr) :
    totals (Expr.weight c) (foldTernary base output) = totals (Expr.weight c) output := by
  rcases foldTernary_cases base output with h | ⟨onFalse, onTrue, check, l, l', rest, rfl, -, h⟩
  · rw [h]
  · rw [h]
    simp [total_eq (ternary ..), total_eq (prefixed ..), children, Expr.weight]
    omega

/-- What an operator weighs goes to the output. -/
theorem Applies.weight (h : Applies base p output output') :
    totals (Expr.weight c) output' = totals (Expr.weight c) output + waiting c [p] := by
  cases h with
  | binary =>
    simp [mkBinary, total_eq (Expr.binary ..), children, Expr.weight, Action.operator?]
    omega
  | postfixed =>
    simp [mkPostfixed, total_eq (Expr.postfixed ..), children, Expr.weight, Action.operator?]
    omega
  | prefixed _ hnode =>
    rw [totals_foldTernary]
    rcases prefixNode_ok hnode with ⟨rfl, rfl⟩ | ⟨rfl, rfl⟩ | ⟨-, rfl⟩ <;>
      simp [total_eq (Expr.sizeof ..), total_eq (Expr.throw ..), total_eq (Expr.prefixed ..),
        children, Expr.weight, Action.operator?] <;> omega
  | cast =>
    rw [totals_foldTernary]
    simp [total_eq (Expr.cast ..), children, Expr.weight, Action.operator?]

theorem weight_applyAll (h : applyAll base pending output = .ok output') :
    totals (Expr.weight c) output' = totals (Expr.weight c) output + waiting c pending := by
  induction pending generalizing output with
  | nil =>
    obtain rfl := Except.ok.inj h
    rfl
  | cons p pending ih =>
    obtain ⟨middle, hp, hall⟩ := applyAll_cons_ok h
    rw [ih hall, hp.weight]
    simp
    omega

/-! ### Brackets -/

section

variable {w : Expr → Nat} (hw : ∀ e : Expr, e.bringsNone = true → w e = 0)
include hw

theorem Contains.totals {frame : Frame} {value : Expr} (h : Contains frame output value rest) :
    totals w output = value.total w + totals w rest := by
  cases h with
  | nothing => simp [total_of_bringsNone hw (Expr.empty _) rfl, children]
  | value => simp

/-- A type stands for no operator. -/
theorem total_of_vartype? {e : Expr} {t : Vartype} (h : e.vartype? = some t) : e.total w = 0 := by
  cases e with
  | atom a l => simp [total_of_bringsNone hw (Expr.atom ..) rfl, children]
  | _ => cases h

theorem Attaches.totals {frame : Frame} {callee value : Expr} {nodes : List Expr}
    (h : Attaches frame callee value nodes) :
    totals w nodes = callee.total w + value.total w := by
  have hargs := totals_args hw value
  cases h with
  | cast _ ht heq =>
    rw [heq] at hargs
    simp [total_of_bringsNone hw (Expr.cast .function ..) rfl, children, total_of_vartype? hw ht,
      ← hargs]
  | call => simp [total_of_bringsNone hw (Expr.call ..) rfl, children, hargs]
  | subscript => simp [total_of_bringsNone hw (Expr.subscript ..) rfl, children]
  | launch _ heq =>
    rw [heq] at hargs
    simp [total_of_bringsNone hw (Expr.launch ..) rfl, children, ← hargs]
  | tuple =>
    simp [total_of_bringsNone hw (Expr.tuple ..) rfl, children, hargs]
    omega

theorem StandsAlone.totals {frame : Frame} {value : Expr} (h : StandsAlone s frame value s') :
    totals w s'.output = totals w s.output + value.total w := by
  cases h with
  | parens =>
    simp [total_of_bringsNone hw (Expr.parens ..) rfl, children]
    omega
  | cast _ ht => simp [total_of_vartype? hw ht]
  | tuple =>
    simp [total_of_bringsNone hw (Expr.tuple ..) rfl, children, totals_args hw]
    omega

end

theorem StandsAlone.weight {frame : Frame} {value : Expr} (h : StandsAlone s frame value s')
    (hc : Weighs c) : s'.weight c = s.weight c + value.total (Expr.weight c) := by
  have htotals := h.totals hc.bringsNone
  obtain ⟨hframes, hcases⟩ := h.cases
  have hpending : waiting c s'.pending = waiting c s.pending := by
    rcases hcases with ⟨-, -, -, hp, -⟩ | ⟨-, -, -, t, hp, -⟩
    · rw [hp]
    · simp [hp, Action.operator?]
  rw [State.weight, State.weight, htotals, hframes, hpending]
  omega

/-- Closing a bracket moves what was in it. -/
theorem Closes.weight {b : Bracket} (h : Closes s b s') (hc : Weighs c) :
    s'.weight c = s.weight c := by
  cases h with
  | attached hframes _ hall hcontent _ hattach =>
    have hout := (hcontent.totals hc.bringsNone).symm.trans (weight_applyAll hall)
    simp only [totals_cons] at hout
    simp only [State.weight, hframes, totals_append, hattach.totals hc.bringsNone, List.map_cons,
      List.sum_cons]
    omega
  | standing hframes _ hall hcontent _ halone =>
    have hout := (hcontent.totals hc.bringsNone).symm.trans (weight_applyAll hall)
    rw [halone.weight hc]
    simp only [State.weight, hframes, List.map_cons, List.sum_cons]
    omega

/-! ### The whole row -/

/-- The operator that was read last is on top of those that wait, unless it is a bracket. -/
theorem step_top {t : Token} {next : Option Lexeme} {op : Operator} (h : step s t next = .ok s')
    (hprevious : s'.previous = some (.op op))
    (hop : ∀ b, op ≠ .opening b ∧ op ≠ .closing b) :
    ∃ p rest, s'.pending = p :: rest ∧ p.action.operator? = some op := by
  obtain ⟨lexeme, l⟩ := t
  cases lexeme with
  | atom a =>
    obtain rfl := Except.ok.inj h
    cases hprevious
  | op symbol =>
    obtain ⟨op', -, h⟩ := bind_ok h
    obtain ⟨s₁, hread, h⟩ := bind_ok h
    obtain rfl := Except.ok.inj h
    obtain rfl : op' = op := by simpa using hprevious
    cases op' with
    | opening b => exact absurd rfl (hop b).1
    | closing b => exact absurd rfl (hop b).2
    | unresolved a => cases hread
    | _ =>
      obtain ⟨applied, pending, output, -, -, rfl⟩ := push_ok hread
      exact ⟨_, _, rfl, rfl⟩

/-- A token adds what it weighs in the reading that was settled. -/
theorem weight_step {t : Token} {next : Option Lexeme} (h : step s t next = .ok s')
    (hc : Weighs c) : s'.weight c = s.weight c + (s'.previous.map (Lexeme.weight c)).getD 0 := by
  cases step_ok h with
  | atom => simp [State.weight, total_eq (Expr.atom ..), children, Expr.weight, Lexeme.weight]
  | @op symbol op s' _ _ hread =>
    cases hread with
    | opening =>
      simp [State.weight, openBracket, Lexeme.weight, hc.opening]
      omega
    | closing hclose =>
      simpa [State.weight, Lexeme.weight, hc.closing] using hclose.weight hc
    | action hop _ hpending hall =>
      obtain ⟨p, pending, hp, hop⟩ := step_top h rfl hop
      obtain ⟨rfl, rfl⟩ := List.cons.inj hp
      simp [State.weight, hpending, weight_applyAll hall, hop, Lexeme.weight]
      omega

/-- Where the readings of a symbol weigh the same, the tokens say what a run adds. -/
theorem weight_run {ts : List Token} (h : run s ts = .ok s') (hc : Weighs c)
    (hreading : ∀ a isPrefixed, c (a.reading isPrefixed) = c (.unresolved a)) :
    s'.weight c = s.weight c + (ts.map fun t => t.lexeme.weight c).sum := by
  induction ts generalizing s with
  | nil =>
    obtain rfl := Except.ok.inj h
    rfl
  | cons t ts ih =>
    obtain ⟨middle, hstep, hrun⟩ := bind_ok h
    have hprevious : (middle.previous.map (Lexeme.weight c)).getD 0 = t.lexeme.weight c := by
      cases step_ok hstep with
      | atom ht => simp [ht, Lexeme.weight]
      | op ht hsettle =>
        rcases settle_ok hsettle with ⟨rfl, -⟩ | ⟨a, isPrefixed, rfl, rfl⟩
        · simp [ht]
        · simp [ht, Lexeme.weight, hreading]
    rw [ih hrun, weight_step hstep hc, hprevious, List.map_cons, List.sum_cons, Nat.add_assoc]

/-- At the end of a row everything has gone to its tree. -/
theorem weight_end {ts : List Token} {e : Expr} (h : Expr.ofTokens ts = .ok e) (hne : ts ≠ []) :
    ∃ s, run .initial ts = .ok s ∧ e.total (Expr.weight c) = s.weight c := by
  obtain ⟨s, hrun, -, hframes, hall, -⟩ := ofTokens_ne_nil h hne
  have hweight := weight_applyAll (c := c) hall
  refine ⟨s, hrun, ?_⟩
  simpa [State.weight, hframes] using hweight

end Build

/-- A tree weighs as much as its tokens. -/
theorem Expr.weight_ofTokens {c : Operator → Nat} {ts : List Token} {e : Expr}
    (h : ofTokens ts = .ok e) (hc : Weighs c)
    (hreading : ∀ a isPrefixed, c (a.reading isPrefixed) = c (.unresolved a)) :
    e.total (Expr.weight c) = (ts.map fun t => t.lexeme.weight c).sum := by
  by_cases hne : ts = []
  · subst hne
    obtain rfl : empty .none = e := Except.ok.inj h
    simp [total_eq (empty _), children, Expr.weight]
  · obtain ⟨s, hrun, hend⟩ := Build.weight_end (c := c) h hne
    rw [hend, Build.weight_run hrun hc hreading]
    simp [Build.State.weight, Build.State.initial]

end KernelTree
