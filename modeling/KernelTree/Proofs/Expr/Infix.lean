import KernelTree.Proofs.Expr.Alternation
import KernelTree.Proofs.Expr.Operands
import KernelTree.Proofs.Expr.Shape

/-!
# Infix rows

Two consequences of the balance of gaps and clashes. A row that has a tree and no gaps is infix
(`Expr.infix_ofTokens`), and in a row with as many gaps as clashes every mark of a conditional has
met its partner (`Expr.markers_ofTokens`). Neither holds without these conditions: what is missing
in one place may be there twice in another, or a mark may be left alone.
-/

namespace KernelTree

namespace Build

open KernelTree.Expr

variable {s s' : State} {y : Tally}

/-! ### Neighbours and ends -/

/-- Counting only goes up. -/
theorem Tally.clashes_le (y : Tally) (rs : List Role) :
    y.clashes ≤ (rs.foldl Tally.read y).clashes := by
  induction rs generalizing y with
  | nil => exact Nat.le_refl _
  | cons r rs ih =>
    refine Nat.le_trans ?_ (ih (y.read r))
    cases r <;> simp [Tally.read]

/-- The role of an operand is that of a leaf. -/
theorem role_atom {t : Token} {next : Option Lexeme} (h : step s t next = .ok s')
    (ht : t.lexeme.isAtom = true) : role s s' = .leaf := by
  cases step_ok h with
  | atom => rfl
  | op hop => simp [hop, Lexeme.isAtom] at ht

/-- Two leaves in a row clash. -/
theorem atom_of_clashes {ts : List Token} {t t' : Token} (h : run s ts = .ok s')
    (hclashes : ((roles s ts).foldl Tally.read y).clashes = 0) (hneighbours : [t, t'] <:+: ts)
    (ht : t.lexeme.isAtom = true) : t'.lexeme.isAtom = false := by
  induction ts generalizing s y with
  | nil => simp at hneighbours
  | cons first ts ih =>
    obtain ⟨middle, hstep, hrun⟩ := bind_ok h
    rw [roles_cons hstep, List.foldl_cons] at hclashes
    rcases List.infix_cons_iff.mp hneighbours with hprefix | hneighbours
    · obtain ⟨rfl, hsecond⟩ := List.cons_prefix_cons.mp hprefix
      obtain ⟨ts, rfl⟩ := hsecond
      rw [List.singleton_append] at hrun hclashes
      obtain ⟨middle', hstep', -⟩ := bind_ok hrun
      rw [roles_cons hstep', List.foldl_cons, role_atom hstep ht] at hclashes
      refine Bool.eq_false_iff.mpr fun ht' => ?_
      rw [role_atom hstep' ht'] at hclashes
      have hle := Tally.clashes_le ((y.read .leaf).read .leaf) (roles middle' ts)
      rw [hclashes] at hle
      simp [Tally.read] at hle
    · exact ih hrun hclashes hneighbours

/-- The state in which the last token of a row is read. -/
def beforeLast (s : State) : List Token → State
  | t :: t' :: rest =>
    match step s t (some t'.lexeme) with
    | .ok s' => beforeLast s' (t' :: rest)
    | .error _ => s
  | _ => s

theorem beforeLast_cons {t t' : Token} {rest : List Token}
    (h : step s t (some t'.lexeme) = .ok s') :
    beforeLast s (t :: t' :: rest) = beforeLast s' (t' :: rest) := by
  simp only [beforeLast, h]

/-- The last token of a row is read with none behind it. -/
theorem step_beforeLast {ts : List Token} {t : Token} (h : run s ts = .ok s')
    (ht : t ∈ ts.getLast?) : step (beforeLast s ts) t none = .ok s' := by
  induction ts generalizing s with
  | nil => cases ht
  | cons t' ts ih =>
    obtain ⟨middle, hstep, hrun⟩ := bind_ok h
    cases ts with
    | nil =>
      obtain rfl : t' = t := by simpa using ht
      obtain rfl := Except.ok.inj hrun
      exact hstep
    | cons t'' ts =>
      rw [beforeLast_cons hstep]
      exact ih hrun (by simpa [List.getLast?_cons_cons] using ht)

/-- The last token of a row that ends in a value has a reading that can end one. -/
theorem neighbour_last {t : Token} (h : step s t none = .ok s') (hended : s'.ended = true) :
    (∀ op, t.lexeme ≠ .op (.pre op)) ∧ (∀ op, t.lexeme ≠ .op (.binary op)) ∧
      ∀ a, t.lexeme = .op (.unresolved a) → a.isStep = true := by
  cases step_ok h with
  | atom ht => simp [ht]
  | @op symbol op _ ht hsettle _ =>
    have hop : neighbour (.op op) = .postfixed ∨ neighbour (.op op) = .value := by
      simpa [State.ended] using (Bool.and_eq_true_iff.mp hended).2
    rcases settle_ok hsettle with ⟨rfl, hne⟩ | ⟨a, isPrefixed, rfl, rfl⟩
    · refine ⟨?_, ?_, fun a ha => ?_⟩
      · rintro op' hop'
        obtain rfl : op = .pre op' := by simpa [ht] using hop'
        simp [neighbour] at hop
      · rintro op' hop'
        obtain rfl : op = .binary op' := by simpa [ht] using hop'
        simp [neighbour] at hop
      · exact absurd (by simpa [ht] using ha) (hne a)
    · have hstep : a.isStep = true := by
        cases isPrefixed with
        | true => simp [Ambiguous.reading, neighbour] at hop
        | false =>
          -- Of the readings behind an operand, only the steps end a value.
          cases a <;>
            first
            | rfl
            | simp [Ambiguous.reading, Ambiguous.otherReading, neighbour] at hop
      simp [ht, hstep]

end Build

namespace Expr

open Build

/-! ### Rows without gaps -/

/-- At the end of a row without gaps a value ends. -/
theorem ended_of_gaps {ts : List Token} {e : Expr} (h : ofTokens ts = .ok e) (hne : ts ≠ [])
    (hgaps : gaps ts = 0) : ∃ s, run .initial ts = .ok s ∧ s.ended = true := by
  obtain ⟨s, hrun, hbegins, hended, -⟩ := balanced_ofTokens h hne
  have hdue : (tally ts).due = 0 := Nat.eq_zero_of_add_eq_zero_left hgaps
  exact ⟨s, hrun, by simpa [Tally.due, hbegins, hended] using hdue⟩

/-- **Rows without gaps are infix**: the builder balances gaps against clashes and marks, and where
there is no gap at all, no two operands are neighbours and the row ends in an operand, a bracket or
an operator behind its operand. -/
theorem infix_ofTokens {ts : List Token} {e : Expr} (h : ofTokens ts = .ok e) :
    gaps ts = clashes ts + e.nodes.countP isMarkerNode ∧
      (gaps ts = 0 →
        (∀ t t', [t, t'] <:+: ts → t.lexeme.isAtom = true → t'.lexeme.isAtom = false) ∧
        ∀ t ∈ ts.getLast?, (∀ op, t.lexeme ≠ .op (.pre op)) ∧ (∀ op, t.lexeme ≠ .op (.binary op)) ∧
          ∀ a, t.lexeme = .op (.unresolved a) → a.isStep = true) := by
  have hlaw := gaps_eq h
  refine ⟨hlaw, fun hgaps => ?_⟩
  by_cases hne : ts = []
  · subst hne
    simp
  · obtain ⟨s, hrun, hended⟩ := ended_of_gaps h hne hgaps
    refine ⟨fun t t' => atom_of_clashes (y := .start) hrun (show clashes ts = 0 by omega), ?_⟩
    exact fun t ht => neighbour_last (step_beforeLast hrun ht) hended

/-- A call with a cast in a conditional has no gap. -/
theorem infix_conditionalCall :
    ofTokens conditionalCallTokens = .ok conditionalCall ∧ gaps conditionalCallTokens = 0 ∧
      ∀ t t', [t, t'] <:+: conditionalCallTokens → t.lexeme.isAtom = true →
        t'.lexeme.isAtom = false := by
  have h : ofTokens conditionalCallTokens = .ok conditionalCall := rfl
  have hgaps : gaps conditionalCallTokens = 0 := rfl
  exact ⟨h, hgaps, ((infix_ofTokens h).2 hgaps).1⟩

/-- A row with as many gaps as clashes need not be infix: operators are accepted behind their
operands, as in `a b +` and `a !`. -/
theorem operatorBehind_accepted :
    (¬ ∀ ts e, ofTokens ts = .ok e →
      ∀ t t', [t, t'] <:+: ts → t.lexeme.isAtom = true → t'.lexeme.isAtom = false) ∧
      ¬ ∀ ts e, ofTokens ts = .ok e → ∀ t ∈ ts.getLast?, ∀ op, t.lexeme ≠ .op (.pre op) := by
  refine ⟨fun h => ?_, fun h => ?_⟩
  · have hsum : ofTokens [⟨.atom (.identifier "a"), ⟨1, 1⟩⟩, ⟨.atom (.identifier "b"), ⟨1, 3⟩⟩,
        ⟨.op (.unresolved .plus), ⟨1, 5⟩⟩]
        = .ok (mkBinary .add (atom (.identifier "a") ⟨1, 1⟩) (atom (.identifier "b") ⟨1, 3⟩)) :=
      rfl
    have hneighbours := h _ _ hsum _ _ ⟨[], _, rfl⟩ rfl
    cases hneighbours
  · have hnot : ofTokens [⟨.atom (.identifier "a"), ⟨1, 1⟩⟩, ⟨.op (.pre .not), ⟨1, 3⟩⟩]
        = .ok (prefixed (.pre .not) (atom (.identifier "a") ⟨1, 1⟩) ⟨1, 3⟩) :=
      rfl
    exact h _ _ hnot _ rfl _ rfl

/-! ### Marks of conditionals -/

/-- Whether a node is a conditional. -/
def isTernary : Expr → Bool
  | ternary .. => true
  | _ => false

/-- Whether a node is a prefix operator with its operand. -/
def isPrefixed (op : PrefixOp) : Expr → Bool
  | prefixed (.pre op') _ _ => op' = op
  | _ => false

/-- The weight that counts one operator. -/
def counting (op : PrefixOp) (o : Operator) : Nat := if o = .pre op then 1 else 0

theorem weighs_counting (op : PrefixOp) : Weighs (counting op) where
  comma := rfl
  opening _ := rfl
  closing _ := rfl

/-- In a finished tree a mark is found in conditionals and where it is left alone. -/
theorem weight_counting {op : PrefixOp} (hop : op = .question ∨ op = .colon) {n : Expr}
    (hn : n.IsFinished) :
    n.weight (counting op) = (isTernary n).toNat + (isPrefixed op n).toNat := by
  cases n with
  | ternary => rcases hop with rfl | rfl <;> rfl
  | sizeof => rcases hop with rfl | rfl <;> rfl
  | throw => rcases hop with rfl | rfl <;> rfl
  | prefixed o v l =>
    cases o with
    | pre o => by_cases ho : o = op <;> simp [Expr.weight, counting, isTernary, isPrefixed, ho]
    | _ => simp [Expr.weight, counting, isTernary, isPrefixed]
  | binary o =>
    cases o with
    | binary => rfl
    | _ => simp [IsFinished, Operator.isOf] at hn
  | postfixed o =>
    cases o with
    | post => rfl
    | _ => simp [IsFinished, Operator.isOf] at hn
  | _ => rfl

theorem total_counting {op : PrefixOp} (hop : op = .question ∨ op = .colon) {e : Expr}
    (he : ∀ n ∈ e.nodes, n.IsFinished) :
    e.total (Expr.weight (counting op))
      = e.nodes.countP isTernary + e.nodes.countP (isPrefixed op) := by
  rw [total, ← sum_map_toNat, ← sum_map_toNat]
  revert he
  induction e.nodes with
  | nil => exact fun _ => rfl
  | cons n ns ih =>
    intro he
    rw [List.forall_mem_cons] at he
    have hnode := weight_counting hop he.1
    have hnodes := ih he.2
    simp only [List.map_cons, List.sum_cons]
    omega

theorem weight_eq_counting (op : PrefixOp) (x : Lexeme) :
    x.weight (counting op) = (decide (x.operator? = some (.pre op))).toNat := by
  cases x with
  | atom a => rfl
  | op o => by_cases ho : o = .pre op <;> simp [Lexeme.weight, counting, Lexeme.operator?, ho]

/-- **Where the marks of conditionals go**: every `?` and every `:` among the tokens is half of one
conditional or is left alone, and none is left alone if and only if the row has no more gaps than
clashes. -/
theorem markers_ofTokens {ts : List Token} {e : Expr} (h : ofTokens ts = .ok e) :
    (∀ op, op = PrefixOp.question ∨ op = .colon →
      ts.countP (fun t => t.lexeme.operator? = some (.pre op))
        = e.nodes.countP isTernary + e.nodes.countP (isPrefixed op)) ∧
      ((∀ n ∈ e.nodes, isMarkerNode n = false) ↔ gaps ts = clashes ts) := by
  refine ⟨fun op hop => ?_, ?_⟩
  · have hweight := weight_ofTokens h (weighs_counting op) fun a b => by
      rcases hop with rfl | rfl <;> cases a <;> cases b <;> rfl
    have hfinished : ∀ n ∈ e.nodes, n.IsFinished := by
      by_cases hne : ts = []
      · subst hne
        obtain rfl : empty .none = e := Except.ok.inj h
        exact forall_mem_nodes.mpr ⟨trivial, List.forall_mem_nil _⟩
      · exact fun n hn => ((proper_ofTokens h hne).nodes n hn).1
    simp only [weight_eq_counting, sum_map_toNat] at hweight
    rw [← hweight, total_counting hop hfinished]
  · rw [gaps_eq h, Nat.add_eq_left, List.countP_eq_zero]
    simp only [Bool.not_eq_true]

/-- Both marks of the conditional are in it. -/
theorem markers_conditionalCall :
    ofTokens conditionalCallTokens = .ok conditionalCall ∧
      (∀ n ∈ conditionalCall.nodes, isMarkerNode n = false) ∧
      conditionalCallTokens.countP (fun t => t.lexeme.operator? = some (.pre .question))
        = conditionalCall.nodes.countP isTernary
          + conditionalCall.nodes.countP (isPrefixed .question) := by
  have h : ofTokens conditionalCallTokens = .ok conditionalCall := rfl
  exact ⟨h, (markers_ofTokens h).2.mpr rfl, (markers_ofTokens h).1 .question (.inl rfl)⟩

/-- A mark can be left alone inside a tree, as in `(? a)`: only the tree itself must be none. -/
theorem lonelyMark_accepted :
    ¬ ∀ ts e, ofTokens ts = .ok e → ∀ n ∈ e.nodes, isMarkerNode n = false := by
  intro h
  have hmark : ofTokens [⟨.op (.opening .round), ⟨1, 1⟩⟩, ⟨.op (.pre .question), ⟨1, 2⟩⟩,
      ⟨.atom (.identifier "a"), ⟨1, 4⟩⟩, ⟨.op (.closing .round), ⟨1, 5⟩⟩]
      = .ok (parens (prefixed (.pre .question) (atom (.identifier "a") ⟨1, 4⟩) ⟨1, 2⟩) ⟨1, 1⟩) :=
    rfl
  have hnodes := (forall_mem_nodes.mp (h _ _ hmark)).2 _ (List.mem_singleton.mpr rfl)
  cases (forall_mem_nodes.mp hnodes).1

end Expr

end KernelTree
