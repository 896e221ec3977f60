import KernelTree.Proofs.Expr.Carry

/-!
# Printed trees are read back

The builder turns the printed tokens of a grouped tree into that tree, with brackets around the
operands of `sizeof` (`Expr.ofTokens_printed`). The induction is on the tree: `Build.Recovers` says
what its tokens do to any state that awaits an operand, with one lemma for each kind of node.
-/

namespace KernelTree

namespace Expr

namespace Grouped

variable {t : Expr}

/-- A grouped tree has a token. -/
theorem printed_ne_nil (h : t.Grouped) : t.printed ≠ [] := by
  cases h with
  | sizeof => simp [printed_sizeof]
  | _ => simp [printed]

/-- A grouped tree is not empty. -/
theorem isEmpty_eq_false (h : t.Grouped) : t.isEmpty = false := by cases h <;> rfl

/-- A grouped tree is a whole and not a branch of a conditional. -/
theorem isMarkerNode_eq_false (h : t.Grouped) : Build.isMarkerNode t = false := by
  cases h with
  | @prefixed op v l hop =>
    rcases hop with hop | rfl
    · cases op <;> simp_all [Build.isMarkerNode, PrefixOp.isPlain]
    · rfl
  | _ => rfl

end Grouped

/-- Whatever stands before a comma is put together. -/
theorem givesWay_comma (e : Expr) : e.GivesWay BinaryOp.comma.precedence := by
  have hle := rightEdge_le e
  by_cases heq : e.rightEdge = 16
  · exact .inr ⟨heq, rfl⟩
  · refine .inl ?_
    show e.rightEdge < 16
    omega

/-- A chain of commas is asked in all that it joins. -/
theorem hasParenCast_commas (e : Expr) (args : List Expr) :
    (args.foldl (mkBinary .comma) e).hasParenCast
      = (e.hasParenCast || args.any hasParenCast) := by
  induction args generalizing e with
  | nil => simp
  | cons a args ih =>
    rw [List.foldl_cons, ih, mkBinary, hasParenCast_binary, List.any_cons, Bool.or_assoc]

end Expr

namespace Build

open KernelTree.Expr

/-- What follows is an operator, or nothing. -/
def GoesOn (rest : List Token) : Prop := ∀ t ∈ rest.head?, isOperator t.lexeme = true

/-- From every state that awaits an operand and whose pending operators the tree does not disturb,
the tokens of the tree lead to a state that carries it. -/
def Recovers (t : Expr) : Prop :=
  ∀ (ts rest : List Token) (s : State), ts.map Token.lexeme = t.printed → s.Awaits →
    afterSizeof s.pending = false → Bars s.pending t.leftEdge →
    (t.endsInStep = true → GoesOn rest) → (t.grabs s.afterCast = true → s.output = []) →
    ∃ s' e, run s (ts ++ rest) = run s' rest ∧ Carries s s' t e

variable {s s' s₀ : State} {ts ta tb ti rest : List Token} {t v e : Expr} {l : Location}

/-- An operator that leaves the builder waiting for an operand, and the operand behind it. -/
theorem Recovers.behind {x : Lexeme} {op : Operator} {output : List Expr}
    {pending : List Pending} (ih : Recovers v) (hv : v.Grouped)
    (hstep : ∀ next, step s ⟨x, l⟩ (some next) = .ok (s.awaiting output pending op))
    (hop : neighbour (.op op) = .wanting) (hc : ∀ j ∈ s.castClose, j < s.index)
    (hbase : s.base ≤ output.length) (hsize : afterSizeof pending = false)
    (hbars : Bars pending v.leftEdge) (htb : tb.map Token.lexeme = v.printed)
    (hrest : v.endsInStep = true → GoesOn rest) (hgrabs : v.grabs false = true → output = []) :
    ∃ s' e, run s (⟨x, l⟩ :: (tb ++ rest)) = run s' rest ∧
      Carries (s.awaiting output pending op) s' v e := by
  -- An operand has tokens, so the operator sees one behind it.
  obtain ⟨next, hnext⟩ := exists_next hv.printed_ne_nil htb rest
  have hafter : (s.awaiting output pending op).afterCast = false :=
    State.afterCast_succ rfl rfl hc
  obtain ⟨s', e, hrun, hcarries⟩ := ih tb rest (s.awaiting output pending op) htb
    (State.awaits_awaiting hop hc hbase) hsize hbars hrest (by rw [hafter]; exact hgrabs)
  exact ⟨s', e, (run_cons (by rw [hnext]; exact hstep next)).trans hrun, hcarries⟩

/-! ### Leaves and operators in front of an operand -/

/-- A leaf is put on the output. -/
theorem recovers_atom (a : Atom) (l : Location) : Recovers (.atom a l) := by
  intro ts rest s hts hs hsize hbars hrest hgrabs
  obtain ⟨⟨x, l'⟩, ts, rfl, rfl, hnil⟩ := List.map_eq_cons_iff.mp hts
  obtain rfl := List.map_eq_nil_iff.mp hnil
  refine ⟨_, .atom a l', run_cons rfl, ?_⟩
  exact
    { tree := rfl
      frames := rfl
      index := Nat.lt_succ_self _
      casts := ⟨Nat.le_succ _, .inl rfl⟩
      closed := fun j hj => Nat.succ_lt_succ (hs.castClose j hj)
      previous := ⟨_, rfl, rfl⟩
      reduces := ⟨[], rfl, rfl, by simp⟩ }

/-- An operator in front of an operand that makes a node of its own. -/
theorem recovers_pre {op : PrefixOp} (hv : v.Grouped) (ih : Recovers v)
    (hop : (Action.pre op).isPrefixed) (hsizeof : op ≠ .sizeof)
    (hleft : v.StaysBehind op.precedence)
    (hprinted : t.printed = .op (Operator.pre op).generic :: v.printed)
    (hnode : ∀ e l, e.unplaced = v.reprint → ∃ node, prefixNode op e l = .ok node ∧
      isMarkerNode node = false ∧ node.unplaced = t.reprint)
    (hedge : t.rightEdge = max (op.precedence : Int) v.rightEdge)
    (hstep : t.endsInStep = v.endsInStep) (hgrabs : ∀ c, t.grabs c = v.grabs false)
    (hcast : t.hasParenCast = v.hasParenCast) : Recovers t := by
  intro ts rest s hts hs hsize hbars hrest hgrab
  rw [hprinted] at hts
  obtain ⟨⟨x, l⟩, tb, rfl, rfl, htb⟩ := List.map_eq_cons_iff.mp hts
  have hwants : neighbour (.op (.pre op)) = .wanting := by cases op <;> rfl
  have hsize' : afterSizeof (⟨.pre op, l⟩ :: s.pending) = false := by simp [afterSizeof, hsizeof]
  obtain ⟨s', e, hrun, h⟩ := ih.behind hv (hs.step_pre hop l) hwants hs.castClose hs.base hsize'
    (bars_of_staysBehind hleft) htb (hstep ▸ hrest) (hgrabs _ ▸ hgrab)
  obtain ⟨node, hnode, hmarker, htree⟩ := hnode e l h.tree
  refine ⟨s', node, hrun, ?_⟩
  -- The operator stays pending: what follows decides when it is applied to its operand.
  refine h.apply (p := ⟨.pre op, l⟩) (c := false) rfl ⟨Nat.le_succ _, .inl rfl⟩ rfl ?_ ?_ htree
    hedge hstep hcast
  · exact (apply_pre hnode hs.base).trans (by rw [foldTernary_cons hmarker])
  · intro hq
    obtain rfl : op = .question := by simpa using hq
    simp [Action.isPrefixed] at hop

/-- A prefix operator waits for its operand, which stays behind it. -/
theorem recovers_prefixed {op : PrefixOp} (hop : op.isPlain = true ∨ op = .globalScope)
    (hv : v.Grouped) (ih : Recovers v) (hleft : v.StaysBehind op.precedence) :
    Recovers (.prefixed (.pre op) v l) := by
  have hcases : (Action.pre op).isPrefixed = true ∧ op ≠ .sizeof ∧
      (∀ e l, prefixNode op e l = .ok (.prefixed (.pre op) e l)) ∧
      ∀ e l, isMarkerNode (.prefixed (.pre op) e l) = false := by
    rcases hop with hop | rfl
    · cases op <;> first
        | exact ⟨rfl, by decide, fun _ _ => rfl, fun _ _ => rfl⟩
        | cases hop
    · exact ⟨rfl, by decide, fun _ _ => rfl, fun _ _ => rfl⟩
  obtain ⟨hfront, hsizeof, hnode, hmarker⟩ := hcases
  refine recovers_pre hv ih hfront hsizeof hleft rfl (fun e l htree => ?_) rfl rfl
    (fun _ => rfl) ?_
  · exact ⟨_, hnode e l, hmarker e l, by simp [unplaced, reprint, bracketSizeof, htree]⟩
  · exact hasParenCast_prefixed ..

/-- The word `throw` waits for its operand, which stays behind it. -/
theorem recovers_throw (hv : v.Grouped) (ih : Recovers v) (hleft : v.StaysBehind 15) :
    Recovers (.throw v l) := by
  have hfront : (Action.pre .throw).isPrefixed = true := rfl
  refine recovers_pre hv ih hfront (by decide) hleft rfl (fun e l htree => ?_) rfl rfl
    (fun _ => rfl) ?_
  · exact ⟨_, rfl, rfl, by simp [unplaced, reprint, bracketSizeof, htree]⟩
  · exact hasParenCast_throw ..

/-! ### Operators behind an operand -/

/-- A postfix operator finds its operand finished, unless that ends in a step that it would run
into. -/
theorem recovers_postfixed {op : PostfixOp} (ih : Recovers v) (hright : v.GivesWay 1)
    (hstep : v.endsInStep = false) : Recovers (.postfixed (.post op) v l) := by
  intro ts rest s hts hs hsize hbars hrest hgrabs
  obtain ⟨ta, lp, tail, rfl, hta, htail⟩ := exists_split hts
  obtain rfl := List.map_eq_nil_iff.mp htail
  have hedge : v.leftEdge ≤ 1 := leftEdge_le_of_givesWay hright
  obtain ⟨s₁, e, hrun, h⟩ := ih ta (⟨.op (Operator.post op).generic, lp⟩ :: rest) s hta hs hsize
    (hbars.mono hedge) (by simp [hstep]) hgrabs
  have hnext : ∀ n ∈ rest.head?.map Token.lexeme, isOperator n = true := by
    simpa [GoesOn] using hrest rfl
  have hpush := h.push (.post op) lp rfl (fun p hp => yields_of_givesWay hright (by simp) hp)
    fun top htop => hbars top htop (.post op) (Int.le_refl _) (by simp)
  have hnode : applyAll s.base [⟨.post op, lp⟩] (e :: s.output)
      = .ok (.mkPostfixed (.post op) e :: s.output) := by
    simp only [applyAll, apply, popOperand_cons hs.base]
    rfl
  refine ⟨s₁.awaiting (e :: s.output) (⟨.post op, lp⟩ :: s.pending) (.post op),
    .mkPostfixed (.post op) e, ?_, ?_⟩
  · rw [List.append_assoc, List.cons_append, List.nil_append, hrun]
    exact run_cons (step_op (h.settle_post hstep op lp _ hnext) hpush)
  · have hcast := hasParenCast_postfixed (.post op) v l
    exact
      { tree := by simp [mkPostfixed, unplaced, reprint, bracketSizeof, h.tree]
        frames := h.frames
        index := Nat.lt_succ_of_lt h.index
        casts := ⟨Nat.le_succ_of_le h.casts.index, hcast ▸ h.casts.castClose⟩
        closed := fun j hj => Nat.lt_succ_of_lt (h.closed j hj)
        previous := ⟨_, rfl, rfl⟩
        reduces := ⟨[⟨.post op, lp⟩], rfl, hnode,
          List.forall_mem_singleton.mpr ⟨Int.le_refl _, by simp⟩⟩ }

/-! ### Operators between two operands -/

/-- An operator behind a value, and its right operand. -/
theorem Carries.binary {a b : Expr} (h : Carries s s' a e) (op : BinaryOp) (l' : Location)
    (hright : a.GivesWay op.precedence) (hbars : Bars s.pending op.precedence)
    (hbase : s.base ≤ s.output.length) (hb : b.Grouped) (ih : Recovers b)
    (hleft : b.StaysBehind op.precedence) (hgrabs : b.grabs false = false)
    (htb : tb.map Token.lexeme = b.printed) (hrest : b.endsInStep = true → GoesOn rest) :
    ∃ s'' e', run s' (⟨.op (Operator.binary op).generic, l'⟩ :: (tb ++ rest)) = run s'' rest ∧
      e'.unplaced = b.reprint ∧
      Carries s s'' (.binary (.binary op) a b l) (.mkBinary op e e') := by
  -- The left operand is put together, and what was pending before it stays.
  have hpush := h.push (.binary op) l' rfl
    (fun p hp => yields_of_givesWay hright (by simp) hp)
    fun top htop => hbars top htop (.binary op) (Int.le_refl _) (by simp)
  have hbase' : s'.base ≤ (e :: s.output).length := by
    rw [h.base]
    exact Nat.le_succ_of_le hbase
  have hstep (next : Lexeme) : step s' ⟨.op (Operator.binary op).generic, l'⟩ (some next)
      = .ok (s'.awaiting (e :: s.output) (⟨.binary op, l'⟩ :: s.pending) (.binary op)) :=
    step_op (h.settle_binary op l' next) hpush
  obtain ⟨s'', e', hrun, h'⟩ := ih.behind hb hstep rfl h.castClose hbase' (by simp [afterSizeof])
    (bars_of_staysBehind hleft) htb hrest (by simp [hgrabs])
  have hcasts : Casts a.hasParenCast s
      (s'.awaiting (e :: s.output) (⟨.binary op, l'⟩ :: s.pending) (.binary op)) :=
    ⟨Nat.le_succ_of_le h.casts.index, h.casts.castClose⟩
  refine ⟨s'', e', hrun, h'.tree, ?_⟩
  refine h'.apply h.frames hcasts rfl (apply_binary hbase) (by simp) ?_ rfl rfl ?_
  · simp [mkBinary, unplaced, reprint, bracketSizeof, h.tree, h'.tree]
  · exact hasParenCast_binary ..

/-- An infix operator finds its left side finished and waits for the right one. -/
theorem recovers_binary {op : BinaryOp} {a b : Expr} (iha : Recovers a)
    (hright : a.GivesWay op.precedence) (hb : b.Grouped) (ihb : Recovers b)
    (hleft : b.StaysBehind op.precedence) (hgrabs : b.grabs false = false) :
    Recovers (.binary (.binary op) a b l) := by
  intro ts rest s hts hs hsize hbars hrest hgrab
  obtain ⟨ta, l', tb, rfl, hta, htb⟩ := exists_split hts
  have hoperator : isOperator (.op (Operator.binary op).generic) = true := by cases op <;> rfl
  obtain ⟨s₁, e₁, hrun₁, h₁⟩ := iha ta
    (⟨.op (Operator.binary op).generic, l'⟩ :: (tb ++ rest)) s hta hs hsize
    (hbars.mono (leftEdge_le_of_givesWay hright)) (fun _ => by simpa [GoesOn] using hoperator)
    hgrab
  obtain ⟨s₂, e₂, hrun₂, -, h₂⟩ := h₁.binary op l' hright hbars hs.base hb ihb hleft hgrabs htb
    hrest (l := l)
  refine ⟨s₂, _, ?_, h₂⟩
  rw [List.append_assoc, List.cons_append, hrun₁, hrun₂]

/-! ### Conditionals -/

/-- The first marker and the branch behind it. -/
theorem Carries.question {c : Expr} (h : Carries s s' c e) (hcheck : c.rightEdge ≤ 13)
    (hbars : Bars s.pending 14) (hbase : s.base ≤ s.output.length) (hv : v.Grouped)
    (ih : Recovers v) (hleft : v.leftEdge ≤ 14) (hgrabs : v.grabs false = false)
    (htb : tb.map Token.lexeme = v.printed) (hrest : v.endsInStep = true → GoesOn rest) :
    ∃ s₁ s₂ e', run s' (⟨.op (.pre .question), l⟩ :: (tb ++ rest)) = run s₂ rest ∧
      s₁.frames = s.frames ∧ s₁.pending = ⟨.pre .question, l⟩ :: s.pending ∧
      s₁.output = e :: s.output ∧ Casts c.hasParenCast s s₁ ∧ Carries s₁ s₂ v e' := by
  have hyield (p : Pending) (hp : (p.action.precedence : Int) ≤ c.rightEdge) :
      yields (.pre .question) p.action = true := by
    have hlt : p.action.precedence < 14 := by omega
    have hmarker : p.action.isMarker = false := by
      rw [Bool.eq_false_iff]
      intro hm
      exact Nat.ne_of_lt hlt (precedence_of_isMarker hm)
    exact yields_of_le (Nat.le_of_lt hlt) (fun heq => absurd heq (Nat.ne_of_lt hlt))
      fun _ => hmarker
  have hpush := h.push (.pre .question) l rfl hyield
    fun top htop => hbars top htop (.pre .question) (Int.le_refl _) (by simp)
  have hbase' : s'.base ≤ (e :: s.output).length := by
    rw [h.base]
    exact Nat.le_succ_of_le hbase
  have hstep (next : Lexeme) : step s' ⟨.op (.pre .question), l⟩ (some next)
      = .ok (s'.awaiting (e :: s.output) (⟨.pre .question, l⟩ :: s.pending) (.pre .question)) := by
    have hsettle : settle s' (.pre .question) l (some next) = .ok (.pre .question) := rfl
    exact step_op hsettle hpush
  obtain ⟨s₂, e', hrun, h'⟩ := ih.behind hv hstep rfl h.castClose hbase' (by simp [afterSizeof])
    ((bars_marker (.pre .question) rfl).mono hleft) htb hrest (by simp [hgrabs])
  exact ⟨s'.awaiting (e :: s.output) (⟨.pre .question, l⟩ :: s.pending) (.pre .question), s₂, e',
    hrun, h.frames, rfl, rfl, ⟨Nat.le_succ_of_le h.casts.index, h.casts.castClose⟩, h'⟩

/-- A colon behind the first branch finds its own `?`, and what follows completes the
conditional. -/
theorem Carries.colon {s₁ s₂ : State} {lq lc : Location} {c a e' : Expr} (h : Carries s₁ s₂ a e')
    (hcheck : e.unplaced = c.reprint) (hframes : s₁.frames = s.frames)
    (hpending : s₁.pending = ⟨.pre .question, lq⟩ :: s.pending)
    (houtput : s₁.output = e :: s.output) (hcasts : Casts c.hasParenCast s s₁)
    (hright : a.rightEdge ≤ 14) (hbase : s.base ≤ s.output.length) (hv : v.Grouped)
    (ih : Recovers v) (hleft : v.leftEdge ≤ 14) (hgrabs : v.grabs false = false)
    (htb : tb.map Token.lexeme = v.printed) (hrest : v.endsInStep = true → GoesOn rest) :
    ∃ s₃ e₃, run s₂ (⟨.op (.pre .colon), lc⟩ :: (tb ++ rest)) = run s₃ rest ∧
      Carries s s₃ (.ternary c a v l) e₃ := by
  have hprec : (Action.pre .colon).precedence = 14 := rfl
  have hbase₁ : s₁.base = s.base := by
    rw [State.base, hframes]
    rfl
  have hbase₂ : s₂.base = s.base := h.base.trans hbase₁
  obtain ⟨ops, hops_pending, hall, hops⟩ := h.reduces
  -- The branch is put together first; then the colon takes the `?` away and stops.
  have hfaster : applyFaster s₂.base (.pre .colon) s₂.pending s₂.output
      = .ok (s.pending, .prefixed (.pre .question) e' lq :: e :: s.output) := by
    have hroom : s.base ≤ (e :: s.output).length := Nat.le_succ_of_le hbase
    have hquestion : Build.apply s.base ⟨.pre .question, lq⟩ (e' :: e :: s.output)
        = .ok (.prefixed (.pre .question) e' lq :: e :: s.output) := by
      rw [apply_pre (show prefixNode .question e' lq = .ok _ from rfl) hroom]
      rfl
    rw [houtput] at hall
    rw [hops_pending, applyFaster_append
      (fun p hp => yields_of_le (by have := (hops p hp).1; omega) (fun _ => rfl) (by simp))
      (fun p hp hc => (hops p hp).2 hc.2) (by rw [hbase₂, ← hbase₁]; exact hall), hpending, hbase₂]
    simp [applyFaster, yields, hquestion, Action.precedence, PrefixOp.precedence, associativity,
      bind, Except.bind]
  have hpush : Build.push s₂ (.pre .colon) lc
      = .ok { s₂ with
          output := .prefixed (.pre .question) e' lq :: e :: s.output
          pending := ⟨.pre .colon, lc⟩ :: s.pending } := by
    simp [Build.push, Action.isPrefixed, hfaster, bind, Except.bind]
  have hbase₃ : s₂.base ≤ (Expr.prefixed (.pre .question) e' lq :: e :: s.output).length := by
    rw [hbase₂]
    exact Nat.le_succ_of_le (Nat.le_succ_of_le hbase)
  have hstep (next : Lexeme) : step s₂ ⟨.op (.pre .colon), lc⟩ (some next)
      = .ok (s₂.awaiting (.prefixed (.pre .question) e' lq :: e :: s.output)
          (⟨.pre .colon, lc⟩ :: s.pending) (.pre .colon)) := by
    have hsettle : settle s₂ (.pre .colon) lc (some next) = .ok (.pre .colon) := rfl
    exact step_op hsettle hpush
  obtain ⟨s₃, e₃, hrun, h₃⟩ := ih.behind hv hstep rfl h.castClose hbase₃ (by simp [afterSizeof])
    ((bars_marker (.pre .colon) rfl).mono hleft) htb hrest (by simp [hgrabs])
  -- The latest cast may be one in the condition or one in the first branch.
  have hcasts' : Casts (c.hasParenCast || a.hasParenCast) s
      (s₂.awaiting (.prefixed (.pre .question) e' lq :: e :: s.output)
        (⟨.pre .colon, lc⟩ :: s.pending) (.pre .colon)) :=
    have := hcasts.trans h.casts
    ⟨Nat.le_succ_of_le this.index, this.castClose⟩
  refine ⟨s₃, .ternary e e' e₃ e.location, hrun, ?_⟩
  refine h₃.apply (h.frames.trans hframes) hcasts' rfl (apply_colon hbase) (by simp) ?_ rfl rfl ?_
  · simp [unplaced, reprint, bracketSizeof, hcheck, h.tree, h₃.tree]
  · exact hasParenCast_ternary ..

/-- The marks of a conditional wait one behind the other until the second branch has been read. -/
theorem recovers_ternary {c a b : Expr} (ihc : Recovers c) (hcheck : c.rightEdge ≤ 13)
    (ha : a.Grouped) (iha : Recovers a) (hleft : a.leftEdge ≤ 14) (hright : a.rightEdge ≤ 14)
    (hgrabs : a.grabs false = false) (hb : b.Grouped) (ihb : Recovers b)
    (hleft' : b.leftEdge ≤ 14) (hgrabs' : b.grabs false = false) :
    Recovers (.ternary c a b l) := by
  intro ts rest s hts hs hsize hbars hrest hgrab
  obtain ⟨tc, lq, tab, rfl, htc, htab⟩ := exists_split hts
  obtain ⟨ta, lc, tb, rfl, hta, htb⟩ := exists_split htab
  have hedge : c.leftEdge ≤ 14 := by
    have := leftEdge_le_rightEdge c
    omega
  obtain ⟨s₁, e₁, hrun₁, h₁⟩ := ihc tc
    (⟨.op (.pre .question), lq⟩ :: (ta ++ ⟨.op (.pre .colon), lc⟩ :: (tb ++ rest))) s htc hs hsize
    (hbars.mono hedge) (fun _ => by simp [GoesOn, isOperator]) hgrab
  have hcolon : a.endsInStep = true → GoesOn (⟨.op (.pre .colon), lc⟩ :: (tb ++ rest)) :=
    fun _ => by simp [GoesOn, isOperator]
  obtain ⟨s₂, s₃, e₂, hrun₂, hframes, hpending, houtput, hcasts, h₂⟩ := h₁.question hcheck hbars
    hs.base ha iha hleft hgrabs hta hcolon
  obtain ⟨s₄, e₄, hrun₄, h₄⟩ := h₂.colon h₁.tree hframes hpending houtput hcasts hright hs.base hb
    ihb hleft' hgrabs' htb hrest (l := l)
  refine ⟨s₄, e₄, ?_, h₄⟩
  simp only [List.append_assoc, List.cons_append]
  rw [hrun₁, hrun₂, hrun₄]

/-! ### Brackets that stand for themselves -/

/-- A value in round brackets; behind `sizeof` it may be a type. -/
theorem recovers_bracketed (hv : v.Grouped) (ih : Recovers v) (hstep : v.endsInStep = false)
    (hs : s.Awaits) (htype : v.vartype? = none ∨ afterSizeof s.pending = true)
    (hgrab : s.afterCast = true → v.hasParenCast = true → s.output = [])
    (hgrabs : v.grabs false = true → s.output = []) (hti : ti.map Token.lexeme = v.printed)
    (lo lc : Location) (rest : List Token) :
    ∃ s' e, run s (⟨.op (.opening .round), lo⟩ :: (ti ++ ⟨.op (.closing .round), lc⟩ :: rest))
        = run s' rest ∧ Carries s s' (.parens v l) e := by
  have hafter : (s.opened .round lo).afterCast = false :=
    State.afterCast_succ rfl rfl hs.castClose
  obtain ⟨s₁, e, hrun, h⟩ := ih ti (⟨.op (.closing .round), lc⟩ :: rest) (s.opened .round lo) hti
    (State.awaits_opened hs.castClose) rfl (bars_nil _) (by simp [hstep])
    (by rw [hafter]; exact hgrabs)
  have hne (l : Location) : e ≠ .empty l := by
    rintro rfl
    have hempty : true = v.isEmpty := isEmpty_of_reprint h.tree
    rw [hv.isEmpty_eq_false] at hempty
    cases hempty
  have hnode (s₂ : State) (hpending : s₂.pending = s.pending) :
      standAlone s₂ (s.frame .round lo) e
        = .ok { s₂ with output := .parens e lo :: s₂.output } := by
    have htype' := vartype?_of_reprint h.tree
    cases ht : v.vartype? with
    | none => exact standAlone_parens rfl hne (htype'.trans ht)
    | some type =>
      have hsizeof : afterSizeof s.pending = true := by simpa [ht] using htype
      rw [standAlone_type rfl (htype'.trans ht), hpending, hsizeof]
      rfl
  have hcast := hasParenCast_parens v l
  have htree : (Expr.parens e lo).unplaced = (Expr.parens v l).reprint := by
    simp [unplaced, reprint, bracketSizeof, h.tree]
  obtain ⟨s₂, hrun₂, h₂⟩ := h.surrounds.standing hs hgrab hnode htree hcast rfl lc rest
  refine ⟨s₂, _, ?_, h₂⟩
  rw [run_cons (step_opening s .round lo _), hrun, hrun₂]

/-- A bracket that encloses no type is a group. -/
theorem recovers_parens (hv : v.Grouped) (ih : Recovers v) (htype : v.vartype? = none)
    (hstep : v.endsInStep = false) : Recovers (.parens v l) := by
  intro ts rest s hts hs hsize hbars hrest hgrabs
  obtain ⟨⟨x, lo⟩, tic, rfl, rfl, htic⟩ := List.map_eq_cons_iff.mp hts
  obtain ⟨ti, lc, tail, rfl, hti, htail⟩ := exists_split htic
  obtain rfl := List.map_eq_nil_iff.mp htail
  simp only [grabs, Bool.or_eq_true, Bool.and_eq_true] at hgrabs
  obtain ⟨s', e, hrun, h⟩ := recovers_bracketed hv ih hstep hs (.inl htype)
    (fun hafter hcast => hgrabs (.inl ⟨hafter, hcast⟩)) (fun hinner => hgrabs (.inr hinner)) hti
    lo lc rest (l := l)
  refine ⟨s', e, ?_, h⟩
  simpa only [List.cons_append, List.append_assoc, List.nil_append] using hrun

/-- What `sizeof` measures is in brackets, whether it was or not. -/
theorem recovers_sizeof (hv : v.unbracketed.Grouped) (ih : Recovers v.unbracketed)
    (hstep : v.unbracketed.endsInStep = false) : Recovers (.sizeof v l) := by
  intro ts rest s hts hs hsize hbars hrest hgrabs
  rw [printed_sizeof] at hts
  obtain ⟨⟨x, l'⟩, tb, rfl, rfl, htb⟩ := List.map_eq_cons_iff.mp hts
  obtain ⟨⟨x, lo⟩, tic, rfl, rfl, htic⟩ := List.map_eq_cons_iff.mp htb
  obtain ⟨ti, lc, tail, rfl, hti, htail⟩ := exists_split htic
  obtain rfl := List.map_eq_nil_iff.mp htail
  have hgrabs : v.grabs false = true → s.output = [] := hgrabs
  have hawaits : (s.awaiting s.output (⟨.pre .sizeof, l'⟩ :: s.pending) (.pre .sizeof)).Awaits :=
    State.awaits_awaiting rfl hs.castClose hs.base
  have hafter : (s.awaiting s.output (⟨.pre .sizeof, l'⟩ :: s.pending)
      (.pre .sizeof)).afterCast = false := State.afterCast_succ rfl rfl hs.castClose
  obtain ⟨s', e, hrun, h⟩ := recovers_bracketed hv ih hstep hawaits (.inr rfl)
    (by simp [hafter]) (by rw [grabs_unbracketed]; exact hgrabs) hti lo lc rest (l := .none)
  refine ⟨s', .sizeof e l', ?_, ?_⟩
  · simp only [List.cons_append, List.append_assoc, List.nil_append]
    have hfront : (Action.pre .sizeof).isPrefixed = true := rfl
    exact (run_cons (hs.step_pre hfront l' _)).trans hrun
  · refine h.apply (p := ⟨.pre .sizeof, l'⟩) (c := false) rfl ⟨Nat.le_succ _, .inl rfl⟩ rfl
      ((apply_pre rfl hs.base).trans rfl) (by simp) ?_ rfl rfl ?_
    · rw [reprint_sizeof, unplaced, h.tree]
      simp [reprint, bracketSizeof, unplaced]
    · cases v <;> simp [unbracketed]

/-! ### Conversions with their type in brackets -/

/-- The state behind a type in round brackets. -/
def State.behindCast (s : State) (t : Vartype) (l : Location) : State :=
  { s with
    pending := ⟨.cast t, l⟩ :: s.pending
    index := s.index + 3
    previous := some (.op (.closing .round))
    castClose := some (s.index + 2) }

/-- The state behind the type itself, whose bracket is still open. -/
def State.insideCast (s : State) (t : Vartype) (lo la : Location) : State :=
  { s.opened .round lo with
    output := .atom t.atom la :: s.output
    index := s.index + 2
    previous := some (.atom t.atom) }

/-- A type alone in round brackets becomes a cast that waits, where `sizeof` does not ask for it. -/
theorem standAlone_insideCast (hsize : afterSizeof s.pending = false) (t : Vartype)
    (lo la : Location) (output : List Expr) :
    standAlone { s.insideCast t lo la with output, pending := s.pending, frames := s.frames }
        (s.frame .round lo) (.atom t.atom la)
      = .ok { s.insideCast t lo la with
          output
          pending := ⟨.cast t, lo⟩ :: s.pending
          frames := s.frames
          castClose := some (s.index + 2) } := by
  have hbracket : (s.frame .round lo).bracket = .round := rfl
  have htype : (Expr.atom t.atom la).vartype? = some t := t.vartype?_atom
  rw [standAlone_type hbracket htype, hsize]
  rfl

/-- The closing bracket of a cast takes the type off the output and leaves what stood below. -/
theorem close_insideCast (hs : s.Awaits) (hsize : afterSizeof s.pending = false) (t : Vartype)
    (lo la lc : Location) :
    close (s.insideCast t lo la) .round lc = .ok
      { s with
        pending := ⟨.cast t, lo⟩ :: s.pending
        index := s.index + 2
        previous := some (.atom t.atom)
        castClose := some (s.index + 2) } := by
  have hbracket : (s.frame .round lo).bracket = .round := rfl
  have hfollows := hs.followsValue .round lo
  have hframes : (s.insideCast t lo la).frames = s.frame .round lo :: s.frames := rfl
  have hcast : (s.insideCast t lo la).castClose = s.castClose := rfl
  have hall : applyAll (s.insideCast t lo la).base (s.insideCast t lo la).pending
      (s.insideCast t lo la).output = .ok (.atom t.atom la :: s.output) := rfl
  have hcontent : content (s.frame .round lo) (.atom t.atom la :: s.output)
      = .ok (.atom t.atom la, s.output) := by
    simp [content, show (s.frame .round lo).base = s.output.length from rfl]
  simp only [close, hall, hframes, hbracket, hcontent, hcast, hfollows, bind, Except.bind, ne_eq,
    not_true_eq_false, if_false]
  -- Nothing is called here, so a value below stays where it is.
  cases s.output with
  | nil => exact standAlone_insideCast hsize t lo la []
  | cons callee below => exact standAlone_insideCast hsize t lo la (callee :: below)

/-- The three tokens of a conversion leave a cast that waits for its operand: the bracket is closed
around a type, with no value in front. -/
theorem run_cast (hs : s.Awaits) (hsize : afterSizeof s.pending = false) (t : Vartype)
    (lo la lc : Location) (rest : List Token) :
    run s (⟨.op (.opening .round), lo⟩ :: ⟨.atom t.atom, la⟩ :: ⟨.op (.closing .round), lc⟩ :: rest)
      = run (s.behindCast t lo) rest := by
  have hatom (next : Option Lexeme) :
      step (s.opened .round lo) ⟨.atom t.atom, la⟩ next = .ok (s.insideCast t lo la) := rfl
  have hsettle (next : Option Lexeme) :
      settle (s.insideCast t lo la) (.closing .round) lc next = .ok (.closing .round) := rfl
  rw [run_cons (step_opening s .round lo _), run_cons (hatom _)]
  exact run_cons (step_op (hsettle _) (close_insideCast hs hsize t lo la lc))

/-- A conversion waits for its operand, which stays behind it. -/
theorem recovers_parenCast {t : Vartype} (ih : Recovers v) (hleft : v.StaysBehind 2) :
    Recovers (.cast .paren t v l) := by
  intro ts rest s hts hs hsize hbars hrest hgrabs
  obtain ⟨⟨x, lo⟩, tacb, rfl, rfl, htacb⟩ := List.map_eq_cons_iff.mp hts
  obtain ⟨⟨x, la⟩, tcb, rfl, rfl, htcb⟩ := List.map_eq_cons_iff.mp htacb
  obtain ⟨⟨x, lc⟩, tb, rfl, rfl, htb⟩ := List.map_eq_cons_iff.mp htcb
  have hafter : (s.behindCast t lo).afterCast = true := by
    simp [State.afterCast, State.behindCast]
  have hawaits : (s.behindCast t lo).Awaits :=
    { previous := .inl hafter
      castClose := by simp [State.behindCast]
      base := hs.base }
  obtain ⟨s', e, hrun, h⟩ := ih tb rest (s.behindCast t lo) htb hawaits rfl
    (bars_of_staysBehind hleft) hrest (by rw [hafter]; exact hgrabs)
  refine ⟨s', .cast .paren t e lo, ?_, ?_⟩
  · exact (run_cast hs hsize t lo la lc (tb ++ rest)).trans hrun
  · have hcasts : Casts true s (s.behindCast t lo) :=
      ⟨Nat.le_add_right _ _, .inr ⟨rfl, s.index + 2, rfl, Nat.le_add_right _ _⟩⟩
    refine h.apply (p := ⟨.cast t, lo⟩) rfl hcasts rfl ?_ (by simp) ?_ rfl rfl ?_
    · have hpop := popOperand_cons (l := lo) (e := e) hs.base
      simp only [apply, State.behindCast, hpop]
      rfl
    · simp [unplaced, reprint, bracketSizeof, h.tree]
    · simp

/-! ### Arguments -/

/-- Before a comma, an argument may count up or down. -/
theorem goesOn_more {a : Expr} {args : List Expr}
    (hts : ts.map Token.lexeme = printedMore (a :: args)) (rest : List Token) :
    GoesOn (ts ++ rest) := by
  obtain ⟨⟨x, l⟩, ts, rfl, rfl, hts⟩ := List.map_eq_cons_iff.mp hts
  simp [GoesOn, isOperator]

/-- An argument is followed by a comma, or it is the last one and no step. -/
theorem goesOn_args {a : Expr} {args : List Expr}
    (hlast : ∀ a' ∈ (a :: args).getLast?, a'.endsInStep = false)
    (hts : ts.map Token.lexeme = printedMore args) (rest : List Token)
    (ha : a.endsInStep = true) : GoesOn (ts ++ rest) := by
  cases args with
  | nil =>
    rw [hlast a (by simp)] at ha
    cases ha
  | cons a' args => exact goesOn_more hts rest

/-- The last of some arguments is the last of those behind the first. -/
theorem last_of_cons {a : Expr} {args : List Expr} {P : Expr → Prop}
    (h : ∀ a' ∈ (a :: args).getLast?, P a') : ∀ a' ∈ args.getLast?, P a' := by
  intro a' ha'
  refine h a' ?_
  rw [List.getLast?_cons]
  simp [Option.mem_def.mp ha']

/-- Further arguments extend the comma chain of those before. -/
theorem Carries.more {args : List Expr} (h : Carries s s' t e) (hbars : Bars s.pending 16)
    (hbase : s.base ≤ s.output.length)
    (hargs : ∀ a ∈ args, a.Grouped ∧ a.Argument ∧ Recovers a)
    (hlast : ∀ a ∈ args.getLast?, a.endsInStep = false)
    (hts : ts.map Token.lexeme = printedMore args) (rest : List Token) :
    ∃ (s'' : State) (es : List Expr), run s' (ts ++ rest) = run s'' rest ∧
      es.map unplaced = args.map reprint ∧
      Carries s s'' (args.foldl (mkBinary .comma) t) (es.foldl (mkBinary .comma) e) := by
  induction args generalizing s' t e ts with
  | nil =>
    obtain rfl := List.map_eq_nil_iff.mp hts
    exact ⟨s', [], rfl, rfl, h⟩
  | cons a args ih =>
    obtain ⟨⟨x, l⟩, tam, rfl, rfl, htam⟩ := List.map_eq_cons_iff.mp hts
    obtain ⟨ta, tm, rfl, hta, htm⟩ := List.map_eq_append_iff.mp htam
    obtain ⟨ha, harg, iha⟩ := hargs a (by simp)
    obtain ⟨s₁, e₁, hrun₁, htree, h₁⟩ := h.binary .comma l (givesWay_comma t) hbars hbase ha iha
      (.inl harg.edge) harg.grabs hta (goesOn_args hlast htm rest) (l := t.location)
    obtain ⟨s₂, es, hrun₂, hes, h₂⟩ := ih h₁ (fun a' ha' => hargs a' (List.mem_cons_of_mem a ha'))
      (last_of_cons hlast) htm
    refine ⟨s₂, e₁ :: es, ?_, by simp [htree, hes], h₂⟩
    rw [List.cons_append, List.append_assoc]
    exact hrun₁.trans hrun₂

/-- The arguments between two brackets. -/
theorem recovers_args {args : List Expr} {b : Bracket}
    (hargs : ∀ a ∈ args, a.Grouped ∧ a.leftEdge < 16 ∧ Recovers a)
    (hfirst : ∀ a ∈ args.head?, a.grabs false = true → s.output = [])
    (htail : ∀ a ∈ args.tail, a.grabs false = false)
    (hlast : ∀ a ∈ args.getLast?, a.endsInStep = false)
    (hc : ∀ j ∈ s.castClose, j < s.index) (hts : ts.map Token.lexeme = printedArgs args)
    (rest : List Token) :
    ∃ s' value, run (s.opened b l) (ts ++ rest) = run s' rest ∧
      Surrounds s s' b l value (args.any hasParenCast) ∧
      value.args.map unplaced = args.map reprint := by
  cases args with
  | nil =>
    obtain rfl := List.map_eq_nil_iff.mp hts
    exact ⟨s.opened b l, .empty l, rfl, surrounds_opened hc, rfl⟩
  | cons a args =>
    obtain ⟨ta, tm, rfl, hta, htm⟩ := List.map_eq_append_iff.mp hts
    obtain ⟨ha, hedge, iha⟩ := hargs a (by simp)
    have hafter : (s.opened b l).afterCast = false := State.afterCast_succ rfl rfl hc
    have hawaits : (s.opened b l).Awaits := State.awaits_opened hc
    obtain ⟨s₁, e, hrun₁, h₁⟩ := iha ta (tm ++ rest) (s.opened b l) hta hawaits rfl (bars_nil _)
      (goesOn_args hlast htm rest) (by rw [hafter]; exact hfirst a rfl)
    have hmore : ∀ a' ∈ args, a'.Grouped ∧ a'.Argument ∧ Recovers a' := by
      intro a' ha'
      obtain ⟨hg, hedge', hrec⟩ := hargs a' (List.mem_cons_of_mem a ha')
      exact ⟨hg, ⟨hedge', htail a' ha'⟩, hrec⟩
    obtain ⟨s₂, es, hrun₂, hes, h₂⟩ := h₁.more (bars_nil _) hawaits.base hmore
      (last_of_cons hlast) htm rest
    have hsurrounds := h₂.surrounds
    rw [hasParenCast_commas] at hsurrounds
    -- The commas between the arguments are taken apart again into the list that was printed.
    refine ⟨s₂, _, ?_, hsurrounds, ?_⟩
    · rw [List.append_assoc, hrun₁, hrun₂]
    · have hedge' : e.leftEdge < 16 := by
        rw [leftEdge_of_reprint h₁.tree]
        exact hedge
      have hne : e.isEmpty = false := by
        rw [isEmpty_of_reprint h₁.tree]
        exact ha.isEmpty_eq_false
      rw [Expr.args, argsBefore_foldl, List.append_nil, argsBefore_of_leftEdge hedge' hne]
      simp [h₁.tree, hes]

/-- A curly bracket lists the entries of a tuple. -/
theorem recovers_tuple {args : List Expr}
    (hargs : ∀ a ∈ args, a.Grouped ∧ a.leftEdge < 16 ∧ Recovers a)
    (hgrabs : ∀ a ∈ args.tail, a.grabs false = false)
    (hstep : ∀ a ∈ args.getLast?, a.endsInStep = false) : Recovers (.tuple args l) := by
  intro ts rest s hts hs hsize hbars hrest hgrab
  obtain ⟨⟨x, lo⟩, tic, rfl, rfl, htic⟩ := List.map_eq_cons_iff.mp hts
  obtain ⟨ti, lc, tail, rfl, hti, htail⟩ := exists_split htic
  obtain rfl := List.map_eq_nil_iff.mp htail
  -- A cast among the entries, or a first entry that takes what is before it, needs an empty output.
  have hgrab' : (s.afterCast = true → args.any hasParenCast = true → s.output = []) ∧
      ∀ a ∈ args.head?, a.grabs false = true → s.output = [] := by
    cases args with
    | nil => simp
    | cons a args =>
      simp only [grabs, Bool.or_eq_true, Bool.and_eq_true] at hgrab
      refine ⟨fun hafter hcast => hgrab (.inl ⟨hafter, hcast⟩), fun a' ha' hinner => ?_⟩
      obtain rfl : a = a' := by simpa using ha'
      exact hgrab (.inr hinner)
  obtain ⟨s₁, value, hrun₁, h₁, hvalue⟩ := recovers_args (b := .curly) (l := lo) hargs hgrab'.2
    hgrabs hstep hs.castClose hti (⟨.op (.closing .curly), lc⟩ :: rest)
  have htree : (Expr.tuple value.args lo).unplaced = (Expr.tuple args l).reprint := by
    rw [unplaced, unplacedArgs_eq_map, hvalue, reprint, bracketSizeof, unplaced, map_reprint]
  have hcast := hasParenCast_tuple args l
  obtain ⟨s₂, hrun₂, h₂⟩ := h₁.standing hs hgrab'.1 (fun s₂ _ => standAlone_tuple rfl) htree hcast
    rfl lc rest
  refine ⟨s₂, _, ?_, h₂⟩
  simp only [List.cons_append, List.append_assoc, List.nil_append]
  rw [run_cons (step_opening s .curly lo _), hrun₁, hrun₂]

/-! ### Brackets behind a value -/

/-- A value and the bracket behind it; `inner` reads what stands in the bracket. -/
theorem recovers_attached {f : Expr} {b : Bracket} {xs : List Lexeme} {c : Bool}
    (ih : Recovers f) (hcallee : f.rightEdge < 0)
    (hprinted : t.printed = f.printed ++ .op (.opening b) :: (xs ++ [.op (.closing b)]))
    (hedge : t.leftEdge = -1) (hstep : t.endsInStep = false)
    (hgrabs : ∀ c, t.grabs c = f.grabs c) (hcast : t.hasParenCast = (f.hasParenCast || c))
    (inner : ∀ (ti rest : List Token) (lo : Location) (s₀ s : State) (callee : Expr),
      ti.map Token.lexeme = xs → Carries s₀ s f callee →
      ∃ s' value node, run (s.opened b lo) (ti ++ rest) = run s' rest ∧
        Surrounds s s' b lo value c ∧ attach (s.frame b lo) callee value = .ok [node] ∧
        node.unplaced = t.reprint) : Recovers t := by
  intro ts rest s hts hs hsize hbars hrest hgrab
  rw [hprinted] at hts
  obtain ⟨tf, lo, tic, rfl, htf, htic⟩ := exists_split hts
  obtain ⟨ti, lc, tail, rfl, hti, htail⟩ := exists_split htic
  obtain rfl := List.map_eq_nil_iff.mp htail
  have hleft : f.leftEdge ≤ t.leftEdge := by
    have := leftEdge_le_rightEdge f
    omega
  obtain ⟨s₁, callee, hrun₁, h₁⟩ := ih tf
    (⟨.op (.opening b), lo⟩ :: (ti ++ ⟨.op (.closing b), lc⟩ :: rest)) s htf hs hsize
    (hbars.mono hleft) (by simp [endsInStep_of_rightEdge hcallee]) (hgrabs _ ▸ hgrab)
  obtain ⟨s₂, value, node, hrun₂, h₂, hattach, htree⟩ := inner ti
    (⟨.op (.closing b), lc⟩ :: rest) lo s s₁ callee hti h₁
  -- A callee with no operator at its end lies on the output, where the bracket looks for it.
  obtain ⟨s₃, hrun₃, h₃⟩ := h₂.attached h₁ hcallee hattach htree hcast hstep lc rest
  refine ⟨s₃, node, ?_, h₃⟩
  simp only [List.append_assoc, List.cons_append, List.nil_append]
  rw [hrun₁, run_cons (step_opening s₁ b lo _), hrun₂, hrun₃]

/-- Arguments that stand behind a value take no value before them. -/
theorem recovers_argList {args : List Expr} {b : Bracket}
    (hargs : ∀ a ∈ args, a.Grouped ∧ a.Argument ∧ Recovers a)
    (hlast : ∀ a ∈ args.getLast?, a.endsInStep = false)
    (hc : ∀ j ∈ s.castClose, j < s.index) (hts : ts.map Token.lexeme = printedArgs args)
    (rest : List Token) :
    ∃ s' value, run (s.opened b l) (ts ++ rest) = run s' rest ∧
      Surrounds s s' b l value (args.any hasParenCast) ∧
      value.args.map unplaced = args.map reprint := by
  refine recovers_args (fun a ha => ⟨(hargs a ha).1, (hargs a ha).2.1.edge, (hargs a ha).2.2⟩)
    (fun a ha hgrabs => ?_) (fun a ha => (hargs a (List.mem_of_mem_tail ha)).2.1.grabs) hlast hc
    hts rest
  rw [(hargs a (List.mem_of_mem_head? ha)).2.1.grabs] at hgrabs
  cases hgrabs

/-- A round bracket behind a value lists the arguments of a call, unless the value is a type with
one argument. -/
theorem recovers_call {f : Expr} {args : List Expr} (ih : Recovers f) (hcallee : f.rightEdge < 0)
    (htype : f.vartype? = none ∨ args.length ≠ 1)
    (hargs : ∀ a ∈ args, a.Grouped ∧ a.Argument ∧ Recovers a)
    (hlast : ∀ a ∈ args.getLast?, a.endsInStep = false) : Recovers (.call f args l) := by
  have hcast := hasParenCast_call f args l
  refine recovers_attached ih hcallee rfl rfl rfl (fun _ => rfl) hcast
    fun ti rest lo s₀ s callee hti h => ?_
  obtain ⟨s', value, hrun, hsurrounds, hvalue⟩ := recovers_argList (b := .round) (l := lo) hargs
    hlast h.castClose hti rest
  refine ⟨s', value, .call callee value.args callee.location, hrun, hsurrounds, ?_, ?_⟩
  · have htype' := vartype?_of_reprint h.tree
    have hlength : value.args.length = args.length := by
      simpa using congrArg List.length hvalue
    -- A type would take a single argument for its operand.
    cases ht : callee.vartype? with
    | none => simp [attach, State.frame, ht]
    | some type =>
      have hargs : args.length ≠ 1 := by
        rcases htype with hnone | hargs
        · rw [← htype', ht] at hnone
          cases hnone
        · exact hargs
      rcases hvalues : value.args with _ | ⟨x, _ | ⟨y, rest⟩⟩
      · simp [attach, State.frame, ht, hvalues]
      · rw [hvalues] at hlength
        exact absurd hlength.symm hargs
      · simp [attach, State.frame, ht, hvalues]
  · rw [unplaced, unplacedArgs_eq_map, hvalue, h.tree]
    simp [reprint, bracketSizeof, unplaced, unplacedArgs_eq_map, bracketSizeofs_eq_map,
      Function.comp_def]

/-- A round bracket with one value behind a type is a conversion. -/
theorem recovers_functionCast {t : Vartype} (hv : v.Grouped) (ih : Recovers v) (harg : v.Argument)
    (hstep : v.endsInStep = false) : Recovers (.cast .function t v l) := by
  have hprinted : (Expr.cast .function t v l).printed = (Expr.atom t.atom l).printed ++
      .op (.opening .round) :: (printedArgs [v] ++ [.op (.closing .round)]) := by
    simp [printed, printedArgs, printedMore]
  have hcast : (Expr.cast .function t v l).hasParenCast
      = ((Expr.atom t.atom l).hasParenCast || [v].any hasParenCast) := by
    simp
  refine recovers_attached (recovers_atom t.atom l) (by simp [rightEdge]) hprinted rfl rfl
    (fun _ => rfl) hcast fun ti rest lo s₀ s callee hti h => ?_
  obtain ⟨s', value, hrun, hsurrounds, hvalue⟩ := recovers_argList (b := .round) (l := lo)
    (List.forall_mem_singleton.mpr ⟨hv, harg, ih⟩) (by simp [hstep]) h.castClose hti rest
  obtain ⟨e, hargs, htree⟩ := List.map_eq_singleton_iff.mp hvalue
  have ht : callee.vartype? = some t := (vartype?_of_reprint h.tree).trans t.vartype?_atom
  refine ⟨s', value, .cast .function t e callee.location, hrun, hsurrounds, ?_, ?_⟩
  · simp [attach, State.frame, ht, hargs]
  · simp [unplaced, reprint, bracketSizeof, htree]

/-- A square bracket behind a value is a subscript. -/
theorem recovers_subscript {i : Expr} (ih : Recovers v) (hcallee : v.rightEdge < 0)
    (ihi : Recovers i) (hgrabs : i.grabs false = false) (hstep : i.endsInStep = false) :
    Recovers (.subscript v i l) := by
  have hcast := hasParenCast_subscript v i l
  refine recovers_attached ih hcallee rfl rfl rfl (fun _ => rfl) hcast
    fun ti rest lo s₀ s callee hti h => ?_
  have hafter : (s.opened .square lo).afterCast = false :=
    State.afterCast_succ rfl rfl h.castClose
  obtain ⟨s', e, hrun, h'⟩ := ihi ti rest (s.opened .square lo) hti
    (State.awaits_opened h.castClose) rfl (bars_nil _) (by simp [hstep])
    (by simp [hafter, hgrabs])
  refine ⟨s', e, .subscript callee e callee.location, hrun, h'.surrounds, ?_, ?_⟩
  · simp [attach, State.frame]
  · simp [unplaced, reprint, bracketSizeof, h.tree, h'.tree]

/-- A square bracket may have nothing in it. -/
theorem recovers_element {l' : Location} (ih : Recovers v) (hcallee : v.rightEdge < 0) :
    Recovers (.subscript v (.empty l') l) := by
  have hcast : (Expr.subscript v (.empty l') l).hasParenCast = (v.hasParenCast || false) := by
    simp
  refine recovers_attached ih hcallee rfl rfl rfl (fun _ => rfl) hcast
    fun ti rest lo s₀ s callee hti h => ?_
  obtain rfl := List.map_eq_nil_iff.mp hti
  refine ⟨s.opened .square lo, .empty lo, .subscript callee (.empty lo) callee.location, rfl,
    surrounds_opened h.castClose, ?_, ?_⟩
  · simp [attach, State.frame]
  · simp [unplaced, reprint, bracketSizeof, h.tree]

/-- A launch bracket behind a value has two arguments. -/
theorem recovers_launch {k b n : Expr} (ih : Recovers k) (hcallee : k.rightEdge < 0)
    (hargs : ∀ a ∈ [b, n], a.Grouped ∧ a.Argument ∧ Recovers a) (hstep : n.endsInStep = false) :
    Recovers (.launch k b n l) := by
  have hprinted : (Expr.launch k b n l).printed = k.printed ++ .op (.opening .launch) ::
      (printedArgs [b, n] ++ [.op (.closing .launch)]) := by
    simp [printed, printedArgs, printedMore]
  have hcast : (Expr.launch k b n l).hasParenCast
      = (k.hasParenCast || [b, n].any hasParenCast) := by
    simp [Bool.or_assoc]
  refine recovers_attached ih hcallee hprinted rfl rfl (fun _ => rfl) hcast
    fun ti rest lo s₀ s callee hti h => ?_
  obtain ⟨s', value, hrun, hsurrounds, hvalue⟩ := recovers_argList (b := .launch) (l := lo) hargs
    (by simp [hstep]) h.castClose hti rest
  obtain ⟨e₁, es, hargs, htree₁, hes⟩ := List.map_eq_cons_iff.mp hvalue
  obtain ⟨e₂, rfl, htree₂⟩ := List.map_eq_singleton_iff.mp hes
  refine ⟨s', value, .launch callee e₁ e₂ callee.location, hrun, hsurrounds, ?_, ?_⟩
  · simp [attach, State.frame, hargs]
  · simp [unplaced, reprint, bracketSizeof, h.tree, htree₁, htree₂]

/-! ### All grouped trees -/

/-- By induction over the tree, one lemma for each sort of node. -/
theorem recovers {t : Expr} (ht : t.Grouped) : Recovers t := by
  induction ht with
  | atom a l => exact recovers_atom a l
  | prefixed hop hv hleft ih => exact recovers_prefixed hop hv ih hleft
  | postfixed hv hright hstep ih => exact recovers_postfixed ih hright hstep
  | binary ha hright hb hleft hgrabs iha ihb => exact recovers_binary iha hright hb ihb hleft hgrabs
  | ternary hc hcheck ha hleft hright hgrabs hb hleft' hgrabs' ihc iha ihb =>
    exact recovers_ternary ihc hcheck ha iha hleft hright hgrabs hb ihb hleft' hgrabs'
  | sizeof hv hstep ih => exact recovers_sizeof hv ih hstep
  | throw hv hleft ih => exact recovers_throw hv ih hleft
  | parenCast hv hleft ih => exact recovers_parenCast ih hleft
  | functionCast hv harg hstep ih => exact recovers_functionCast hv ih harg hstep
  | parens hv htype hstep ih => exact recovers_parens hv ih htype hstep
  | tuple hargs hedges hgrabs hstep ih =>
    exact recovers_tuple (fun a ha => ⟨hargs a ha, hedges a ha, ih a ha⟩) hgrabs hstep
  | call hf hcallee htype hargs hargs' hstep ihf ih =>
    exact recovers_call ihf hcallee htype (fun a ha => ⟨hargs a ha, hargs' a ha, ih a ha⟩) hstep
  | subscript hv hcallee hi hgrabs hstep ihv ihi =>
    exact recovers_subscript ihv hcallee ihi hgrabs hstep
  | element hv hcallee ih => exact recovers_element ih hcallee
  | launch hk hcallee hb hblocks ht hthreads hstep ihk ihb iht =>
    refine recovers_launch ihk hcallee (List.forall_mem_cons.mpr ⟨⟨hb, hblocks, ihb⟩, ?_⟩) hstep
    exact List.forall_mem_singleton.mpr ⟨ht, hthreads, iht⟩

end Build

/-- The printed tokens of a grouped tree are read as that tree, but for places and for the brackets
around the operands of `sizeof`. -/
theorem Expr.ofTokens_printed {t : Expr} {ts : List Token} (ht : t.Grouped)
    (hts : ts.map Token.lexeme = t.printed) :
    ∃ e, ofTokens ts = .ok e ∧ e.unplaced = t.reprint := by
  have hawaits : Build.State.initial.Awaits :=
    { previous := .inr (by simp [Build.State.initial])
      castClose := by simp [Build.State.initial]
      base := Nat.le_refl _ }
  obtain ⟨s, e, hrun, h⟩ := Build.recovers ht ts [] .initial hts hawaits rfl (Build.bars_nil _)
    (fun _ => by simp [Build.GoesOn]) fun _ => rfl
  rw [List.append_nil] at hrun
  obtain ⟨ops, hpending, hall, -⟩ := h.reduces
  have hfinish (start : Location) : Build.finish s start = .ok e := by
    have hbase : s.base = 0 := h.base
    have hall' : Build.applyAll 0 s.pending s.output = .ok [e] := by
      rw [hpending, ← hbase, h.base]
      exact (congrArg (Build.applyAll _ · _) (List.append_nil ops)).trans hall
    have hmarker : Build.isMarkerNode e = false := by
      rw [isMarkerNode_of_reprint h.tree]
      exact ht.isMarkerNode_eq_false
    rw [Build.finish_nil start h.frames, hbase, hall']
    simp [Except.bind, Build.foldTernary_cons hmarker, Build.conclude, hmarker]
  cases ts with
  | nil => exact absurd hts.symm ht.printed_ne_nil
  | cons token rest =>
    refine ⟨e, ?_, h.tree⟩
    show (Build.run .initial (token :: rest)).bind (Build.finish · token.location) = _
    rw [hrun]
    exact hfinish token.location

end KernelTree
