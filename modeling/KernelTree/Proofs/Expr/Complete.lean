import KernelTree.Proofs.Expr.Pending

/-!
# Normal forms are read back

The builder turns the tokens of a tree in normal form into that tree (`Expr.ofTokens_placed`). The
induction is on the tree: `Build.Reads` says what its tokens do to any state that wants an operand,
with one lemma for each kind of node.
-/

namespace KernelTree

namespace Build

/-- From every state that wants an operand and whose pending operators the tree does not disturb,
the tokens of the tree lead to a state that holds it. -/
def Reads (t : Expr) : Prop :=
  ∀ (ts rest : List Token) (s : State), ts.map Token.lexeme = t.lexemes → s.WantsOperand →
    Bars s.pending t.level →
    ∃ s', run s (ts ++ rest) = run s' rest ∧ Holds s s' (t.placed ts) t.level

variable {s s' : State} {ts tb rest : List Token} {e v : Expr} {level : Int}

/-- A token with the tokens of a tree behind it has something behind it. -/
theorem exists_next {xs : List Lexeme} (hne : xs ≠ []) (h : tb.map Token.lexeme = xs)
    (rest : List Token) : ∃ next, (tb ++ rest).head?.map Token.lexeme = some next := by
  cases tb with
  | nil => exact absurd h.symm hne
  | cons t tb => exact ⟨t.lexeme, rfl⟩

/-- An operator that leaves the builder waiting for an operand, and the operand behind it. -/
theorem Reads.behind {x : Lexeme} {l : Location} {op : Operator} {output : List Expr}
    {pending : List Pending} (ih : Reads v) (hv : v.NormalForm)
    (hstep : ∀ next, step s ⟨x, l⟩ (some next) = .ok (s.awaiting output pending op))
    (hop : neighbour (.op op) = .wanting) (hc : s.castClose = none)
    (hbase : s.base ≤ output.length) (hbars : Bars pending v.level)
    (htb : tb.map Token.lexeme = v.lexemes) (rest : List Token) :
    ∃ s', run s (⟨x, l⟩ :: (tb ++ rest)) = run s' rest ∧
      Holds (s.awaiting output pending op) s' (v.placed tb) v.level := by
  obtain ⟨next, hnext⟩ := exists_next hv.lexemes_ne_nil htb rest
  obtain ⟨s', hrun, hholds⟩ := ih tb rest (s.awaiting output pending op) htb
    (State.wantsOperand_awaiting op hop hc hbase) hbars
  refine ⟨s', ?_, hholds⟩
  exact (run_cons (by rw [hnext]; exact hstep next)).trans hrun

/-! ### Leaves and operators in front of an operand -/

/-- A leaf is put on the output. -/
theorem reads_atom {a : Atom} {l : Location} : Reads (.atom a l) := by
  intro ts rest s hts hs hbars
  obtain ⟨⟨x, l'⟩, ts, rfl, rfl, hnil⟩ := List.map_eq_cons_iff.mp hts
  obtain rfl := List.map_eq_nil_iff.mp hnil
  refine ⟨_, run_cons rfl, ?_⟩
  exact
    { frames := rfl
      castClose := hs.castClose
      index := Nat.succ_ne_zero _
      previous := ⟨_, rfl, rfl⟩
      reduces := ⟨[], rfl, rfl, by simp⟩ }

/-- An operator in front of an operand: `node` is what it makes of the operand. -/
theorem reads_pre (op : PrefixOp) {l : Location} {node : Expr} (hv : v.NormalForm)
    (ih : Reads v) (hop : (Action.pre op).isPrefixed) (hlevel : v.level ≤ op.precedence)
    (hassoc : associativity op.precedence = .right) (hs : s.WantsOperand)
    (htb : tb.map Token.lexeme = v.lexemes) (hnode : prefixNode op (v.placed tb) l = .ok node)
    (hmarker : isMarkerNode node = false) (rest : List Token) :
    ∃ s', run s (⟨.op (Operator.pre op).generic, l⟩ :: (tb ++ rest)) = run s' rest ∧
      Holds s s' node op.precedence := by
  have hwants : neighbour (.op (.pre op)) = .wanting := by cases op <;> rfl
  obtain ⟨s', hrun, hholds⟩ := ih.behind hv (step_pre hs hop l) hwants hs.castClose hs.base
    (bars_of_right hlevel hassoc) htb rest
  refine ⟨s', hrun, ?_⟩
  -- The operator stays pending: what follows decides when it is applied to its operand.
  refine hholds.apply (p := ⟨.pre op, l⟩) rfl rfl ?_ hlevel (Int.le_refl _) ?_
  · exact (apply_pre hnode hs.base).trans (by rw [foldTernary_cons hmarker])
  · intro hq
    obtain rfl : op = .question := by simpa using hq
    simp [Action.isPrefixed] at hop

/-- A prefix operator waits for its operand. -/
theorem reads_prefixed {op : PrefixOp} {l : Location} (hop : op.isPlain) (hv : v.NormalForm)
    (ih : Reads v) (hlevel : v.level ≤ 2) : Reads (.prefixed (.pre op) v l) := by
  intro ts rest s hts hs hbars
  obtain ⟨⟨x, l'⟩, tb, rfl, rfl, htb⟩ := List.map_eq_cons_iff.mp hts
  have hprec : op.precedence = 2 := by
    cases op <;> first | rfl | cases hop
  have hprefix : (Action.pre op).isPrefixed := by
    cases op <;> first | rfl | cases hop
  have hnode : prefixNode op (v.placed tb) l' = .ok (.prefixed (.pre op) (v.placed tb) l') := by
    cases op <;> first | rfl | cases hop
  have hmarker : isMarkerNode (.prefixed (.pre op) (v.placed tb) l') = false := by
    cases op <;> first | rfl | cases hop
  obtain ⟨s', hrun, hholds⟩ := reads_pre op hv ih hprefix (by rw [hprec]; exact hlevel)
    (by rw [hprec]; rfl) hs htb hnode hmarker rest
  rw [hprec] at hholds
  exact ⟨s', hrun, hholds⟩

/-- The word `sizeof` waits for its operand like a prefix operator. -/
theorem reads_sizeof {l : Location} (hv : v.NormalForm) (ih : Reads v) (hlevel : v.level ≤ 2) :
    Reads (.sizeof v l) := by
  intro ts rest s hts hs hbars
  obtain ⟨⟨x, l'⟩, tb, rfl, rfl, htb⟩ := List.map_eq_cons_iff.mp hts
  exact reads_pre .sizeof hv ih rfl hlevel rfl hs htb rfl rfl rest

/-- The word `throw` waits for its operand like a prefix operator. -/
theorem reads_throw {l : Location} (hv : v.NormalForm) (ih : Reads v) (hlevel : v.level ≤ 15) :
    Reads (.throw v l) := by
  intro ts rest s hts hs hbars
  obtain ⟨⟨x, l'⟩, tb, rfl, rfl, htb⟩ := List.map_eq_cons_iff.mp hts
  exact reads_pre .throw hv ih rfl hlevel rfl hs htb rfl rfl rest

/-! ### Operators between two operands -/

/-- An operator behind a value, and its right operand. -/
theorem Holds.binary (h : Holds s s' e level) (op : BinaryOp) (l : Location)
    (hleft : level ≤ op.precedence)
    (hassoc : level = op.precedence → associativity op.precedence = .left)
    (hbars : Bars s.pending op.precedence) (hbase : s.base ≤ s.output.length)
    (hv : v.NormalForm) (ih : Reads v) (hright : v.level ≤ op.precedence)
    (hinner : Bars (⟨.binary op, l⟩ :: s.pending) v.level)
    (htb : tb.map Token.lexeme = v.lexemes) (rest : List Token) :
    ∃ s'', run s' (⟨.op (Operator.binary op).generic, l⟩ :: (tb ++ rest)) = run s'' rest ∧
      Holds s s'' (.mkBinary op e (v.placed tb)) op.precedence := by
  have hprec : (Action.binary op).precedence = op.precedence := rfl
  -- The left operand is put together, and what was pending before it stays.
  have hpush := h.push (.binary op) l rfl
    (fun p hp hq => yields_of_le (by omega) (fun heq => hassoc (by omega)) (by simp))
    (fun top htop => hbars top htop (.binary op) (Int.le_refl _) (by simp))
  have hbase' : s'.base ≤ (e :: s.output).length := by
    rw [h.base]
    exact Nat.le_succ_of_le hbase
  have hstep (next : Lexeme) : step s' ⟨.op (Operator.binary op).generic, l⟩ (some next)
      = .ok (s'.awaiting (e :: s.output) (⟨.binary op, l⟩ :: s.pending) (.binary op)) :=
    step_op (h.settle_binary op l next) hpush
  obtain ⟨s'', hrun, hholds⟩ := ih.behind hv hstep rfl h.castClose hbase' hinner htb rest
  refine ⟨s'', hrun, ?_⟩
  exact hholds.apply h.frames rfl (apply_binary hbase) hright (Int.le_refl _) (by simp)

/-- An infix operator applies what its left side left pending and waits for the right one. -/
theorem reads_binary {op : BinaryOp} {a b : Expr} {l : Location} (ha : Reads a)
    (hleft : a.level ≤ op.precedence)
    (hassoc : a.level = op.precedence → associativity op.precedence = .left)
    (hb : b.NormalForm) (ihb : Reads b) (hright : b.level ≤ op.precedence)
    (hinner : ∀ (l : Location) (pending : List Pending),
      Bars (⟨.binary op, l⟩ :: pending) b.level) : Reads (.binary (.binary op) a b l) := by
  intro ts rest s hts hs hbars
  obtain ⟨ta, l', tb, rfl, hta, htb⟩ := Expr.exists_split hts
  obtain ⟨s₁, hrun₁, h₁⟩ := ha ta (⟨.op (Operator.binary op).generic, l'⟩ :: (tb ++ rest)) s hta
    hs (hbars.mono hleft)
  obtain ⟨s₂, hrun₂, h₂⟩ := h₁.binary op l' hleft hassoc hbars hs.base hb ihb hright
    (hinner l' _) htb rest
  refine ⟨s₂, ?_, ?_⟩
  · simpa only [List.append_assoc, List.cons_append] using hrun₁.trans hrun₂
  · rw [Expr.placed, Expr.take_append_of_lexemes hta, Expr.drop_append_of_lexemes hta]
    exact h₂

/-! ### Conditionals -/

/-- The first marker and the branch behind it. -/
theorem Holds.question {l : Location} (h : Holds s s' e level) (hcheck : level ≤ 13)
    (hbars : Bars s.pending 14) (hbase : s.base ≤ s.output.length) (hv : v.NormalForm)
    (ih : Reads v) (htrue : v.level ≤ 14) (htb : tb.map Token.lexeme = v.lexemes)
    (rest : List Token) :
    ∃ s₁ s₂, run s' (⟨.op (.pre .question), l⟩ :: (tb ++ rest)) = run s₂ rest ∧
      s₁.frames = s.frames ∧ s₁.pending = ⟨.pre .question, l⟩ :: s.pending ∧
      s₁.output = e :: s.output ∧ Holds s₁ s₂ (v.placed tb) v.level := by
  have hprec : (Action.pre .question).precedence = 14 := rfl
  have hyield (p : Pending) (hp : (p.action.precedence : Int) ≤ level) :
      yields (.pre .question) p.action = true := by
    have hlt : p.action.precedence < 14 := by omega
    have hmarker : p.action.isMarker = false := by
      rw [Bool.eq_false_iff]
      intro hm
      exact Nat.ne_of_lt hlt (precedence_of_isMarker hm)
    exact yields_of_le (Nat.le_of_lt hlt) (fun heq => absurd heq (Nat.ne_of_lt hlt))
      fun _ => hmarker
  have hpush := h.push (.pre .question) l rfl (fun p hp _ => hyield p hp)
    (fun top htop => hbars top htop (.pre .question) (by omega) (by simp))
  have hbase' : s'.base ≤ (e :: s.output).length := by
    rw [h.base]
    exact Nat.le_succ_of_le hbase
  have hstep (next : Lexeme) : step s' ⟨.op (.pre .question), l⟩ (some next)
      = .ok (s'.awaiting (e :: s.output) (⟨.pre .question, l⟩ :: s.pending) (.pre .question)) := by
    have hsettle : settle s' (.pre .question) l (some next) = .ok (.pre .question) := rfl
    exact step_op hsettle hpush
  obtain ⟨s₂, hrun, h₂⟩ := ih.behind hv hstep rfl h.castClose hbase'
    ((bars_marker (.pre .question) rfl).mono htrue) htb rest
  exact ⟨s'.awaiting (e :: s.output) (⟨.pre .question, l⟩ :: s.pending) (.pre .question), s₂,
    hrun, h.frames, rfl, rfl, h₂⟩

/-- A colon behind the first branch finds its own `?`, and what follows completes the
conditional. -/
theorem Holds.colon {s₁ s₂ : State} {l l' : Location} {a : Expr} (h : Holds s₁ s₂ a level)
    (hframes : s₁.frames = s.frames) (hpending : s₁.pending = ⟨.pre .question, l⟩ :: s.pending)
    (houtput : s₁.output = e :: s.output) (htrue : level ≤ 14) (hbase : s.base ≤ s.output.length)
    (hv : v.NormalForm) (ih : Reads v) (hfalse : v.level ≤ 14)
    (htb : tb.map Token.lexeme = v.lexemes) (rest : List Token) :
    ∃ s₃, run s₂ (⟨.op (.pre .colon), l'⟩ :: (tb ++ rest)) = run s₃ rest ∧
      Holds s s₃ (.ternary e a (v.placed tb) e.location) 14 := by
  have hprec : (Action.pre .colon).precedence = 14 := rfl
  have hbase₁ : s₁.base = s.base := by simp [State.base, hframes]
  have hbase₂ : s₂.base = s.base := h.base.trans hbase₁
  obtain ⟨ops, hops_pending, hall, hops⟩ := h.reduces
  -- The branch is put together first; then the colon takes the `?` away and stops.
  have hfaster : applyFaster s₂.base (.pre .colon) s₂.pending s₂.output
      = .ok (s.pending, .prefixed (.pre .question) a l :: e :: s.output) := by
    have hroom : s.base ≤ (e :: s.output).length := Nat.le_succ_of_le hbase
    have hquestion : Build.apply s.base ⟨.pre .question, l⟩ (a :: e :: s.output)
        = .ok (.prefixed (.pre .question) a l :: e :: s.output) := by
      rw [apply_pre (show prefixNode .question a l = .ok _ from rfl) hroom]
      rfl
    rw [houtput] at hall
    rw [hops_pending, applyFaster_append
      (fun p hp => yields_of_le (by have := (hops p hp).1; omega) (fun _ => rfl) (by simp))
      (fun p hp hc => (hops p hp).2 hc.2) (by rw [hbase₂, ← hbase₁]; exact hall), hpending, hbase₂]
    simp [applyFaster, yields, hquestion, Action.precedence, PrefixOp.precedence, associativity,
      bind, Except.bind]
  have hpush : Build.push s₂ (.pre .colon) l'
      = .ok { s₂ with
          output := .prefixed (.pre .question) a l :: e :: s.output
          pending := ⟨.pre .colon, l'⟩ :: s.pending } := by
    simp [Build.push, Action.isPrefixed, hfaster, bind, Except.bind]
  have hbase₃ : s₂.base ≤ (Expr.prefixed (.pre .question) a l :: e :: s.output).length := by
    rw [hbase₂]
    exact Nat.le_succ_of_le (Nat.le_succ_of_le hbase)
  have hstep (next : Lexeme) : step s₂ ⟨.op (.pre .colon), l'⟩ (some next)
      = .ok (s₂.awaiting (.prefixed (.pre .question) a l :: e :: s.output)
          (⟨.pre .colon, l'⟩ :: s.pending) (.pre .colon)) := by
    have hsettle : settle s₂ (.pre .colon) l' (some next) = .ok (.pre .colon) := rfl
    exact step_op hsettle hpush
  obtain ⟨s₃, hrun, h₃⟩ := ih.behind hv hstep rfl h.castClose hbase₃
    ((bars_marker (.pre .colon) rfl).mono hfalse) htb rest
  refine ⟨s₃, hrun, ?_⟩
  exact h₃.apply (h.frames.trans hframes) rfl (apply_colon hbase) hfalse (Int.le_refl _) (by simp)

/-- The two marks wait for the branches, and folding joins them with the check. -/
theorem reads_ternary {c a b : Expr} {l : Location} (hc : Reads c) (hcheck : c.level ≤ 13)
    (ha : a.NormalForm) (iha : Reads a) (htrue : a.level ≤ 14) (hb : b.NormalForm)
    (ihb : Reads b) (hfalse : b.level ≤ 14) : Reads (.ternary c a b l) := by
  intro ts rest s hts hs hbars
  obtain ⟨tc, lq, tab, rfl, htc, htab⟩ := Expr.exists_split hts
  obtain ⟨ta, lc, tb, rfl, hta, htb⟩ := Expr.exists_split htab
  obtain ⟨s₁, hrun₁, h₁⟩ := hc tc
    (⟨.op (.pre .question), lq⟩ :: (ta ++ ⟨.op (.pre .colon), lc⟩ :: (tb ++ rest))) s htc hs
    (hbars.mono (show c.level ≤ 14 by omega))
  obtain ⟨s₂, s₃, hrun₂, hframes, hpending, houtput, h₂⟩ :=
    h₁.question hcheck hbars hs.base ha iha htrue hta (⟨.op (.pre .colon), lc⟩ :: (tb ++ rest))
  obtain ⟨s₄, hrun₄, h₄⟩ :=
    h₂.colon hframes hpending houtput htrue hs.base hb ihb hfalse htb rest
  refine ⟨s₄, ?_, ?_⟩
  · simpa only [List.append_assoc, List.cons_append] using hrun₁.trans (hrun₂.trans hrun₄)
  · rw [Expr.placed, Expr.take_append_of_lexemes htc, Expr.drop_append_of_lexemes htc]
    simp only [List.tail_cons, Expr.take_append_of_lexemes hta, Expr.drop_append_of_lexemes hta]
    exact h₄

/-! ### Brackets -/

/-- What a bracket that opens in `s` keeps. -/
def State.frame (s : State) (b : Bracket) (l : Location) : Frame :=
  { bracket := b
    location := l
    before := if s.index = 0 then none else some (s.index - 1)
    afterValue := s.previous.any fun p => neighbour p = .value
    base := s.output.length
    outer := s.pending }

/-- The state behind an opening bracket. -/
def State.opened (s : State) (b : Bracket) (l : Location) : State :=
  { s with
    pending := []
    frames := s.frame b l :: s.frames
    index := s.index + 1
    previous := some (.op (.opening b)) }

variable {b : Bracket} {l : Location} {value : Expr}

/-- A bracket opens a frame. -/
theorem step_opening (s : State) (b : Bracket) (l : Location) (next : Option Lexeme) :
    step s ⟨.op (.opening b), l⟩ next = .ok (s.opened b l) := rfl

/-- Behind a bracket that opens an operand is wanted. -/
theorem State.wantsOperand_opened (hc : s.castClose = none) : (s.opened b l).WantsOperand where
  previous p hp := by
    obtain rfl : Lexeme.op (.opening b) = p := by simpa [State.opened] using hp
    exact .inl rfl
  castClose := hc
  base := Nat.le_refl _

/-- `value` is what has been read since the bracket that opened in `s`. -/
structure Encloses (s s' : State) (b : Bracket) (l : Location) (value : Expr) : Prop where
  frames : s'.frames = s.frame b l :: s.frames
  castClose : s'.castClose = none
  reduces : ∃ output, applyAll s'.base s'.pending s'.output = .ok output ∧
    content (s.frame b l) output = .ok (value, s.output)

/-- A bracket may enclose nothing. -/
theorem encloses_opened (hc : s.castClose = none) :
    Encloses s (s.opened b l) b l (.empty l) where
  frames := rfl
  castClose := hc
  reduces := ⟨s.output, rfl, by simp [content, State.frame]⟩

/-- What is held behind an opening bracket is enclosed by it. -/
theorem Holds.encloses (h : Holds (s.opened b l) s' e level) : Encloses s s' b l e where
  frames := h.frames
  castClose := h.castClose
  reduces := by
    obtain ⟨ops, hpending, hall, -⟩ := h.reduces
    refine ⟨e :: s.output, ?_, by simp [content, State.frame]⟩
    rw [h.base, hpending]
    simpa [State.opened] using hall

/-- With the bracket closed, its node is on the output of `s`. -/
theorem Encloses.closed {s₀ : State} {node : Expr} (h : Encloses s s' b l value) (l' : Location)
    (hclose : close s' b l' = .ok { s' with
      output := node :: s₀.output
      pending := s₀.pending
      frames := s₀.frames }) (rest : List Token) :
    ∃ s'', run s' (⟨.op (.closing b), l'⟩ :: rest) = run s'' rest ∧ Holds s₀ s'' node (-1) := by
  refine ⟨_, run_cons (step_op rfl hclose), ?_⟩
  exact
    { frames := rfl
      castClose := h.castClose
      index := Nat.succ_ne_zero _
      previous := ⟨_, rfl, rfl⟩
      reduces := ⟨[], rfl, rfl, by simp⟩ }

/-- A bracket that opened where an operand was wanted stands for itself. -/
theorem Encloses.standAlone {node : Expr} (h : Encloses s s' b l value) (hs : s.WantsOperand)
    (hnode : ∀ s', standAlone s' (s.frame b l) value = .ok { s' with output := node :: s'.output })
    (l' : Location) (rest : List Token) :
    ∃ s'', run s' (⟨.op (.closing b), l'⟩ :: rest) = run s'' rest ∧ Holds s s'' node (-1) := by
  obtain ⟨output, hall, hcontent⟩ := h.reduces
  -- Nothing that is a value stands before the bracket, so the output below it does not matter.
  have hvalue : (s.frame b l).afterValue = false := by
    cases hp : s.previous with
    | none => simp [State.frame, hp]
    | some p => rcases hs.previous p hp with hn | hn <;> simp [State.frame, hp, hn]
  have hb : (s.frame b l).bracket = b := rfl
  refine h.closed l' ?_ rest
  simp only [close, hall, h.frames, hb, hcontent, bind, Except.bind, Frame.followsValue, hvalue,
    Bool.false_and, ne_eq, not_true_eq_false, if_false]
  cases s.output with
  | nil => exact hnode _
  | cons callee rest => exact hnode _

/-- A bracket that opened behind a value is attached to it. -/
theorem Encloses.attach {s₀ : State} {node : Expr} (h : Encloses s s' b l value)
    (hs : Holds s₀ s e (-1)) (hnode : attach (s.frame b l) e value = .ok [node]) (l' : Location)
    (rest : List Token) :
    ∃ s'', run s' (⟨.op (.closing b), l'⟩ :: rest) = run s'' rest ∧ Holds s₀ s'' node (-1) := by
  obtain ⟨output, hall, hcontent⟩ := h.reduces
  obtain ⟨p, hp, hn⟩ := hs.previous
  obtain ⟨hpending, houtput⟩ := hs.of_neg (by omega)
  have hvalue : (s.frame b l).followsValue s'.castClose = true := by
    simp [Frame.followsValue, State.frame, hp, hn, hs.index, h.castClose]
  have hb : (s.frame b l).bracket = b := rfl
  have houter : (s.frame b l).outer = s₀.pending := hpending
  refine h.closed l' ?_ rest
  simp only [close, hall, h.frames, hb, hcontent, bind, Except.bind, houtput, hvalue, hnode, houter,
    hs.frames, ne_eq, not_true_eq_false, if_false]
  rfl

/-! ### Arguments -/

/-- Further arguments extend the comma chain of those before. -/
theorem Holds.more {args : List Expr} (h : Holds s s' e 16)
    (hargs : ∀ a ∈ args, a.NormalForm ∧ a.level < 16 ∧ Reads a) (hbars : Bars s.pending 16)
    (hbase : s.base ≤ s.output.length) (hts : ts.map Token.lexeme = Expr.moreLexemes args)
    (rest : List Token) :
    ∃ s'', run s' (ts ++ rest) = run s'' rest ∧
      Holds s s'' ((Expr.placedArgs args ts.tail).foldl (Expr.mkBinary .comma) e) 16 := by
  induction args generalizing s' e ts with
  | nil =>
    obtain rfl := List.map_eq_nil_iff.mp hts
    exact ⟨s', rfl, h⟩
  | cons a args ih =>
    obtain ⟨⟨x, l⟩, tam, rfl, rfl, htam⟩ := List.map_eq_cons_iff.mp hts
    obtain ⟨ta, tm, rfl, hta, htm⟩ := List.map_eq_append_iff.mp htam
    obtain ⟨ha, hlevel, iha⟩ := hargs a (by simp)
    obtain ⟨s₁, hrun₁, h₁⟩ := h.binary .comma l (Int.le_refl _) (fun _ => rfl) hbars
      hbase ha iha (Int.le_of_lt hlevel) (bars_of_lt hlevel) hta (tm ++ rest)
    obtain ⟨s₂, hrun₂, h₂⟩ := ih h₁ (fun a' ha' => hargs a' (List.mem_cons_of_mem a ha')) htm
    refine ⟨s₂, ?_, ?_⟩
    · rw [List.cons_append, List.append_assoc]
      exact hrun₁.trans hrun₂
    · rw [List.tail_cons, Expr.placedArgs, Expr.take_append_of_lexemes hta,
        Expr.drop_append_of_lexemes hta]
      exact h₂

/-- The arguments between two brackets. -/
theorem reads_args {args : List Expr}
    (hargs : ∀ a ∈ args, a.NormalForm ∧ a.level < 16 ∧ Reads a) (hc : s.castClose = none)
    (hts : ts.map Token.lexeme = Expr.argLexemes args) (rest : List Token) :
    ∃ s' value, run (s.opened b l) (ts ++ rest) = run s' rest ∧ Encloses s s' b l value ∧
      value.args = Expr.placedArgs args ts := by
  cases args with
  | nil =>
    obtain rfl := List.map_eq_nil_iff.mp hts
    exact ⟨s.opened b l, .empty l, rfl, encloses_opened hc, rfl⟩
  | cons a args =>
    obtain ⟨ta, tm, rfl, hta, htm⟩ := List.map_eq_append_iff.mp hts
    obtain ⟨ha, hlevel, iha⟩ := hargs a (by simp)
    have hwants := State.wantsOperand_opened (b := b) (l := l) hc
    obtain ⟨s₁, hrun₁, h₁⟩ := iha ta (tm ++ rest) (s.opened b l) hta hwants (bars_nil _)
    obtain ⟨s₂, hrun₂, h₂⟩ := (h₁.mono (Int.le_of_lt hlevel)).more
      (fun a' ha' => hargs a' (List.mem_cons_of_mem a ha')) (bars_nil _) hwants.base htm rest
    refine ⟨s₂, _, ?_, h₂.encloses, ?_⟩
    · simpa only [List.append_assoc] using hrun₁.trans hrun₂
    · rw [Expr.args, Expr.argsBefore_foldl, List.append_nil, ha.argsBefore_placed hlevel,
        Expr.placedArgs, Expr.take_append_of_lexemes hta, Expr.drop_append_of_lexemes hta]

/-! ### Bracketed nodes -/

/-- A bracket where an operand is wanted; `inner` reads what stands in it. -/
theorem reads_delimited {t : Expr} {xs : List Lexeme} (hlevel : t.level = -1)
    (hlexemes : t.lexemes = .op (.opening b) :: (xs ++ [.op (.closing b)]))
    (inner : ∀ (ti : List Token) (lo lc : Location) (s : State) (rest : List Token),
      ti.map Token.lexeme = xs → s.castClose = none →
      ∃ s' value, run (s.opened b lo) (ti ++ rest) = run s' rest ∧ Encloses s s' b lo value ∧
        ∀ s', standAlone s' (s.frame b lo) value
          = .ok { s' with
              output := t.placed (⟨.op (.opening b), lo⟩ :: (ti ++ [⟨.op (.closing b), lc⟩]))
                :: s'.output }) :
    Reads t := by
  intro ts rest s hts hs hbars
  rw [hlexemes] at hts
  obtain ⟨⟨x, lo⟩, tic, rfl, rfl, htic⟩ := List.map_eq_cons_iff.mp hts
  obtain ⟨ti, lc, tail, rfl, hti, htail⟩ := Expr.exists_split htic
  obtain rfl := List.map_eq_nil_iff.mp htail
  obtain ⟨s₁, value, hrun₁, h₁, hnode⟩ :=
    inner ti lo lc s (⟨.op (.closing b), lc⟩ :: rest) hti hs.castClose
  obtain ⟨s₂, hrun₂, h₂⟩ := h₁.standAlone hs hnode lc rest
  refine ⟨s₂, ?_, by rw [hlevel]; exact h₂⟩
  rw [List.cons_append, run_cons (step_opening s b lo _)]
  simpa only [List.append_assoc, List.cons_append, List.nil_append] using hrun₁.trans hrun₂

/-- A round bracket that follows no value is a group. -/
theorem reads_parens (hv : v.NormalForm) (ih : Reads v) : Reads (.parens v l) := by
  refine reads_delimited rfl rfl fun ti lo lc s rest hti hc => ?_
  obtain ⟨s', hrun, h⟩ := ih ti rest (s.opened .round lo) hti (State.wantsOperand_opened hc)
    (bars_nil _)
  refine ⟨s', v.placed ti, hrun, h.encloses, fun s' => ?_⟩
  have htype : (v.placed ti).vartype? = none := by
    rw [Expr.vartype?_placed, hv.vartype?_eq_none]
  rw [standAlone_parens rfl (fun l => hv.placed_ne_empty ti l) htype, Expr.placed, List.tail_cons,
    Expr.take_append_of_lexemes hti]
  rfl

/-- A curly bracket lists the entries of a tuple. -/
theorem reads_tuple {args : List Expr}
    (hargs : ∀ a ∈ args, a.NormalForm ∧ a.level < 16 ∧ Reads a) : Reads (.tuple args l) := by
  refine reads_delimited rfl rfl fun ti lo lc s rest hti hc => ?_
  obtain ⟨s', value, hrun, h, hvalue⟩ := reads_args (b := .curly) (l := lo) hargs hc hti rest
  refine ⟨s', value, hrun, h, fun s' => ?_⟩
  rw [standAlone_tuple rfl, hvalue, Expr.placed, List.tail_cons, Expr.take_append_of_lexemes hti]
  rfl

/-- A value and the bracket behind it; `inner` reads what stands in the bracket. -/
theorem reads_attached {t : Expr} {xs : List Lexeme} (ih : Reads v) (hcallee : v.level = -1)
    (hlevel : t.level = -1)
    (hlexemes : t.lexemes = v.lexemes ++ .op (.opening b) :: (xs ++ [.op (.closing b)]))
    (inner : ∀ (tv ti : List Token) (lo lc : Location) (s : State) (rest : List Token),
      ti.map Token.lexeme = xs → tv.map Token.lexeme = v.lexemes → s.castClose = none →
      ∃ s' value, run (s.opened b lo) (ti ++ rest) = run s' rest ∧ Encloses s s' b lo value ∧
        attach (s.frame b lo) (v.placed tv) value
          = .ok [t.placed (tv ++ ⟨.op (.opening b), lo⟩ :: (ti ++ [⟨.op (.closing b), lc⟩]))]) :
    Reads t := by
  intro ts rest s hts hs hbars
  rw [hlexemes] at hts
  obtain ⟨tv, lo, tic, rfl, htv, htic⟩ := Expr.exists_split hts
  obtain ⟨ti, lc, tail, rfl, hti, htail⟩ := Expr.exists_split htic
  obtain rfl := List.map_eq_nil_iff.mp htail
  obtain ⟨s₁, hrun₁, h₁⟩ := ih tv
    (⟨.op (.opening b), lo⟩ :: (ti ++ ⟨.op (.closing b), lc⟩ :: rest)) s htv hs
    (hbars.mono (by omega))
  obtain ⟨s₂, value, hrun₂, h₂, hattach⟩ :=
    inner tv ti lo lc s₁ (⟨.op (.closing b), lc⟩ :: rest) hti htv h₁.castClose
  -- A callee of level -1 lies on the output at once, where the bracket looks for it.
  rw [hcallee] at h₁
  obtain ⟨s₃, hrun₃, h₃⟩ := h₂.attach h₁ hattach lc rest
  refine ⟨s₃, ?_, by rw [hlevel]; exact h₃⟩
  rw [run_cons (step_opening s₁ b lo _)] at hrun₁
  simpa only [List.append_assoc, List.cons_append, List.nil_append]
    using hrun₁.trans (hrun₂.trans hrun₃)

/-- A round bracket that follows a value lists the arguments of a call. -/
theorem reads_call {f : Expr} {args : List Expr} (hf : f.NormalForm) (ih : Reads f)
    (hcallee : f.level = -1) (hargs : ∀ a ∈ args, a.NormalForm ∧ a.level < 16 ∧ Reads a) :
    Reads (.call f args l) := by
  refine reads_attached ih hcallee rfl rfl fun tv ti lo lc s rest hti htv hc => ?_
  obtain ⟨s', value, hrun, h, hvalue⟩ := reads_args (b := .round) (l := lo) hargs hc hti rest
  refine ⟨s', value, hrun, h, ?_⟩
  have htype : (f.placed tv).vartype? = none := by
    rw [Expr.vartype?_placed, hf.vartype?_eq_none]
  rw [Expr.placed, Expr.take_append_of_lexemes htv, Expr.drop_append_of_lexemes htv, List.tail_cons,
    Expr.take_append_of_lexemes hti]
  simp [attach, State.frame, htype, hvalue]

/-- A square bracket that follows a value is a subscript. -/
theorem reads_subscript {i : Expr} (ih : Reads v) (hcallee : v.level = -1) (ihi : Reads i) :
    Reads (.subscript v i l) := by
  refine reads_attached ih hcallee rfl rfl fun tv ti lo lc s rest hti htv hc => ?_
  obtain ⟨s', hrun, h⟩ := ihi ti rest (s.opened .square lo) hti (State.wantsOperand_opened hc)
    (bars_nil _)
  refine ⟨s', _, hrun, h.encloses, ?_⟩
  rw [Expr.placed, Expr.take_append_of_lexemes htv, Expr.drop_append_of_lexemes htv, List.tail_cons,
    Expr.take_append_of_lexemes hti]
  simp [attach, State.frame]

/-- A launch bracket that follows a value has two arguments. -/
theorem reads_launch {k n t : Expr} (ih : Reads k) (hcallee : k.level = -1)
    (hargs : ∀ a ∈ [n, t], a.NormalForm ∧ a.level < 16 ∧ Reads a) :
    Reads (.launch k n t l) := by
  have hlexemes : (Expr.launch k n t l).lexemes = k.lexemes ++ .op (.opening .launch) ::
      (Expr.argLexemes [n, t] ++ [.op (.closing .launch)]) := by
    simp [Expr.lexemes, Expr.argLexemes, Expr.moreLexemes]
  refine reads_attached ih hcallee rfl hlexemes fun tv ti lo lc s rest hti htv hc => ?_
  obtain ⟨s', value, hrun, h, hvalue⟩ := reads_args (b := .launch) (l := lo) hargs hc hti rest
  refine ⟨s', value, hrun, h, ?_⟩
  obtain ⟨tn, tm, rfl, htn, htm⟩ := List.map_eq_append_iff.mp hti
  obtain ⟨⟨x, l'⟩, tt, rfl, rfl, htt⟩ := List.map_eq_cons_iff.mp htm
  have htt : tt.map Token.lexeme = t.lexemes := htt.trans (List.append_nil _)
  have hargs : value.args = [n.placed tn, t.placed tt] := by
    rw [hvalue, Expr.placedArgs, Expr.take_append_of_lexemes htn, Expr.drop_append_of_lexemes htn,
      List.tail_cons, Expr.placedArgs, ← htt, List.length_map, List.take_length, Expr.placedArgs]
  rw [Expr.placed, Expr.take_append_of_lexemes htv, Expr.drop_append_of_lexemes htv]
  simp only [List.tail_cons, List.append_assoc, Expr.take_append_of_lexemes htn,
    Expr.drop_append_of_lexemes htn, List.cons_append, Expr.take_append_of_lexemes htt]
  simp [attach, State.frame, hargs]

/-! ### All normal forms -/

/-- By induction over the tree, one lemma for each sort of node. -/
theorem reads {t : Expr} (ht : t.NormalForm) : Reads t := by
  induction ht with
  | atom => exact reads_atom
  | prefixed hop hv hlevel ih => exact reads_prefixed hop hv ih hlevel
  | sizeof hv hlevel ih => exact reads_sizeof hv ih hlevel
  | throw hv hlevel ih => exact reads_throw hv ih hlevel
  | leftBinary hop ha hleft hb hright iha ihb =>
    exact reads_binary iha hleft (fun _ => hop) hb ihb (Int.le_of_lt hright)
      fun l pending => bars_of_lt hright
  | rightBinary hop ha hleft hb hright iha ihb =>
    exact reads_binary iha (Int.le_of_lt hleft) (fun heq => by omega) hb ihb hright
      fun l pending => bars_of_right hright hop
  | ternary hc hcheck ha htrue hb hfalse ihc iha ihb =>
    exact reads_ternary ihc hcheck ha iha htrue hb ihb hfalse
  | parens hv ih => exact reads_parens hv ih
  | tuple hargs hlevel ih => exact reads_tuple fun a ha => ⟨hargs a ha, hlevel a ha, ih a ha⟩
  | call hf hcallee hargs hlevel ihf ih =>
    exact reads_call hf ihf hcallee fun a ha => ⟨hargs a ha, hlevel a ha, ih a ha⟩
  | subscript hv hcallee hi ihv ihi => exact reads_subscript ihv hcallee ihi
  | launch hk hcallee hb hblocks ht hthreads ihk ihb iht =>
    refine reads_launch ihk hcallee (List.forall_mem_cons.mpr ⟨⟨hb, hblocks, ihb⟩, ?_⟩)
    exact List.forall_mem_singleton.mpr ⟨ht, hthreads, iht⟩

end Build

/-- The tokens of a tree in normal form are read as that tree, every node where its token stands or
where its first child does. -/
theorem Expr.ofTokens_placed {t : Expr} {ts : List Token} (ht : t.NormalForm)
    (hts : ts.map Token.lexeme = t.lexemes) :
    Expr.ofTokens ts = .ok (t.placed ts) ∧ (t.placed ts).unplaced = t.unplaced := by
  refine ⟨?_, unplaced_placed t ts⟩
  have hwants : Build.State.initial.WantsOperand :=
    { previous := by simp [Build.State.initial], castClose := rfl, base := Nat.le_refl _ }
  obtain ⟨s, hrun, h⟩ := Build.reads ht ts [] .initial hts hwants (Build.bars_nil _)
  rw [List.append_nil] at hrun
  obtain ⟨ops, hpending, hall, -⟩ := h.reduces
  have hfinish (start : Location) : Build.finish s start = .ok (t.placed ts) := by
    have hbase : s.base = 0 := h.base
    have hall' : Build.applyAll 0 s.pending s.output = .ok [t.placed ts] := by
      rw [hpending, ← hbase, h.base]
      exact (congrArg (Build.applyAll _ · _) (List.append_nil ops)).trans hall
    have hmarker := ht.placed_ne_marker ts
    rw [Build.finish_nil start h.frames, hbase, hall']
    simp [Except.bind, Build.foldTernary_cons hmarker, Build.conclude, hmarker]
  cases ts with
  | nil => exact absurd hts.symm ht.lexemes_ne_nil
  | cons token rest =>
    show (Build.run .initial (token :: rest)).bind (Build.finish · token.location) = _
    rw [hrun]
    exact hfinish token.location

namespace Expr

/-- A product of a name and a negated element, `a * -b[f(x, y)]`. -/
def negatedElement : Expr :=
  binary (.binary .mul) (atom (.identifier "a") ⟨1, 1⟩)
    (prefixed (.pre .negative)
      (subscript (atom (.identifier "b") ⟨1, 6⟩)
        (call (atom (.identifier "f") ⟨1, 8⟩)
          [atom (.identifier "x") ⟨1, 10⟩, atom (.identifier "y") ⟨1, 13⟩] ⟨1, 8⟩) ⟨1, 6⟩)
      ⟨1, 5⟩) ⟨1, 1⟩

/-- The tokens of the product, where they stand. -/
def negatedElementTokens : List Token :=
  [⟨.atom (.identifier "a"), ⟨1, 1⟩⟩, ⟨.op (.unresolved .asterisk), ⟨1, 3⟩⟩,
    ⟨.op (.unresolved .minus), ⟨1, 5⟩⟩, ⟨.atom (.identifier "b"), ⟨1, 6⟩⟩,
    ⟨.op (.opening .square), ⟨1, 7⟩⟩, ⟨.atom (.identifier "f"), ⟨1, 8⟩⟩,
    ⟨.op (.opening .round), ⟨1, 9⟩⟩, ⟨.atom (.identifier "x"), ⟨1, 10⟩⟩,
    ⟨.op (.binary .comma), ⟨1, 11⟩⟩, ⟨.atom (.identifier "y"), ⟨1, 13⟩⟩,
    ⟨.op (.closing .round), ⟨1, 14⟩⟩, ⟨.op (.closing .square), ⟨1, 15⟩⟩]

/-- The tree needs no further brackets. -/
theorem negatedElement_normalForm : negatedElement.NormalForm := by
  have hargs : ∀ a ∈ [atom (.identifier "x") ⟨1, 10⟩, atom (.identifier "y") ⟨1, 13⟩],
      a.NormalForm ∧ a.level < 16 :=
    List.forall_mem_cons.mpr ⟨⟨.atom rfl, by decide⟩,
      List.forall_mem_singleton.mpr ⟨.atom rfl, by decide⟩⟩
  have hcall := NormalForm.call (l := ⟨1, 8⟩) (.atom (a := .identifier "f") (l := ⟨1, 8⟩) rfl) rfl
    (fun a ha => (hargs a ha).1) (fun a ha => (hargs a ha).2)
  exact .leftBinary rfl (.atom rfl) (by decide)
    (.prefixed rfl (.subscript (.atom rfl) rfl hcall) (by decide)) (by decide)

/-- Its tokens are read as the tree. -/
theorem ofTokens_negatedElement :
    negatedElement.NormalForm ∧
      negatedElementTokens.map Token.lexeme = negatedElement.lexemes ∧
      ofTokens negatedElementTokens = .ok negatedElement :=
  ⟨negatedElement_normalForm, rfl, (ofTokens_placed negatedElement_normalForm rfl).1⟩

end Expr

end KernelTree
