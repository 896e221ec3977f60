import KernelTree.Proofs.Expr.Infix

/-!
# Rows in brackets

Between round brackets a row is read as it is without them, on top of one more open bracket
(`Build.State.enclosed`, `Build.step_enclosed`), up to its last token: there a bracket comes behind
it where nothing did. `Expr.ofTokens_enclosed` tells which rows keep their tree.
-/

namespace KernelTree

namespace Build

open KernelTree.Expr

variable {s s' : State} {l : Location}

/-! ### One more bracket -/

/-- The bracket around the row. -/
def outermost (l : Location) : Frame := ⟨.round, l, none, false, 0, []⟩

/-- A bracket that was opened one token later. -/
def Frame.later (f : Frame) : Frame := { f with before := some ((f.before.map (· + 1)).getD 0) }

/-- The state in which a row is read behind a round bracket. -/
def State.enclosed (l : Location) (s : State) : State where
  output := s.output
  pending := s.pending
  frames := s.frames.map Frame.later ++ [outermost l]
  index := s.index + 1
  previous := some (s.previous.getD (.op (.opening .round)))
  castClose := s.castClose.map (· + 1)

/-- Only the first token has none before it, and a bracket that follows a value knows its index. -/
structure State.Numbered (s : State) : Prop where
  first : s.index = 0 → s.previous = none
  frames : ∀ f ∈ s.frames, f.afterValue = true → f.before ≠ none

/-- No token has been read. -/
theorem numbered_initial : State.initial.Numbered where
  first _ := rfl
  frames := List.forall_mem_nil _

/-- Every token counts. -/
theorem Steps.numbered {t : Token} {next : Option Lexeme} (h : Steps s t next s')
    (hs : s.Numbered) : s'.Numbered := by
  cases h with
  | atom => exact ⟨fun h => absurd h (Nat.succ_ne_zero _), hs.frames⟩
  | op _ _ hread =>
    refine ⟨fun h => absurd h (Nat.succ_ne_zero _), ?_⟩
    cases hread with
    | @opening b =>
      refine List.forall_mem_cons.mpr ⟨fun hvalue => ?_, hs.frames⟩
      have hindex : s.index ≠ 0 := fun h => by simp [hs.first h] at hvalue
      simp [hindex]
    | closing hclose =>
      cases hclose with
      | attached hframes =>
        exact (List.forall_mem_cons.mp (hframes ▸ hs.frames)).2
      | standing hframes _ _ _ _ halone =>
        exact halone.cases.1 ▸ (List.forall_mem_cons.mp (hframes ▸ hs.frames)).2
    | action => exact hs.frames

/-- The new bracket is opened on an empty output. -/
theorem base_enclosed (s : State) : (s.enclosed l).base = s.base := by
  cases h : s.frames <;> simp [State.base, State.enclosed, h, Frame.later, outermost]

theorem afterCast_enclosed (s : State) : (s.enclosed l).afterCast = s.afterCast := by
  cases h : s.castClose with
  | none => simp [State.afterCast, State.enclosed, h]
  | some j =>
    rw [Bool.eq_iff_iff]
    simp [State.afterCast, State.enclosed, h]
    omega

/-- Whether a bracket follows a value does not depend on where the count begins. -/
theorem followsValue_later {f : Frame} (hf : f.afterValue = true → f.before ≠ none)
    (c : Option Nat) : f.later.followsValue (c.map (· + 1)) = f.followsValue c := by
  cases hvalue : f.afterValue with
  | false => simp [Frame.followsValue, Frame.later, hvalue]
  | true =>
    obtain ⟨i, hi⟩ := Option.ne_none_iff_exists'.mp (hf hvalue)
    cases c <;> simp [Frame.followsValue, Frame.later, hvalue, hi]

/-! ### One token -/

theorem readsAsPrefix_enclosed (s : State) (a : Ambiguous) (l' : Location) (next : Lexeme) :
    readsAsPrefix (s.enclosed l) a l' (some next) = readsAsPrefix s a l' (some next) := by
  have hcast := afterCast_enclosed (l := l) s
  cases h : s.previous with
  | none =>
    have hprevious : (s.enclosed l).previous = some (.op (.opening .round)) := by
      simp [State.enclosed, h]
    cases hc : s.afterCast <;> simp [readsAsPrefix, h, hprevious, hcast, hc, neighbour]
  | some p =>
    have hprevious : (s.enclosed l).previous = some p := by simp [State.enclosed, h]
    simp only [readsAsPrefix, h, hprevious, hcast]

theorem settle_enclosed (s : State) (op : Operator) (l' : Location) (next : Lexeme) :
    settle (s.enclosed l) op l' (some next) = settle s op l' (some next) := by
  cases op with
  | unresolved a => simp only [settle, readsAsPrefix_enclosed]
  | _ => rfl

theorem push_enclosed {action : Action} {l' : Location} (h : push s action l' = .ok s') :
    push (s.enclosed l) action l' = .ok (s'.enclosed l) := by
  unfold push at h ⊢
  by_cases hpre : action.isPrefixed = true
  · rw [if_pos hpre] at h ⊢
    obtain rfl := Except.ok.inj h
    rfl
  · rw [if_neg hpre] at h ⊢
    obtain ⟨⟨pending, output⟩, hfaster, h⟩ := bind_ok h
    obtain rfl := Except.ok.inj h
    show (applyFaster (s.enclosed l).base action s.pending s.output >>= _) = _
    rw [base_enclosed, hfaster]
    rfl

theorem standAlone_enclosed {frame : Frame} {value : Expr}
    (h : standAlone s frame value = .ok s') :
    standAlone (s.enclosed l) frame.later value = .ok (s'.enclosed l) := by
  have hbracket : frame.later.bracket = frame.bracket := rfl
  cases standAlone_ok h with
  | parens hb hne ht =>
    cases htype : value.vartype? with
    | none => exact standAlone_parens (hbracket.trans hb) hne htype
    | some t =>
      have hsizeof : afterSizeof (s.enclosed l).pending = true :=
        ht.resolve_left (by simp [htype])
      rw [standAlone_type (hbracket.trans hb) htype, if_pos hsizeof]
      rfl
  | cast hb ht hsizeof =>
    have hsizeof : ¬afterSizeof (s.enclosed l).pending = true := Bool.not_eq_true _ ▸ hsizeof
    rw [standAlone_type (hbracket.trans hb) ht, if_neg hsizeof]
    rfl
  | tuple hb => exact standAlone_tuple (hbracket.trans hb)

/-- A closing bracket finds its counterpart, and does with it what it did without brackets
around. -/
theorem close_enclosed {b : Bracket} {l' : Location} (h : close s b l' = .ok s')
    (hs : s.Numbered) : close (s.enclosed l) b l' = .ok (s'.enclosed l) := by
  obtain ⟨output, hall, h⟩ := bind_ok h
  show (applyAll (s.enclosed l).base s.pending s.output >>= _) = _
  rw [base_enclosed, hall]
  cases hframes : s.frames with
  | nil =>
    rw [hframes] at h
    cases h
  | cons frame frames =>
    have hframes' : (s.enclosed l).frames
        = frame.later :: (frames.map Frame.later ++ [outermost l]) := by
      simp [State.enclosed, hframes]
    have hfollows : frame.later.followsValue (s.enclosed l).castClose
        = frame.followsValue s.castClose :=
      followsValue_later (hs.frames frame (by simp [hframes])) s.castClose
    rw [hframes] at h
    dsimp only [bind, Except.bind] at h ⊢
    rw [hframes']
    dsimp only
    by_cases hb : b ≠ frame.bracket
    · rw [if_pos hb] at h
      cases h
    · rw [if_neg hb] at h
      rw [if_neg (show ¬b ≠ frame.later.bracket from hb)]
      obtain ⟨⟨value, rest⟩, hcontent, h⟩ := bind_ok h
      rw [show content frame.later output = .ok (value, rest) from hcontent]
      dsimp only
      rw [hfollows]
      -- Without a value in front of it, the bracket stands for itself.
      cases hvalue : frame.followsValue s.castClose with
      | false =>
        rw [hvalue] at h
        cases rest <;> exact standAlone_enclosed h
      | true =>
        rw [hvalue] at h
        cases rest with
        | nil => exact standAlone_enclosed h
        | cons callee rest =>
          obtain ⟨nodes, hattach, h⟩ := bind_ok h
          obtain rfl := Except.ok.inj h
          dsimp only
          rw [show attach frame.later callee value = .ok nodes from hattach]
          rfl

/-- An opening bracket remembers the token before it, one place further on. -/
theorem openBracket_enclosed (s : State) (b : Bracket) (l' : Location) :
    openBracket (s.enclosed l) b l' = (openBracket s b l').enclosed l := by
  -- The token before a bracket is one place further on, and the first bracket has the new one
  -- before it.
  have hbefore : some s.index
      = some (((if s.index = 0 then none else some (s.index - 1)).map (· + 1)).getD 0) := by
    by_cases h : s.index = 0
    · simp [h]
    · simp [h, Nat.sub_add_cancel (Nat.one_le_iff_ne_zero.mpr h)]
  have hvalue : ((s.enclosed l).previous.any fun p => neighbour p = .value)
      = s.previous.any fun p => neighbour p = .value := by
    cases h : s.previous <;> simp [State.enclosed, h, neighbour]
  simp only [openBracket, hvalue]
  simp [State.enclosed, Frame.later, ← hbefore]

theorem readOperator_enclosed {op : Operator} {l' : Location}
    (h : readOperator s op l' = .ok s') (hs : s.Numbered) :
    readOperator (s.enclosed l) op l' = .ok (s'.enclosed l) := by
  cases op with
  | opening b =>
    obtain rfl := Except.ok.inj h
    exact congrArg Except.ok (openBracket_enclosed s b l')
  | closing b => exact close_enclosed h hs
  | unresolved a => cases h
  | pre op => exact push_enclosed h
  | post op => exact push_enclosed h
  | binary op => exact push_enclosed h

/-- With the token behind it in view, a token is read alike in brackets. -/
theorem step_enclosed {t : Token} {next : Lexeme} (h : step s t (some next) = .ok s')
    (hs : s.Numbered) : step (s.enclosed l) t (some next) = .ok (s'.enclosed l) := by
  obtain ⟨lexeme, l'⟩ := t
  cases lexeme with
  | atom a =>
    obtain rfl := Except.ok.inj h
    rfl
  | op symbol =>
    obtain ⟨op, hop, h⟩ := bind_ok h
    obtain ⟨s₁, hread, h⟩ := bind_ok h
    obtain rfl := Except.ok.inj h
    rw [step_op ((settle_enclosed ..).trans hop) (readOperator_enclosed hread hs)]
    rfl

/-! ### The last token -/

/-- With a bracket behind it, a symbol is read behind or between operands if a value ends in front
of it and it does not count up or down. -/
theorem readsAsPrefix_closing (a : Ambiguous) (l' : Location) (b : Bracket)
    (hprevious : s.previous ≠ none) :
    readsAsPrefix s a l' (some (.op (.closing b))) = .ok false
      ↔ a.isStep = false ∧ s.ended = true := by
  obtain ⟨p, hp⟩ := Option.ne_none_iff_exists'.mp hprevious
  cases hcast : s.afterCast with
  | true => simp [readsAsPrefix, State.ended, hp, hcast]
  | false =>
    cases hn : neighbour p <;> cases hstep : a.isStep <;>
      simp [readsAsPrefix, State.ended, hp, hcast, hn, hstep, isOperator]

/-- With nothing behind it, a symbol is never in front of its operand, but at the beginning. -/
theorem settle_unresolved_none {a : Ambiguous} (hprevious : s.previous ≠ none) :
    settle s (.unresolved a) l none = .ok a.otherReading := by
  obtain ⟨p, hp⟩ := Option.ne_none_iff_exists'.mp hprevious
  simp [settle, readsAsPrefix, hp, Except.map, Ambiguous.reading]

/-- The last token of a row is read alike in brackets if its reading is the same. -/
theorem step_enclosed_last {t : Token} (h : step s t none = .ok s') (hs : s.Numbered)
    (hkeeps : ∀ a, t.lexeme = .op (.unresolved a) → a.isStep = false ∧ s.ended = true) :
    step (s.enclosed l) t (some (.op (.closing .round))) = .ok (s'.enclosed l) := by
  refine step_enclosed ?_ hs
  obtain ⟨lexeme, l'⟩ := t
  cases lexeme with
  | atom a => exact h
  | op symbol =>
    obtain ⟨op, hop, h⟩ := bind_ok h
    obtain ⟨s₁, hread, h⟩ := bind_ok h
    rw [← h, step_op ?_ hread]
    cases symbol with
    | unresolved a =>
      obtain ⟨hstep, hended⟩ := hkeeps a rfl
      have hprevious : s.previous ≠ none := fun hnone => by simp [State.ended, hnone] at hended
      have hreads := (readsAsPrefix_closing a l' .round hprevious).mpr ⟨hstep, hended⟩
      have hother := settle_unresolved_none (a := a) (l := l') hprevious
      obtain rfl : a.otherReading = op := by simpa [hother] using hop
      simp [settle, hreads, Except.map, Ambiguous.reading]
    | _ => exact hop

/-- The bracket in front of the row. -/
theorem run_opening (ts : List Token) :
    run .initial (⟨.op (.opening .round), l⟩ :: ts) = run (State.initial.enclosed l) ts := rfl

/-- The row up to its last token, in brackets. -/
theorem run_enclosed {ts : List Token} {t c : Token} (h : run s ts = .ok s')
    (ht : t ∈ ts.getLast?) (hs : s.Numbered) :
    run (s.enclosed l) (ts ++ [c]) = run ((beforeLast s ts).enclosed l) [t, c] ∧
      (beforeLast s ts).Numbered := by
  induction ts generalizing s with
  | nil => cases ht
  | cons t' ts ih =>
    obtain ⟨middle, hstep, hrun⟩ := bind_ok h
    cases ts with
    | nil =>
      obtain rfl : t' = t := by simpa using ht
      exact ⟨rfl, hs⟩
    | cons t'' ts =>
      obtain ⟨hrest, hnumbered⟩ :=
        ih hrun (by simpa [List.getLast?_cons_cons] using ht) ((step_ok hstep).numbered hs)
      rw [beforeLast_cons hstep]
      exact ⟨(run_cons (step_enclosed hstep hs)).trans hrest, hnumbered⟩

/-- A symbol with two readings is read as its neighbours say. -/
theorem previous_step {t : Token} {a : Ambiguous} {next : Option Lexeme}
    (h : step s t next = .ok s') (ht : t.lexeme = .op (.unresolved a)) :
    ∃ isPrefixed, readsAsPrefix s a t.location next = .ok isPrefixed ∧
      s'.previous = some (.op (a.reading isPrefixed)) := by
  cases step_ok h with
  | atom hatom => simp [ht] at hatom
  | @op symbol op _ hop hsettle _ =>
    obtain rfl : symbol = .unresolved a := by simpa [ht] using hop.symm
    cases hreads : readsAsPrefix s a t.location next with
    | error e => simp [settle, hreads, Except.map] at hsettle
    | ok isPrefixed =>
      obtain rfl : a.reading isPrefixed = op := by
        simpa [settle, hreads, Except.map] using hsettle
      exact ⟨isPrefixed, rfl, rfl⟩

/-- Once a token has been read, there is always one before. -/
theorem previous_beforeLast {ts : List Token} (hs : s.previous ≠ none) :
    (beforeLast s ts).previous ≠ none := by
  induction ts generalizing s with
  | nil => exact hs
  | cons t ts ih =>
    cases ts with
    | nil => exact hs
    | cons t' rest =>
      cases hstep : step s t (some t'.lexeme) with
      | error e => simpa only [beforeLast, hstep] using hs
      | ok s' =>
        rw [beforeLast_cons hstep]
        exact ih (step_ok hstep).previous_ne_none

/-- A symbol with two readings is no tree on its own, so there is a token before the last. -/
theorem previous_beforeLast_initial {ts : List Token} {t : Token} {a : Ambiguous} {e : Expr}
    (h : Expr.ofTokens ts = .ok e) (hlast : t ∈ ts.getLast?)
    (ht : t.lexeme = .op (.unresolved a)) : (beforeLast .initial ts).previous ≠ none := by
  match ts with
  | [] => cases hlast
  | [t'] =>
    obtain rfl : t' = t := by simpa using hlast
    obtain ⟨lexeme, l'⟩ := t'
    obtain rfl : lexeme = .op (.unresolved a) := ht
    cases a <;> cases h
  | t' :: t'' :: rest =>
    obtain ⟨s, hrun, -⟩ := ofTokens_ne_nil h (List.cons_ne_nil _ _)
    obtain ⟨middle, hstep, -⟩ := bind_ok hrun
    rw [beforeLast_cons hstep]
    exact previous_beforeLast (step_ok hstep).previous_ne_none

/-- The new bracket has no weight. -/
theorem weight_enclosed (c : Operator → Nat) (s : State) :
    (s.enclosed l).weight c = s.weight c := by
  simp [State.weight, State.enclosed, Frame.later, outermost, Function.comp_def]

/-- Closing the bracket around a whole row makes a group of its tree. -/
theorem finish_enclosed {e : Expr} (hframes : s.frames = [])
    (hall : applyAll 0 s.pending s.output = .ok [e]) (hne : e.isEmpty = false)
    (ht : e.vartype? = none) (start l' : Location) :
    (run (s.enclosed l) [⟨.op (.closing .round), l'⟩] >>= fun s' => finish s' start)
      = .ok (parens e l) := by
  have hbase : (s.enclosed l).base = 0 := by
    rw [base_enclosed, State.base, hframes]
    rfl
  have hframes' : (s.enclosed l).frames = [outermost l] := by simp [State.enclosed, hframes]
  have hread : readOperator (s.enclosed l) (.closing .round) l' = .ok { s.enclosed l with
      output := [parens e l], pending := [], frames := [] } := by
    show (applyAll (s.enclosed l).base s.pending s.output >>= _) = _
    rw [hbase, hall]
    dsimp only [bind, Except.bind]
    rw [hframes']
    refine standAlone_parens rfl (fun l'' hempty => ?_) ht
    obtain rfl : e = empty l'' := hempty
    cases hne
  rw [run_cons (step_op rfl hread)]
  rfl

end Build

namespace Expr

open Build

/-- The last token of a row is read alike if a bracket comes behind it: a symbol with two readings
is only if it stands behind a value and does not count up or down. -/
def KeepsReading (ts : List Token) : Prop :=
  ∀ t ∈ ts.getLast?, ∀ a, t.lexeme = .op (.unresolved a) →
    a.isStep = false ∧ (beforeLast .initial ts).ended = true

/-- If the last token is read in another way in brackets, an operator comes into the tree that was
not there. -/
theorem keepsReading_of_enclosed {ts : List Token} {e : Expr} {l l' : Location}
    (h : ofTokens ts = .ok e) (hne : ts ≠ [])
    (h' : ofTokens (⟨.op (.opening .round), l⟩ :: (ts ++ [⟨.op (.closing .round), l'⟩]))
      = .ok (parens e l)) : KeepsReading ts := by
  intro t ht a hsymbol
  have hprevious := previous_beforeLast_initial h ht hsymbol
  have hc := weighs_counting a.prefixReading
  -- Without brackets, the symbol is read behind or between operands.
  obtain ⟨s, hrun, hweight⟩ := weight_end (c := counting a.prefixReading) h hne
  have hstep := step_beforeLast hrun ht
  have hother : s.previous = some (.op a.otherReading) := by
    obtain ⟨isPrefixed, hreads, hs⟩ := previous_step hstep hsymbol
    obtain ⟨p, hp⟩ := Option.ne_none_iff_exists'.mp hprevious
    obtain rfl : false = isPrefixed := by simpa [readsAsPrefix, hp] using hreads
    exact hs
  have hlast := weight_step hstep hc
  -- In brackets, the same row goes up to the same symbol.
  obtain ⟨s', hrun', hweight'⟩ := weight_end (c := counting a.prefixReading) h'
    (List.cons_ne_nil _ _)
  rw [run_opening, (run_enclosed hrun ht numbered_initial).1] at hrun'
  obtain ⟨s₁, hstep₁, hrun₁⟩ := bind_ok hrun'
  obtain ⟨s₂, hstep₂, hrun₂⟩ := bind_ok hrun₁
  obtain rfl := Except.ok.inj hrun₂
  obtain ⟨isPrefixed, hreads, hprevious₁⟩ := previous_step hstep₁ hsymbol
  have hlast₁ := weight_step hstep₁ hc
  have hlast₂ := weight_step hstep₂ hc
  rw [weight_enclosed] at hlast₁
  cases isPrefixed with
  | false =>
    refine (readsAsPrefix_closing a t.location .round hprevious).mp ?_
    rw [← readsAsPrefix_enclosed]
    exact hreads
  | true =>
    -- Then the tree in brackets counts one symbol more of this reading, but it is the same tree.
    have hparens : (parens e l).total (Expr.weight (counting a.prefixReading))
        = e.total (Expr.weight (counting a.prefixReading)) := by
      simp [total_eq (parens ..), children, Expr.weight]
    have hzero : counting a.prefixReading a.otherReading = 0 := by cases a <;> rfl
    have hone : counting a.prefixReading (.pre a.prefixReading) = 1 := if_pos rfl
    simp [hother, Lexeme.weight, hzero] at hlast
    simp [hprevious₁, Ambiguous.reading, Lexeme.weight, hone] at hlast₁
    omega

/-- **Rows in brackets**: a row that has a tree has that tree in round brackets too, unless its last
token is read in another way there. -/
theorem ofTokens_enclosed {ts : List Token} {e : Expr} {l l' : Location} (h : ofTokens ts = .ok e)
    (hne : ts ≠ []) (ht : e.vartype? = none) :
    ofTokens (⟨.op (.opening .round), l⟩ :: (ts ++ [⟨.op (.closing .round), l'⟩]))
      = .ok (parens e l) ↔ KeepsReading ts := by
  refine ⟨keepsReading_of_enclosed h hne, fun hkeeps => ?_⟩
  obtain ⟨s, hrun, -, hframes, hall, -⟩ := ofTokens_ne_nil h hne
  have hlast : ts.getLast hne ∈ ts.getLast? := List.getLast?_eq_some_getLast hne
  obtain ⟨hrun', hnumbered⟩ := run_enclosed (l := l) (c := ⟨.op (.closing .round), l'⟩) hrun hlast
    numbered_initial
  have hlast' := step_enclosed_last (l := l) (step_beforeLast hrun hlast) hnumbered
    (hkeeps _ hlast)
  show (run .initial _ >>= fun s' => finish s' l) = _
  rw [run_opening, hrun', run_cons hlast']
  exact finish_enclosed hframes hall (proper_ofTokens h hne).isEmpty ht l l'

/-- A sum keeps its tree in brackets. -/
theorem enclosed_sum :
    ofTokens [⟨.op (.opening .round), ⟨1, 1⟩⟩, ⟨.atom (.identifier "a"), ⟨1, 2⟩⟩,
        ⟨.op (.unresolved .plus), ⟨1, 4⟩⟩, ⟨.atom (.identifier "b"), ⟨1, 6⟩⟩,
        ⟨.op (.closing .round), ⟨1, 7⟩⟩]
      = .ok (parens (mkBinary .add (atom (.identifier "a") ⟨1, 2⟩) (atom (.identifier "b") ⟨1, 6⟩))
          ⟨1, 1⟩) := by
  have hsum : ofTokens [⟨.atom (.identifier "a"), ⟨1, 2⟩⟩, ⟨.op (.unresolved .plus), ⟨1, 4⟩⟩,
      ⟨.atom (.identifier "b"), ⟨1, 6⟩⟩]
      = .ok (mkBinary .add (atom (.identifier "a") ⟨1, 2⟩) (atom (.identifier "b") ⟨1, 6⟩)) := rfl
  refine (ofTokens_enclosed hsum (List.cons_ne_nil _ _) rfl).mpr fun t ht a hsymbol => ?_
  obtain rfl := Option.some.inj ht
  cases hsymbol

/-- Not every row can be put in brackets: `x++` can be read, but `(x++)` is ambiguous. -/
theorem enclosedStep_rejected :
    ¬ ∀ ts e l l', ts ≠ [] → ofTokens ts = .ok e → e.vartype? = none →
      ofTokens (⟨.op (.opening .round), l⟩ :: (ts ++ [⟨.op (.closing .round), l'⟩]))
        = .ok (parens e l) := by
  intro h
  have hstep : ofTokens [⟨.atom (.identifier "x"), ⟨1, 2⟩⟩, ⟨.op (.unresolved .increment), ⟨1, 3⟩⟩]
      = .ok (mkPostfixed (.post .increment) (atom (.identifier "x") ⟨1, 2⟩)) := rfl
  have hbrackets := h _ _ ⟨1, 1⟩ ⟨1, 5⟩ (List.cons_ne_nil _ _) hstep rfl
  have hambiguous : ofTokens [⟨.op (.opening .round), ⟨1, 1⟩⟩, ⟨.atom (.identifier "x"), ⟨1, 2⟩⟩,
      ⟨.op (.unresolved .increment), ⟨1, 3⟩⟩, ⟨.op (.closing .round), ⟨1, 5⟩⟩]
      = .error ⟨.ambiguousOperator, ⟨1, 3⟩⟩ := rfl
  cases hambiguous.symm.trans hbrackets

/-- A row without gaps changes its reading in brackets only if it ends in a symbol with two
readings, which then counts up or down. -/
theorem keepsReading_iff {ts : List Token} {e : Expr} (h : ofTokens ts = .ok e)
    (hgaps : gaps ts = 0) :
    KeepsReading ts ↔ ∀ t ∈ ts.getLast?, ∀ a, t.lexeme ≠ .op (.unresolved a) := by
  refine ⟨fun hkeeps t ht a hsymbol => ?_, fun hother t ht a hsymbol => ?_⟩
  · have hne : ts ≠ [] := fun hnil => by simp [hnil] at ht
    obtain ⟨s, hrun, hended⟩ := ended_of_gaps h hne hgaps
    have hstep := (neighbour_last (step_beforeLast hrun ht) hended).2.2 a hsymbol
    rw [(hkeeps t ht a hsymbol).1] at hstep
    cases hstep
  · exact absurd hsymbol (hother t ht a)

end Expr

end KernelTree
