import KernelTree.Proofs.Expr.Brackets
import KernelTree.Proofs.Expr.Heights
import KernelTree.Proofs.Expr.Relabel

/-!
# The barriers of open brackets

An open bracket keeps the height of the output at which it was opened. Between any two tokens these
heights rise from the outermost bracket to the innermost one, and the output stands above all of
them. So the output falls into the nodes above the innermost bracket and those below, and whatever
is applied inside the bracket goes on as if there were no nodes below (`Build.State.Shields`): none
of them is taken, and what the bracket holds when it closes is counted exactly. The positions of
tokens that the builder remembers are positions of tokens it has read (`Build.State.Located`).

A bracket that follows a value takes this value from below its barrier, and behind a cast it may be
from below the next one too. But it puts a node in its place, so that the barriers hold again behind
each token (`Build.barriers_runBefore`).
-/

namespace KernelTree.Build

variable {s s' : State} {read rest : List Token}

/-! ### Between two tokens -/

/-- Reads a row of tokens that stands before another one. -/
def runBefore (rest : List Token) (s : State) : List Token → Except BuildError State
  | [] => .ok s
  | t :: read => do
    runBefore rest (← step s t ((read ++ rest).head?.map Token.lexeme)) read

/-- A run comes by the state between two parts of its row and goes on from there. -/
theorem run_append (s : State) (read rest : List Token) :
    run s (read ++ rest) = (runBefore rest s read).bind fun s' => run s' rest := by
  induction read generalizing s with
  | nil => rfl
  | cons t read ih =>
    rw [List.cons_append, run, runBefore]
    cases step s t ((read ++ rest).head?.map Token.lexeme) with
    | error e => rfl
    | ok s' => exact ih s'

/-- What each token keeps holds between any two tokens. -/
theorem runBefore_induction {P : List Token → State → Prop}
    (hstep : ∀ {seen s t next s'}, P seen s → Steps s t next s' → P (seen ++ [t]) s')
    (seen : List Token) (h : runBefore rest s read = .ok s') (hs : P seen s) :
    P (seen ++ read) s' := by
  induction read generalizing s seen with
  | nil =>
    obtain rfl := Except.ok.inj h
    rwa [List.append_nil]
  | cons t read ih =>
    obtain ⟨middle, ht, hread⟩ := bind_ok h
    have hrest := ih (seen ++ [t]) hread (hstep hs (step_ok ht))
    rwa [List.append_assoc] at hrest

/-! ### Nodes above a barrier

Each function that takes nodes from the output does to the nodes above a barrier what it would do
without the others. -/

theorem popOperand_above (l : Location) (nodes outer : List Expr) :
    popOperand outer.length l (nodes ++ outer)
      = (popOperand 0 l nodes).map fun r => (r.1, r.2 ++ outer) := by
  cases nodes with
  | nil =>
    cases outer with
    | nil => rfl
    | cons e rest => exact if_pos (Nat.le_refl _)
  | cons e nodes =>
    rw [List.cons_append, popOperand_cons (by simp), popOperand_cons (Nat.zero_le _)]
    rfl

/-- Of three nodes or more the three on top are looked at. -/
theorem foldTernary_three {base : Nat} {rest : List Expr} (h : base ≤ rest.length)
    (c q check : Expr) :
    foldTernary base (c :: q :: check :: rest) = foldTernary 0 [c, q, check] ++ rest := by
  have hroom : base + 3 ≤ (c :: q :: check :: rest).length := Nat.add_le_add_right h 3
  unfold foldTernary
  split
  case h_1 onFalse l onTrue l' check' rest' heq =>
    obtain ⟨rfl, rfl, rfl, rfl⟩ : c = _ ∧ q = _ ∧ check = check' ∧ rest = rest' := by
      simpa using heq
    rw [if_pos hroom]
    rfl
  case h_2 hother =>
    split
    case h_1 onFalse l onTrue l' check' rest' heq =>
      obtain ⟨rfl, rfl, rfl, -⟩ : c = _ ∧ q = _ ∧ check = check' ∧ [] = rest' := by
        simpa using heq
      exact absurd rfl (hother _ _ _ _ _ _)
    case h_2 => rfl

theorem foldTernary_above (nodes outer : List Expr) :
    foldTernary outer.length (nodes ++ outer) = foldTernary 0 nodes ++ outer := by
  by_cases hfew : nodes.length < 3
  · have hfew' : (nodes ++ outer).length < outer.length + 3 := by
      rw [List.length_append]
      omega
    rw [foldTernary_of_length_lt hfew', foldTernary_of_length_lt hfew]
  · rcases nodes with _ | ⟨c, _ | ⟨q, _ | ⟨check, nodes⟩⟩⟩
    case cons.cons.cons =>
      have houter : outer.length ≤ (nodes ++ outer).length := by simp
      have hwith := foldTernary_three houter c q check
      have hwithout := foldTernary_three (Nat.zero_le nodes.length) c q check
      rw [hwithout, List.append_assoc]
      exact hwith
    all_goals simp at hfew

/-- An operator acts on the nodes above the barrier alone. -/
theorem apply_above (p : Pending) (nodes outer : List Expr) :
    apply outer.length p (nodes ++ outer) = (apply 0 p nodes).map (· ++ outer) := by
  unfold apply
  rw [popOperand_above]
  split
  · refine bind_map fun r => ?_
    dsimp only
    rw [popOperand_above]
    exact bind_map fun r => rfl
  · exact bind_map fun r => rfl
  · refine bind_map fun r => ?_
    dsimp only
    cases prefixNode _ r.1 p.location with
    | error e => rfl
    | ok node => exact congrArg Except.ok (foldTernary_above (node :: r.2) outer)
  · exact bind_map fun r => congrArg Except.ok (foldTernary_above (_ :: r.2) outer)

theorem applyAll_above (pending : List Pending) (nodes outer : List Expr) :
    applyAll outer.length pending (nodes ++ outer)
      = (applyAll 0 pending nodes).map (· ++ outer) := by
  induction pending generalizing nodes with
  | nil => rfl
  | cons p pending ih =>
    rw [applyAll, applyAll, apply_above]
    exact bind_map fun r => ih r

theorem applyFaster_above (action : Action) (pending : List Pending)
    (nodes outer : List Expr) :
    applyFaster outer.length action pending (nodes ++ outer)
      = (applyFaster 0 action pending nodes).map fun r => (r.1, r.2 ++ outer) := by
  induction pending generalizing nodes with
  | nil => rfl
  | cons top pending ih =>
    rw [applyFaster, applyFaster]
    split
    · rw [apply_above]
      refine bind_map fun r => ?_
      split
      · rfl
      · exact ih r
    · rfl

/-- What a closing bracket makes of the output above the nodes `outer` below its barrier. -/
structure Frame.Counts (frame : Frame) (outer : List Expr) : Prop where
  /-- The nodes above the barrier are counted as they are. -/
  count : ∀ nodes : List Expr,
    frame.base ≤ (nodes ++ outer).length ∧ (nodes ++ outer).length - frame.base = nodes.length
  none : content frame outer = .ok (.empty frame.location, outer)
  one : ∀ value, content frame (value :: outer) = .ok (value, outer)
  /-- Of more nodes the second is blamed, which has its position one above the barrier. -/
  more : ∀ nodes : List Expr, 2 ≤ nodes.length →
    ∃ e, (nodes ++ outer).reverse[frame.base + 1]? = some e ∧
      content frame (nodes ++ outer) = .error ⟨.malformed, e.location⟩

theorem counts_of_base {frame : Frame} {outer : List Expr} (h : frame.base = outer.length) :
    frame.Counts outer where
  count nodes := by
    rw [h, List.length_append]
    omega
  none := by
    unfold content
    rw [h, Nat.sub_self]
    rfl
  one value := by
    unfold content
    rw [h, List.length_cons, Nat.add_sub_cancel_left]
    rfl
  more nodes hmany := by
    obtain ⟨count, hcount⟩ : ∃ count, nodes.length = count + 2 := ⟨nodes.length - 2, by omega⟩
    have hlength : (nodes ++ outer).length = count + 2 + outer.length := by
      rw [List.length_append, hcount]
    have hposition : (nodes ++ outer).reverse[frame.base + 1]? = (nodes ++ outer)[count]? := by
      rw [List.getElem?_reverse (by omega), h, hlength]
      congr 1
      omega
    have hentry : count < (nodes ++ outer).length := by omega
    refine ⟨(nodes ++ outer)[count], ?_, ?_⟩
    · rw [hposition, List.getElem?_eq_getElem hentry]
    · unfold content
      rw [show (nodes ++ outer).length - frame.base = count + 2 by omega]
      show Except.error _ = Except.error _
      rw [Nat.add_sub_cancel, List.getElem?_eq_getElem hentry]
      rfl

/-- What happens inside the innermost bracket of `s`, with the nodes `inner` above its barrier and
the nodes `outer` below. -/
structure State.Shields (s : State) (inner outer : List Expr) : Prop where
  output : s.output = inner ++ outer
  height : outer.length = s.base
  /-- An operand comes from above the barrier or not at all. -/
  operand : ∀ l nodes, popOperand s.base l (nodes ++ outer)
    = (popOperand 0 l nodes).map fun r => (r.1, r.2 ++ outer)
  /-- All parts of a conditional come from above it. -/
  conditional : ∀ nodes, foldTernary s.base (nodes ++ outer) = foldTernary 0 nodes ++ outer
  /-- Operators do above the barrier what they would do without the nodes below. -/
  operators : ∀ pending,
    applyAll s.base pending s.output = (applyAll 0 pending inner).map (· ++ outer)
  faster : ∀ action pending, applyFaster s.base action pending s.output
    = (applyFaster 0 action pending inner).map fun r => (r.1, r.2 ++ outer)
  bracket : ∀ frame ∈ s.frames.head?, frame.Counts outer

/-- An output that is high enough falls into what is above the barrier and what is below. -/
theorem exists_shields (h : s.base ≤ s.output.length) : ∃ inner outer, s.Shields inner outer := by
  obtain ⟨inner, outer, houtput, hheight⟩ : ∃ inner outer,
      s.output = inner ++ outer ∧ outer.length = s.base :=
    ⟨s.output.take (s.output.length - s.base), s.output.drop (s.output.length - s.base),
      (List.take_append_drop _ _).symm, by rw [List.length_drop]; omega⟩
  have hframe : ∀ frame ∈ s.frames.head?, frame.base = outer.length := by
    intro frame hf
    rw [hheight, State.base, Option.mem_def.mp hf]
    rfl
  exact ⟨inner, outer,
    { output := houtput
      height := hheight
      operand := fun l nodes => hheight ▸ popOperand_above l nodes outer
      conditional := fun nodes => hheight ▸ foldTernary_above nodes outer
      operators := fun pending => by rw [houtput, ← hheight, applyAll_above]
      faster := fun action pending => by rw [houtput, ← hheight, applyFaster_above]
      bracket := fun frame hf => counts_of_base (hframe frame hf) }⟩

/-! ### Barriers -/

/-- Open brackets rise, and no base is higher than that of the innermost one. -/
theorem Rising.bases {frames : List Frame} (h : Rising frames) :
    (frames.map Frame.base).Pairwise (· ≥ ·) ∧ ∀ f ∈ frames, f.base ≤ floor frames := by
  induction h with
  | nil => exact ⟨.nil, List.forall_mem_nil _⟩
  | @cons frame frames hbase _ _ ih =>
    obtain ⟨hpairs, hfloor⟩ := ih
    have hbelow : ∀ f ∈ frames, f.base ≤ frame.base := fun f hf => Nat.le_trans (hfloor f hf) hbase
    refine ⟨?_, List.forall_mem_cons.mpr ⟨Nat.le_refl _, hbelow⟩⟩
    rw [List.map_cons]
    exact .cons (by simpa using hbelow) hpairs

/-! ### Positions of tokens -/

/-- A token and a reading that it may be settled to. -/
inductive Settles : Lexeme → Lexeme → Prop
  | refl (x : Lexeme) : Settles x x
  | reading (a : Ambiguous) (isPrefixed : Bool) :
      Settles (.op (.unresolved a)) (.op (a.reading isPrefixed))

/-- Settling a token does not make it a value. -/
theorem Settles.value_iff {x y : Lexeme} (h : Settles x y) :
    neighbour x = .value ↔ neighbour y = .value := by
  cases h with
  | refl => exact Iff.rfl
  | reading a isPrefixed => cases a <;> cases isPrefixed <;> decide

/-- The position of the token that opened the bracket. -/
def Frame.position (frame : Frame) : Nat := (frame.before.map (· + 1)).getD 0

/-- The bracket is where it says, and the token before it is what it says. -/
structure Frame.Located (read : List Token) (frame : Frame) : Prop where
  opener : read[frame.position]? = some frame.opener
  before : ∀ i ∈ frame.before, ∃ t, read[i]? = some t ∧
    (frame.afterValue = true ↔ neighbour t.lexeme = .value)
  first : frame.before = none → frame.afterValue = false

/-- Every position that a state remembers is that of a token read, and holds what is remembered. -/
structure State.Located (read : List Token) (s : State) : Prop where
  index : s.index = read.length
  previous : ∀ p ∈ s.previous, ∃ t, read[s.index - 1]? = some t ∧ Settles t.lexeme p
  fresh : s.previous = none → read = []
  castClose : ∀ i ∈ s.castClose, ∃ l, read[i]? = some ⟨.op (.closing .round), l⟩
  frames : ∀ f ∈ s.frames, f.Located read

theorem located_initial : State.initial.Located [] where
  index := rfl
  previous := nofun
  fresh _ := rfl
  castClose := nofun
  frames := List.forall_mem_nil _

/-- A token read stays where it is when another one is read. -/
theorem getElem?_snoc {t : Token} {i : Nat} (h : read[i]? = some t) (t' : Token) :
    (read ++ [t'])[i]? = some t :=
  (List.getElem?_append_left (List.getElem?_eq_some_iff.mp h).1).trans h

theorem Frame.Located.snoc {frame : Frame} (h : frame.Located read) (t' : Token) :
    frame.Located (read ++ [t']) where
  opener := getElem?_snoc h.opener t'
  before i hi :=
    have ⟨t, ht, hvalue⟩ := h.before i hi
    ⟨t, getElem?_snoc ht t', hvalue⟩
  first := h.first

/-- A bracket is opened at the position of its token, behind the token read last. -/
theorem State.Located.opened (h : s.Located read) (b : Bracket) (l : Location) :
    ∀ f ∈ (openBracket s b l).frames, f.Located (read ++ [⟨.op (.opening b), l⟩]) := by
  refine List.forall_mem_cons.mpr ⟨?_, fun f hf => (h.frames f hf).snoc _⟩
  have hindex := h.index
  cases hprevious : s.previous with
  | none =>
    obtain rfl := h.fresh hprevious
    exact
      { opener := by simp [Frame.position, Frame.opener, hindex]
        before := by simp [hindex]
        first := fun _ => rfl }
  | some p =>
    obtain ⟨t, ht, hsettles⟩ := h.previous p hprevious
    have hlast : s.index - 1 < read.length := (List.getElem?_eq_some_iff.mp ht).1
    have hfirst : s.index ≠ 0 := by omega
    have hposition : s.index - 1 + 1 = read.length := by omega
    exact
      { opener := by simp [Frame.position, Frame.opener, hfirst, hposition]
        before := by simp [hfirst, getElem?_snoc ht, hsettles.value_iff]
        first := by simp [hfirst] }

/-- A bracket is closed at the position of its token, and there a cast may be remembered. -/
theorem Closes.castClose {b : Bracket} (h : Closes s b s') :
    s'.index = s.index ∧
      (s'.castClose = s.castClose ∨ s'.castClose = some s.index ∧ b = .round) := by
  cases h with
  | attached => exact ⟨rfl, .inl rfl⟩
  | standing hframes hb hall hcontent hfollows halone =>
    refine ⟨halone.index, ?_⟩
    rcases halone.cases.2 with ⟨_, _, _, _, hsame⟩ | ⟨_, hcast, hround, _⟩
    · exact .inl hsame
    · exact .inr ⟨hcast, hb.trans hround⟩

/-- A token is counted and kept in one of its readings. -/
theorem Steps.counted {t : Token} {next : Option Lexeme} (h : Steps s t next s') :
    s'.index = s.index + 1 ∧ ∃ p, s'.previous = some p ∧ Settles t.lexeme p := by
  cases h with
  | atom ht => exact ⟨rfl, _, rfl, ht ▸ .refl _⟩
  | @op symbol op s' ht hsettle hread =>
    have hindex : s'.index = s.index := by
      cases hread with
      | opening => rfl
      | closing hclose => exact hclose.castClose.1
      | action => rfl
    refine ⟨congrArg (· + 1) hindex, _, rfl, ?_⟩
    rw [ht]
    rcases settle_ok hsettle with ⟨rfl, -⟩ | ⟨a, isPrefixed, rfl, rfl⟩
    · exact .refl _
    · exact .reading a isPrefixed

/-- The next token keeps all positions and adds its own. -/
theorem State.Located.step {t : Token} {next : Option Lexeme} (h : s.Located read)
    (hstep : Steps s t next s') : s'.Located (read ++ [t]) := by
  obtain ⟨hindex, p, hp, hsettles⟩ := hstep.counted
  rw [h.index] at hindex
  -- Positions in what was read stay, and the new token is the last one.
  have hprevious : ∀ p ∈ s'.previous, ∃ t', (read ++ [t])[s'.index - 1]? = some t' ∧
      Settles t'.lexeme p := by
    rw [hindex, Nat.add_sub_cancel, List.getElem?_concat_length, hp]
    rintro _ ⟨⟩
    exact ⟨t, rfl, hsettles⟩
  have hcast : ∀ i ∈ s.castClose, ∃ l, (read ++ [t])[i]? = some ⟨.op (.closing .round), l⟩ :=
    fun i hi => (h.castClose i hi).imp fun l hl => getElem?_snoc hl t
  have hframes : ∀ f ∈ s.frames, f.Located (read ++ [t]) := fun f hf => (h.frames f hf).snoc t
  suffices hkept : (∀ i ∈ s'.castClose, ∃ l, (read ++ [t])[i]? = some ⟨.op (.closing .round), l⟩) ∧
      ∀ f ∈ s'.frames, f.Located (read ++ [t]) from
    ⟨by simpa using hindex, hprevious, by simp [hp], hkept.1, hkept.2⟩
  obtain ⟨lexeme, l⟩ := t
  cases hstep with
  | atom => exact ⟨hcast, hframes⟩
  | op ht hsettle hread =>
    obtain rfl := ht
    obtain ⟨-, hkind⟩ := isBracket_settle hsettle
    cases hread with
    | @opening b =>
      obtain rfl := (hkind b).1 rfl
      exact ⟨hcast, h.opened b l⟩
    | @closing b _ hclose =>
      obtain rfl := (hkind b).2 rfl
      obtain ⟨frame, -, hopen⟩ := frames_closes hclose
      rw [hopen] at hframes
      refine ⟨?_, (List.forall_mem_cons.mp hframes).2⟩
      rcases hclose.castClose.2 with hsame | ⟨hnew, rfl⟩
      · exact hsame ▸ hcast
      · rintro i hi
        obtain rfl : s.index = i := by simpa [hnew] using hi
        exact ⟨l, by rw [h.index, List.getElem?_concat_length]⟩
    | action => exact ⟨hcast, hframes⟩

/-- **The barriers of open brackets hold** wherever the builder is between two tokens. The bases of
open brackets rise from the outermost to the innermost one, and the output stands above all of them.
What lies below the innermost one is neither taken nor looked at, and what lies above is counted
exactly. The tokens that are remembered, read and viewed are at their positions. -/
theorem barriers_runBefore (h : runBefore rest .initial read = .ok s) :
    run .initial (read ++ rest) = run s rest ∧
      ((s.frames.map Frame.base).reverse.Pairwise (· ≤ ·) ∧
        ∀ f ∈ s.frames, f.base ≤ s.output.length) ∧
      (∃ inner outer, s.Shields inner outer) ∧
      s.Located read ∧ (read ++ rest)[s.index]? = rest.head? ∧
        (read ++ rest)[s.index + 1]? = rest.tail.head? := by
  have horderly : s.Orderly :=
    runBefore_induction (P := fun _ s => s.Orderly) (fun hs ht => ht.orderly hs) [] h
      orderly_initial
  have hlocated : s.Located read :=
    runBefore_induction (fun hs ht => hs.step ht) [] h located_initial
  obtain ⟨hpairs, hfloor⟩ := horderly.rising.bases
  refine ⟨?_, ⟨List.pairwise_reverse.mpr hpairs, fun f hf => ?_⟩, exists_shields horderly.height,
    hlocated, ?_, ?_⟩
  · rw [run_append, h]
    rfl
  · exact Nat.le_trans (hfloor f hf) horderly.height
  · rw [hlocated.index, List.getElem?_append_right (Nat.le_refl _), Nat.sub_self,
      List.head?_eq_getElem?]
  · rw [hlocated.index, List.getElem?_append_right (Nat.le_add_right _ 1), Nat.add_sub_cancel_left,
      List.head?_eq_getElem?, List.getElem?_tail]

/-- The tokens of `g(f[(int)((float) a)`. -/
def openedTokens : List Token :=
  [⟨.atom (.identifier "g"), ⟨1, 1⟩⟩, ⟨.op (.opening .round), ⟨1, 2⟩⟩,
    ⟨.atom (.identifier "f"), ⟨1, 3⟩⟩, ⟨.op (.opening .square), ⟨1, 4⟩⟩,
    ⟨.op (.opening .round), ⟨1, 5⟩⟩, ⟨.atom (.type ⟨4⟩), ⟨1, 6⟩⟩, ⟨.op (.closing .round), ⟨1, 9⟩⟩,
    ⟨.op (.opening .round), ⟨1, 10⟩⟩, ⟨.op (.opening .round), ⟨1, 11⟩⟩,
    ⟨.atom (.type ⟨6⟩), ⟨1, 12⟩⟩, ⟨.op (.closing .round), ⟨1, 17⟩⟩,
    ⟨.atom (.identifier "a"), ⟨1, 19⟩⟩, ⟨.op (.closing .round), ⟨1, 20⟩⟩]

/-- The tokens of `])`. -/
def closingTokens : List Token :=
  [⟨.op (.closing .square), ⟨1, 21⟩⟩, ⟨.op (.closing .round), ⟨1, 22⟩⟩]

/-- The state between them. The latest cast is the inner one, so that the group behind the outer one
took `f` for its function, from below the square bracket. -/
def betweenTokens : State where
  output :=
    [.call (.atom (.identifier "f") ⟨1, 3⟩)
        [.cast .paren (.plain ⟨6⟩) (.atom (.identifier "a") ⟨1, 19⟩) ⟨1, 11⟩] ⟨1, 3⟩,
      .atom (.identifier "g") ⟨1, 1⟩]
  pending := [⟨.cast (.plain ⟨4⟩), ⟨1, 5⟩⟩]
  frames := [⟨.square, ⟨1, 4⟩, some 2, true, 2, []⟩, ⟨.round, ⟨1, 2⟩, some 0, true, 1, []⟩]
  index := 13
  previous := some (.op (.closing .round))
  castClose := some 10

/-- The barriers hold all the same: they keep the call from the cast that waits, which finds nothing
between the square brackets. -/
theorem barriers_betweenTokens :
    runBefore closingTokens .initial openedTokens = .ok betweenTokens ∧
      run .initial (openedTokens ++ closingTokens) = run betweenTokens closingTokens ∧
      ((betweenTokens.frames.map Frame.base).reverse.Pairwise (· ≤ ·) ∧
        ∀ f ∈ betweenTokens.frames, f.base ≤ betweenTokens.output.length) ∧
      (∃ inner outer, betweenTokens.Shields inner outer) ∧
      betweenTokens.Located openedTokens ∧
      (openedTokens ++ closingTokens)[betweenTokens.index]? = closingTokens.head? ∧
        (openedTokens ++ closingTokens)[betweenTokens.index + 1]? = closingTokens.tail.head? ∧
      run betweenTokens closingTokens = .error ⟨.missingOperand, ⟨1, 5⟩⟩ := by
  have hrun : runBefore closingTokens .initial openedTokens = .ok betweenTokens := rfl
  obtain ⟨hgoes, hbarriers, hshields, hlocated, hnext, hview⟩ := barriers_runBefore hrun
  exact ⟨hrun, hgoes, hbarriers, hshields, hlocated, hnext, hview, rfl⟩

end KernelTree.Build
