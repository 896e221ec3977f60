import KernelTree.Proofs.Expr.Leaves

/-!
# Where nodes and faults stand

The builder makes up no places. Every node of a tree stands at a token, the one at which its text
begins (`Expr.Anchored`), and every fault is blamed on a token (`Expr.anchored_ofTokens`). The
places come from tokens, pending operators, open brackets and trees on the output, so all of these
are kept at places of tokens (`Build.State.Anchored`). Each function of the builder has one lemma
for both ways it may go: `Build.Places P Q` are the results with a value of which `Q` holds and the
faults at a place of which `P` holds.
-/

namespace KernelTree

namespace Expr

/-- Every node stands at such a place, and where the first node of its text stands. -/
def Anchored (P : Location → Prop) (e : Expr) : Prop :=
  ∀ n ∈ e.nodes, P n.location ∧ n.location = n.first.location

variable {P : Location → Prop} {e c : Expr}

/-- A tree is anchored if its root is and all trees inside are. -/
theorem anchored_iff : e.Anchored P ↔
    (P e.location ∧ e.location = e.first.location) ∧ ∀ c ∈ e.children, c.Anchored P :=
  forall_mem_nodes

/-- An anchored tree stands at one of the places. -/
theorem Anchored.location (h : e.Anchored P) : P e.location := (anchored_iff.mp h).1.1

/-- A node at which its own text begins may stand at any such place. -/
theorem anchored_of_first_self (hfirst : e.first = e) (hplace : P e.location)
    (h : ∀ c ∈ e.children, c.Anchored P) : e.Anchored P :=
  anchored_iff.mpr ⟨⟨hplace, congrArg Expr.location hfirst.symm⟩, h⟩

/-- A node whose text begins with that of a child has to stand where the child stands. -/
theorem anchored_of_first_child (hc : c ∈ e.children) (hfirst : e.first = c.first)
    (hplace : e.location = c.location) (h : ∀ c ∈ e.children, c.Anchored P) : e.Anchored P := by
  obtain ⟨⟨hchild, hbegin⟩, -⟩ := anchored_iff.mp (h c hc)
  refine anchored_iff.mpr ⟨⟨hplace ▸ hchild, ?_⟩, h⟩
  rw [hplace, hfirst, hbegin]

/-- An empty node stands where it was put. -/
theorem anchored_empty {l : Location} (hl : P l) : (empty l).Anchored P :=
  anchored_of_first_self rfl hl (List.forall_mem_nil _)

/-- A chain of commas lists anchored arguments. -/
theorem Anchored.args (h : e.Anchored P) : ∀ a ∈ e.args, a.Anchored P :=
  forall_mem_argsBefore (fun _ _ _ hcomma => forall_mem_pair.mp (anchored_iff.mp hcomma).2) h
    (List.forall_mem_nil _)

end Expr

namespace Build

open KernelTree.Expr

/-- A result with such a value, or a fault at such a place. -/
def Places {α : Type} (P : Location → Prop) (Q : α → Prop) : Except BuildError α → Prop
  | .ok a => Q a
  | .error e => P e.location

/-- All that waits and all that was built stands at such places. -/
structure State.Anchored (P : Location → Prop) (s : State) : Prop where
  output : ∀ e ∈ s.output, e.Anchored P
  pending : ∀ p ∈ s.pending, P p.location
  frames : ∀ f ∈ s.frames, P f.location ∧ ∀ p ∈ f.outer, P p.location

variable {P : Location → Prop} {base : Nat} {output : List Expr} {pending : List Pending}
  {frame : Frame} {s : State} {l : Location}

/-- Two steps in a row find places if the first does and the second does from what the first
gives. -/
theorem Places.bind {α β : Type} {Q : α → Prop} {R : β → Prop} {x : Except BuildError α}
    {k : α → Except BuildError β} (hx : Places P Q x) (hk : ∀ a, Q a → Places P R (k a)) :
    Places P R (x >>= k) := by
  cases x with
  | error e => exact hx
  | ok a => exact hk a hx

/-! ### Operators -/

/-- A missing operand is blamed on the operator. -/
theorem places_popOperand (hl : P l) (hout : ∀ e ∈ output, e.Anchored P) :
    Places P (fun r => r.1.Anchored P ∧ ∀ e ∈ r.2, e.Anchored P) (popOperand base l output) := by
  unfold popOperand
  split
  · exact hl
  · split
    · exact hl
    · exact List.forall_mem_cons.mp hout

/-- A prefix operator that makes no node is blamed itself. -/
theorem places_prefixNode {op : PrefixOp} {v : Expr} (hl : P l) (hv : v.Anchored P) :
    Places P (Expr.Anchored P) (prefixNode op v l) := by
  have hchild : ∀ c ∈ [v], c.Anchored P := List.forall_mem_singleton.mpr hv
  cases op with
  | cast => exact hl
  | new => exact hl
  | delete => exact hl
  | _ => exact anchored_of_first_self rfl hl hchild

/-- A conditional stands where its condition does; the places of the markers are dropped. -/
theorem anchored_foldTernary (h : ∀ e ∈ output, e.Anchored P) :
    ∀ e ∈ foldTernary base output, e.Anchored P := by
  rcases foldTernary_cases base output with heq | ⟨onFalse, onTrue, check, l, l', rest, rfl, -, heq⟩
  · rw [heq]
    exact h
  · rw [heq]
    simp only [List.forall_mem_cons] at h ⊢
    obtain ⟨hfalse, htrue, hcheck, hrest⟩ := h
    have hbranch {op : Operator} {v : Expr} {l : Location} (h : (prefixed op v l).Anchored P) :
        v.Anchored P := (anchored_iff.mp h).2 v (List.mem_singleton.mpr rfl)
    refine ⟨anchored_of_first_child (List.mem_cons_self ..) rfl rfl ?_, hrest⟩
    exact List.forall_mem_cons.mpr ⟨hcheck, forall_mem_pair.mpr ⟨hbranch htrue, hbranch hfalse⟩⟩

/-- An operator stands where it was read, except that infix and postfix nodes stand where their left
operand begins. -/
theorem places_apply {p : Pending} (hp : P p.location) (hout : ∀ e ∈ output, e.Anchored P) :
    Places P (fun output' => ∀ e ∈ output', e.Anchored P) (apply base p output) := by
  obtain ⟨action, l⟩ := p
  cases action with
  | binary op =>
    refine (places_popOperand hp hout).bind ?_
    rintro ⟨b, rest⟩ ⟨hb, hrest⟩
    refine (places_popOperand hp hrest).bind ?_
    rintro ⟨a, rest⟩ ⟨ha, hrest⟩
    refine List.forall_mem_cons.mpr ⟨?_, hrest⟩
    exact anchored_of_first_child (List.mem_cons_self ..) rfl rfl (forall_mem_pair.mpr ⟨ha, hb⟩)
  | post op =>
    refine (places_popOperand hp hout).bind ?_
    rintro ⟨v, rest⟩ ⟨hv, hrest⟩
    refine List.forall_mem_cons.mpr ⟨?_, hrest⟩
    exact anchored_of_first_child (List.mem_cons_self ..) rfl rfl (List.forall_mem_singleton.mpr hv)
  | pre op =>
    refine (places_popOperand hp hout).bind ?_
    rintro ⟨v, rest⟩ ⟨hv, hrest⟩
    refine (places_prefixNode hp hv).bind fun node hnode => ?_
    exact anchored_foldTernary (List.forall_mem_cons.mpr ⟨hnode, hrest⟩)
  | cast t =>
    refine (places_popOperand hp hout).bind ?_
    rintro ⟨v, rest⟩ ⟨hv, hrest⟩
    refine anchored_foldTernary (List.forall_mem_cons.mpr ⟨?_, hrest⟩)
    exact anchored_of_first_self rfl hp (List.forall_mem_singleton.mpr hv)

/-- Everything that is pending is applied at its place. -/
theorem places_applyAll (hpending : ∀ p ∈ pending, P p.location)
    (hout : ∀ e ∈ output, e.Anchored P) :
    Places P (fun output' => ∀ e ∈ output', e.Anchored P) (applyAll base pending output) := by
  induction pending generalizing output with
  | nil => exact hout
  | cons p pending ih =>
    obtain ⟨hp, hpending⟩ := List.forall_mem_cons.mp hpending
    exact (places_apply hp hout).bind fun middle hmiddle => ih hpending hmiddle

/-- What binds more tightly is applied at its place. -/
theorem places_applyFaster {action : Action} (hpending : ∀ p ∈ pending, P p.location)
    (hout : ∀ e ∈ output, e.Anchored P) :
    Places P (fun r => (∀ p ∈ r.1, P p.location) ∧ ∀ e ∈ r.2, e.Anchored P)
      (applyFaster base action pending output) := by
  induction pending generalizing output with
  | nil => exact ⟨hpending, hout⟩
  | cons top pending ih =>
    obtain ⟨htop, hrest⟩ := List.forall_mem_cons.mp hpending
    rw [applyFaster]
    split
    · refine (places_apply htop hout).bind fun middle hmiddle => ?_
      split
      · exact ⟨hrest, hmiddle⟩
      · exact ih hrest hmiddle
    · exact ⟨hpending, hout⟩

/-- An operator waits at its place. -/
theorem places_push (action : Action) (hl : P l) (hs : s.Anchored P) :
    Places P (State.Anchored P) (push s action l) := by
  rw [push]
  split
  · exact ⟨hs.output, List.forall_mem_cons.mpr ⟨hl, hs.pending⟩, hs.frames⟩
  · refine (places_applyFaster hs.pending hs.output).bind ?_
    rintro ⟨pending, output⟩ ⟨hpending, hout⟩
    exact ⟨hout, List.forall_mem_cons.mpr ⟨hl, hpending⟩, hs.frames⟩

/-! ### Brackets -/

/-- The place of an entry of the output, or of the bracket if there is no such entry. -/
theorem place_of_getElem? (hl : P l) (hout : ∀ e ∈ output, e.Anchored P) (i : Nat) :
    P ((output[i]?.map Expr.location).getD l) := by
  cases hentry : output[i]? with
  | none => exact hl
  | some e => exact (hout e (List.mem_of_getElem? hentry)).location

/-- An empty bracket has its content where the bracket is. -/
theorem places_content (hl : P frame.location) (hout : ∀ e ∈ output, e.Anchored P) :
    Places P (fun r => r.1.Anchored P ∧ ∀ e ∈ r.2, e.Anchored P) (content frame output) := by
  unfold content
  split
  · exact ⟨anchored_empty hl, hout⟩
  · exact List.forall_mem_cons.mp hout
  · exact place_of_getElem? hl hout _

/-- A bracket behind a value makes a node where the value begins. -/
theorem places_attach {callee value : Expr} (hl : P frame.location) (hcallee : callee.Anchored P)
    (hvalue : value.Anchored P) :
    Places P (fun nodes => ∀ e ∈ nodes, e.Anchored P) (attach frame callee value) := by
  have hargs := hvalue.args
  unfold attach
  cases frame.bracket with
  | round =>
    dsimp only
    split
    -- A conversion stands where its type does, a call where its callee begins.
    case h_1 type arg ht heq =>
      rw [heq] at hargs
      exact List.forall_mem_singleton.mpr (anchored_of_first_self rfl hcallee.location hargs)
    case h_2 =>
      refine List.forall_mem_singleton.mpr ?_
      exact anchored_of_first_child (List.mem_cons_self ..) rfl rfl
        (List.forall_mem_cons.mpr ⟨hcallee, hargs⟩)
  | square =>
    refine List.forall_mem_singleton.mpr ?_
    exact anchored_of_first_child (List.mem_cons_self ..) rfl rfl
      (forall_mem_pair.mpr ⟨hcallee, hvalue⟩)
  | launch =>
    dsimp only
    split
    -- Too many arguments are blamed on the first one too many, too few on the bracket.
    case h_1 blocks threads heq =>
      rw [heq] at hargs
      refine List.forall_mem_singleton.mpr ?_
      exact anchored_of_first_child (List.mem_cons_self ..) rfl rfl
        (List.forall_mem_cons.mpr ⟨hcallee, hargs⟩)
    case h_2 blocks threads extra more heq => exact (hargs extra (by simp [heq])).location
    case h_3 => exact hl
  | curly => exact forall_mem_pair.mpr ⟨anchored_of_first_self rfl hl hargs, hcallee⟩

/-- A bracket by itself makes a node where it was opened. -/
theorem places_standAlone {value : Expr} (hl : P frame.location) (hs : s.Anchored P)
    (hvalue : value.Anchored P) : Places P (State.Anchored P) (standAlone s frame value) := by
  have hparens : Places P (State.Anchored P)
      (.ok { s with output := .parens value frame.location :: s.output }) := by
    have hgroup : (Expr.parens value frame.location).Anchored P :=
      anchored_of_first_self rfl hl (List.forall_mem_singleton.mpr hvalue)
    exact ⟨List.forall_mem_cons.mpr ⟨hgroup, hs.output⟩, hs.pending, hs.frames⟩
  cases hb : frame.bracket with
  | round =>
    by_cases hempty : ∃ l, value = .empty l
    · obtain ⟨l, rfl⟩ := hempty
      rw [standAlone_empty hb]
      exact hl
    · cases ht : value.vartype? with
      | none =>
        rw [standAlone_parens hb (not_exists.mp hempty) ht]
        exact hparens
      | some t =>
        rw [standAlone_type hb ht]
        split
        · exact hparens
        · exact ⟨hs.output, List.forall_mem_cons.mpr ⟨hl, hs.pending⟩, hs.frames⟩
  | curly =>
    rw [standAlone_tuple hb]
    have htuple : (Expr.tuple value.args frame.location).Anchored P :=
      anchored_of_first_self rfl hl hvalue.args
    exact ⟨List.forall_mem_cons.mpr ⟨htuple, hs.output⟩, hs.pending, hs.frames⟩
  | square =>
    rw [standAlone_error (.inl hb)]
    exact hl
  | launch =>
    rw [standAlone_error (.inr hb)]
    exact hl

/-- A bracket that closes nothing, or something else, is blamed itself. -/
theorem places_close (bracket : Bracket) (hl : P l) (hs : s.Anchored P) :
    Places P (State.Anchored P) (close s bracket l) := by
  refine (places_applyAll hs.pending hs.output).bind fun output hout => ?_
  cases hframes : s.frames with
  | nil => exact hl
  | cons frame frames =>
    have hopen := hs.frames
    rw [hframes] at hopen
    obtain ⟨⟨hframe, houter⟩, hopen⟩ := List.forall_mem_cons.mp hopen
    dsimp only
    split
    · exact hframe
    · refine (places_content hframe hout).bind ?_
      rintro ⟨value, rest⟩ ⟨hvalue, hrest⟩
      dsimp only
      split
      case h_1 callee rest _ =>
        obtain ⟨hcallee, hrest⟩ := List.forall_mem_cons.mp hrest
        refine (places_attach hframe hcallee hvalue).bind fun nodes hnodes => ?_
        exact ⟨List.forall_mem_append.mpr ⟨hnodes, hrest⟩, houter, hopen⟩
      case h_2 => exact places_standAlone hframe ⟨hrest, houter, hopen⟩ hvalue

/-! ### The whole row -/

/-- A symbol whose reading is open is blamed itself. -/
theorem places_settle (s : State) (op : Operator) (hl : P l) (next : Option Lexeme) :
    Places P (fun _ => True) (settle s op l next) := by
  cases op with
  | unresolved a =>
    have hreads : Places P (fun _ => True) (readsAsPrefix s a l next) := by
      unfold readsAsPrefix
      repeat' split
      all_goals first | exact trivial | exact hl
    rw [settle]
    cases hread : readsAsPrefix s a l next with
    | error e =>
      rw [hread] at hreads
      exact hreads
    | ok isPrefixed => exact trivial
  | _ => exact trivial

/-- What goes wrong at an operator is blamed on it or on what was pending. -/
theorem places_readOperator (op : Operator) (hl : P l) (hs : s.Anchored P) :
    Places P (State.Anchored P) (readOperator s op l) := by
  cases op with
  | opening b =>
    refine ⟨hs.output, List.forall_mem_nil _, ?_⟩
    exact List.forall_mem_cons.mpr ⟨⟨hl, hs.pending⟩, hs.frames⟩
  | closing b => exact places_close b hl hs
  | unresolved a => exact hl
  | pre op => exact places_push _ hl hs
  | post op => exact places_push _ hl hs
  | binary op => exact places_push _ hl hs

/-- A step blames its token or one that was read before. -/
theorem places_step {t : Token} (next : Option Lexeme) (ht : P t.location) (hs : s.Anchored P) :
    Places P (State.Anchored P) (step s t next) := by
  obtain ⟨lexeme, l⟩ := t
  cases lexeme with
  | atom a =>
    have hleaf : (Expr.atom a l).Anchored P := anchored_of_first_self rfl ht (List.forall_mem_nil _)
    exact ⟨List.forall_mem_cons.mpr ⟨hleaf, hs.output⟩, hs.pending, hs.frames⟩
  | op symbol =>
    refine (places_settle s symbol ht next).bind fun op _ => ?_
    refine (places_readOperator op ht hs).bind fun s' hs' => ?_
    exact ⟨hs'.output, hs'.pending, hs'.frames⟩

/-- By induction along the row: every fault and every node is at the place of a token. -/
theorem places_run {ts : List Token} (hts : ∀ t ∈ ts, P t.location) (hs : s.Anchored P) :
    Places P (State.Anchored P) (run s ts) := by
  induction ts generalizing s with
  | nil => exact hs
  | cons t ts ih =>
    obtain ⟨ht, hts⟩ := List.forall_mem_cons.mp hts
    exact (places_step _ ht hs).bind fun s' hs' => ih hts hs'

/-- Values that are left over are blamed where they stand. -/
theorem places_conclude {start : Location} (hstart : P start) (hout : ∀ e ∈ output, e.Anchored P) :
    Places P (Expr.Anchored P) (conclude start output) := by
  rcases output with _ | ⟨e, _ | ⟨e', rest⟩⟩
  · exact anchored_empty hstart
  · have he := hout e (List.mem_cons_self ..)
    rw [conclude]
    split
    · exact he.location
    · exact he
  · exact (hout e' (by simp)).location

/-- At the end a bracket that is still open is blamed where it was opened. -/
theorem places_finish {start : Location} (hstart : P start) (hs : s.Anchored P) :
    Places P (Expr.Anchored P) (finish s start) := by
  have hall : Places P (fun output => ∀ e ∈ output, e.Anchored P)
      (applyAll s.base s.pending s.output) := places_applyAll hs.pending hs.output
  cases hframes : s.frames with
  | nil =>
    rw [finish_nil start hframes]
    exact hall.bind fun output hout => places_conclude hstart (anchored_foldTernary hout)
  | cons frame frames =>
    rw [finish_cons start hframes]
    exact hall.bind fun _ _ => (hs.frames frame (by simp [hframes])).1

end Build

namespace Expr

/-- **No place is made up**: for a row of tokens that is not empty, a fault is blamed on the place
of one of them, and every node of a tree stands at the place of one of them, that of the first node
of its own text. -/
theorem anchored_ofTokens (ts : List Token) (hne : ts ≠ []) :
    (∀ e, ofTokens ts = .error e → e.location ∈ ts.map Token.location) ∧
      ∀ e, ofTokens ts = .ok e → ∀ n ∈ e.nodes,
        n.location ∈ ts.map Token.location ∧ n.location = n.first.location := by
  have hts : ∀ t ∈ ts, t.location ∈ ts.map Token.location := fun t => List.mem_map_of_mem
  have hinitial : Build.State.initial.Anchored (· ∈ ts.map Token.location) :=
    ⟨List.forall_mem_nil _, List.forall_mem_nil _, List.forall_mem_nil _⟩
  have hplaces : Build.Places (· ∈ ts.map Token.location) (Anchored (· ∈ ts.map Token.location))
      (ofTokens ts) := by
    cases ts with
    | nil => exact absurd rfl hne
    | cons t ts =>
      have hstart := hts t (List.mem_cons_self ..)
      exact (Build.places_run hts hinitial).bind fun s hs => Build.places_finish hstart hs
  refine ⟨fun e he => ?_, fun e he => ?_⟩ <;>
    rw [he] at hplaces <;>
    exact hplaces

/-- The negated result of a call, `-f[](a)`. -/
def negatedCall : Expr :=
  prefixed (.pre .negative)
    (call (subscript (atom (.identifier "f") ⟨1, 2⟩) (empty ⟨1, 3⟩) ⟨1, 2⟩)
      [atom (.identifier "a") ⟨1, 6⟩] ⟨1, 2⟩) ⟨1, 1⟩

/-- The tokens of the call, with more arguments behind the first. -/
def negatedCallTokens (more : List Token) : List Token :=
  [⟨.op (.unresolved .minus), ⟨1, 1⟩⟩, ⟨.atom (.identifier "f"), ⟨1, 2⟩⟩,
    ⟨.op (.opening .square), ⟨1, 3⟩⟩, ⟨.op (.closing .square), ⟨1, 4⟩⟩,
    ⟨.op (.opening .round), ⟨1, 5⟩⟩, ⟨.atom (.identifier "a"), ⟨1, 6⟩⟩] ++ more ++
    [⟨.op (.closing .round), ⟨1, 9⟩⟩]

/-- An argument that no comma separates from the one before. -/
def strayArgument : List Token := [⟨.atom (.identifier "b"), ⟨1, 8⟩⟩]

/-- The call stands at its callee and the missing index at its bracket. Of two arguments without a
comma the second is blamed. -/
theorem anchored_negatedCall :
    (negatedCallTokens [] ≠ [] ∧ ofTokens (negatedCallTokens []) = .ok negatedCall ∧
      ∀ n ∈ negatedCall.nodes, n.location ∈ (negatedCallTokens []).map Token.location ∧
        n.location = n.first.location) ∧
    negatedCallTokens strayArgument ≠ [] ∧
      ofTokens (negatedCallTokens strayArgument) = .error ⟨.malformed, ⟨1, 8⟩⟩ ∧
      ⟨1, 8⟩ ∈ (negatedCallTokens strayArgument).map Token.location := by
  have htree : ofTokens (negatedCallTokens []) = .ok negatedCall := rfl
  have hfault : ofTokens (negatedCallTokens strayArgument) = .error ⟨.malformed, ⟨1, 8⟩⟩ := rfl
  have hne (more : List Token) : negatedCallTokens more ≠ [] := List.cons_ne_nil _ _
  exact ⟨⟨hne [], htree, (anchored_ofTokens _ (hne [])).2 negatedCall htree⟩, hne strayArgument,
    hfault, (anchored_ofTokens _ (hne strayArgument)).1 _ hfault⟩

end Expr

end KernelTree
