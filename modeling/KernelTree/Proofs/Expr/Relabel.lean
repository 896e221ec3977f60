import KernelTree.Proofs.Expr.Steps

/-!
# Building a tree and relabelling its leaves

The builder looks at a leaf only to see whether it names a type. A relabelling that leaves that
alone can therefore be done on the tokens or on the finished tree: `Expr.ofTokens_map` is the
equation, and it carries over every fault with its place. The rest of the module follows the
builder function by function, with `Build.State.mapAtoms` as the simulation between the two runs.
-/

namespace KernelTree

namespace Expr

variable (f : Atom → Atom)

/-! ### Relabelled nodes -/

/-- A leaf is relabelled. -/
@[simp] theorem mapAtoms_atom (a : Atom) (l : Location) :
    (atom a l).mapAtoms f = atom (f a) l := by
  rw [mapAtoms]

/-- Every node but a leaf is relabelled by relabelling its children. -/
theorem mapAtoms_eq {e : Expr} (h : ∀ a l, e ≠ atom a l) :
    e.mapAtoms f = e.withChildren (e.children.map (mapAtoms f)) := by
  rw [mapAtoms.eq_def]
  cases e with
  | atom a l => exact absurd rfl (h a l)
  | _ => simp

/-- An empty node has no leaf. -/
@[simp] theorem mapAtoms_empty (l : Location) : (empty l).mapAtoms f = empty l := by
  rw [mapAtoms_eq f (by simp)]
  rfl

/-- All other nodes are kept, and what is inside them is relabelled. -/
@[simp] theorem mapAtoms_prefixed (op : Operator) (v : Expr) (l : Location) :
    (prefixed op v l).mapAtoms f = prefixed op (v.mapAtoms f) l := by
  rw [mapAtoms_eq f (by simp)]
  rfl

@[simp] theorem mapAtoms_postfixed (op : Operator) (v : Expr) (l : Location) :
    (postfixed op v l).mapAtoms f = postfixed op (v.mapAtoms f) l := by
  rw [mapAtoms_eq f (by simp)]
  rfl

@[simp] theorem mapAtoms_binary (op : Operator) (a b : Expr) (l : Location) :
    (binary op a b l).mapAtoms f = binary op (a.mapAtoms f) (b.mapAtoms f) l := by
  rw [mapAtoms_eq f (by simp)]
  rfl

@[simp] theorem mapAtoms_ternary (a b c : Expr) (l : Location) :
    (ternary a b c l).mapAtoms f
      = ternary (a.mapAtoms f) (b.mapAtoms f) (c.mapAtoms f) l := by
  rw [mapAtoms_eq f (by simp)]
  rfl

@[simp] theorem mapAtoms_pair (op : Operator) (v : Expr) (l : Location) :
    (pair op v l).mapAtoms f = pair op (v.mapAtoms f) l := by
  rw [mapAtoms_eq f (by simp)]
  rfl

@[simp] theorem mapAtoms_subscript (v i : Expr) (l : Location) :
    (subscript v i l).mapAtoms f = subscript (v.mapAtoms f) (i.mapAtoms f) l := by
  rw [mapAtoms_eq f (by simp)]
  rfl

/-- The arguments of a call are relabelled one by one. -/
@[simp] theorem mapAtoms_call (callee : Expr) (args : List Expr) (l : Location) :
    (call callee args l).mapAtoms f
      = call (callee.mapAtoms f) (args.map (mapAtoms f)) l := by
  rw [mapAtoms_eq f (by simp)]
  rfl

@[simp] theorem mapAtoms_launch (k b t : Expr) (l : Location) :
    (launch k b t l).mapAtoms f = launch (k.mapAtoms f) (b.mapAtoms f) (t.mapAtoms f) l := by
  rw [mapAtoms_eq f (by simp)]
  rfl

@[simp] theorem mapAtoms_sizeof (v : Expr) (l : Location) :
    (sizeof v l).mapAtoms f = sizeof (v.mapAtoms f) l := by
  rw [mapAtoms_eq f (by simp)]
  rfl

/-- The type that is made room for stays as it is. -/
@[simp] theorem mapAtoms_new (t : Vartype) (v size : Expr) (l : Location) :
    (new t v size l).mapAtoms f = new t (v.mapAtoms f) (size.mapAtoms f) l := by
  rw [mapAtoms_eq f (by simp)]
  rfl

@[simp] theorem mapAtoms_delete (v : Expr) (isArray : Bool) (l : Location) :
    (delete v isArray l).mapAtoms f = delete (v.mapAtoms f) isArray l := by
  rw [mapAtoms_eq f (by simp)]
  rfl

@[simp] theorem mapAtoms_throw (v : Expr) (l : Location) :
    (throw v l).mapAtoms f = throw (v.mapAtoms f) l := by
  rw [mapAtoms_eq f (by simp)]
  rfl

/-- The type of a conversion is no leaf and stays as it is. -/
@[simp] theorem mapAtoms_cast (k : CastKind) (t : Vartype) (v : Expr) (l : Location) :
    (cast k t v l).mapAtoms f = cast k t (v.mapAtoms f) l := by
  rw [mapAtoms_eq f (by simp)]
  rfl

@[simp] theorem mapAtoms_parens (v : Expr) (l : Location) :
    (parens v l).mapAtoms f = parens (v.mapAtoms f) l := by
  rw [mapAtoms_eq f (by simp)]
  rfl

/-- The entries of a tuple are relabelled one by one. -/
@[simp] theorem mapAtoms_tuple (args : List Expr) (l : Location) :
    (tuple args l).mapAtoms f = tuple (args.map (mapAtoms f)) l := by
  rw [mapAtoms_eq f (by simp)]
  rfl

/-- The trees inside are relabelled one by one. -/
theorem children_mapAtoms (e : Expr) :
    (e.mapAtoms f).children = e.children.map (mapAtoms f) := by
  cases e <;> simp [children]

/-- Only leaves are relabelled to leaves. -/
theorem mapAtoms_eq_atom {f : Atom → Atom} {e : Expr} {b : Atom} {l : Location} :
    e.mapAtoms f = atom b l ↔ ∃ a, e = atom a l ∧ f a = b := by
  constructor
  · intro h
    have hchildren := congrArg children h
    cases e with
    | atom a l' =>
      rw [mapAtoms_atom] at h
      obtain ⟨rfl, rfl⟩ := atom.inj h
      exact ⟨a, rfl, rfl⟩
    | call | tuple => simp at h
    | _ => rw [mapAtoms_eq f (by simp)] at h; exact absurd h (by simp [withChildren, children])
  · rintro ⟨a, rfl, rfl⟩
    exact mapAtoms_atom f a l

/-- Relabelling twice is relabelling once. -/
theorem mapAtoms_mapAtoms (g : Atom → Atom) (e : Expr) :
    (e.mapAtoms g).mapAtoms f = e.mapAtoms (f ∘ g) := by
  induction e using inductionOn with
  | step e ih => cases e <;> simp_all [children]

/-- A relabelled node stands where it stood. -/
@[simp] theorem location_mapAtoms (e : Expr) : (e.mapAtoms f).location = e.location := by
  cases e with
  | atom a l => simp [location]
  | _ => rw [mapAtoms_eq f (by simp), location_withChildren]

/-- A relabelled node names a type as it did, if the relabelling is of that sort. -/
theorem vartype?_mapAtoms {f : Atom → Atom} (hf : ∀ a, (f a).vartype? = a.vartype?) (e : Expr) :
    (e.mapAtoms f).vartype? = e.vartype? := by
  cases e with
  | atom a l => simpa [vartype?] using hf a
  | call | tuple => simp [vartype?]
  | _ => rw [mapAtoms_eq f (by simp)]; rfl

/-- Only a prefix operator is relabelled to a prefix operator. -/
theorem mapAtoms_eq_prefixed {e v : Expr} {op : Operator} {l : Location}
    (h : e.mapAtoms f = prefixed op v l) : ∃ w, e = prefixed op w l ∧ v = w.mapAtoms f := by
  cases e with
  | atom a l => simp at h
  | prefixed op' w l' =>
    simp only [mapAtoms_prefixed, prefixed.injEq] at h
    obtain ⟨rfl, rfl, rfl⟩ := h
    exact ⟨w, rfl, rfl⟩
  | call | tuple => simp at h
  | _ => rw [mapAtoms_eq f (by simp)] at h; exact absurd h (by simp [withChildren, children])

/-- Only an empty node is relabelled to an empty node. -/
theorem mapAtoms_eq_empty {e : Expr} {l : Location} (h : e.mapAtoms f = empty l) :
    e = empty l := by
  cases e with
  | atom a l => simp at h
  | empty l' => simpa using h
  | call | tuple => simp at h
  | _ => rw [mapAtoms_eq f (by simp)] at h; exact absurd h (by simp [withChildren, children])

/-- The arguments of a comma chain are relabelled one by one. -/
theorem argsBefore_mapAtoms (e : Expr) (rest : List Expr) :
    (e.mapAtoms f).argsBefore (rest.map (mapAtoms f))
      = (e.argsBefore rest).map (mapAtoms f) := by
  induction e, rest using argsBefore_induction with
  | comma a b l rest ih => simpa [argsBefore] using ih
  | nothing l => simp [argsBefore]
  | operand e rest hcomma hargs =>
    rw [hargs]
    cases e with
    | empty l =>
      have hrest : rest ≠ [] := by
        rintro rfl
        simp [argsBefore] at hargs
      simp [argsBefore, hrest]
    | binary op a b l =>
      have hop : op ≠ .binary .comma := fun h => hcomma a b l (h ▸ rfl)
      simp [argsBefore, hop]
    | call | tuple => simp [argsBefore]
    | _ => simp [argsBefore, mapAtoms_eq, withChildren, children]

/-- A chain of commas lists the same arguments, relabelled. -/
theorem args_mapAtoms (e : Expr) : (e.mapAtoms f).args = e.args.map (mapAtoms f) :=
  argsBefore_mapAtoms f e []

end Expr

namespace Lexeme

/-- The token with its leaf passed through `f`. -/
def mapAtom (f : Atom → Atom) : Lexeme → Lexeme
  | atom a => atom (f a)
  | op o => op o

end Lexeme

/-- The token with its leaf passed through `f`, where it stands. -/
def Token.mapAtom (f : Atom → Atom) (t : Token) : Token := { t with lexeme := t.lexeme.mapAtom f }

namespace Build

variable {f : Atom → Atom}

/-! ### Operators -/

/-- An operand is taken off the output, or missing, alike. -/
theorem popOperand_map (base : Nat) (l : Location) (output : List Expr) :
    popOperand base l (output.map (Expr.mapAtoms f))
      = (popOperand base l output).map fun r => (r.1.mapAtoms f, r.2.map (Expr.mapAtoms f)) := by
  cases output with
  | nil => rfl
  | cons e rest =>
    simp only [popOperand, List.map_cons, List.length_cons, List.length_map]
    split <;> rfl

/-- The marks of a conditional are no leaves, so it is folded alike. -/
theorem foldTernary_map (base : Nat) (output : List Expr) :
    foldTernary base (output.map (Expr.mapAtoms f))
      = (foldTernary base output).map (Expr.mapAtoms f) := by
  unfold foldTernary
  split
  case h_1 onFalse _ onTrue _ check rest h =>
    obtain ⟨e, output, rfl, he, h⟩ := List.map_eq_cons_iff.mp h
    obtain ⟨e', output, rfl, he', h⟩ := List.map_eq_cons_iff.mp h
    obtain ⟨c, output, rfl, rfl, rfl⟩ := List.map_eq_cons_iff.mp h
    obtain ⟨onFalse, rfl, rfl⟩ := Expr.mapAtoms_eq_prefixed f he
    obtain ⟨onTrue, rfl, rfl⟩ := Expr.mapAtoms_eq_prefixed f he'
    simp only [List.map_cons, List.length_cons, List.length_map]
    split <;> simp
  case h_2 h =>
    split
    · simp only [List.map_cons, Expr.mapAtoms_prefixed] at h
      exact (h _ _ _ _ _ _ rfl).elim
    · rfl

/-- A prefix operator makes the same node of a relabelled operand, or the same fault. -/
theorem prefixNode_map (op : PrefixOp) (value : Expr) (l : Location) :
    prefixNode op (value.mapAtoms f) l = (prefixNode op value l).map (Expr.mapAtoms f) := by
  cases op <;> simp [prefixNode, Except.map]

/-- What follows a relabelled result is relabelled if it is after every result. -/
theorem bind_map {α α' β β' ε : Type} {x : Except ε α} {g : α → α'} {r : β → β'}
    {j : α → Except ε β} {k : α' → Except ε β'} (h : ∀ a, k (g a) = (j a).map r) :
    (x.map g >>= k) = (x >>= j).map r := by
  cases x with
  | error e => rfl
  | ok a => exact h a

/-- Applying an operator commutes with relabelling the output. -/
theorem apply_map (base : Nat) (p : Pending) (output : List Expr) :
    apply base p (output.map (Expr.mapAtoms f))
      = (apply base p output).map (List.map (Expr.mapAtoms f)) := by
  unfold apply
  rw [popOperand_map]
  split
  · refine bind_map fun ⟨right, output⟩ => ?_
    dsimp only
    rw [popOperand_map]
    exact bind_map fun ⟨left, output⟩ => by simp [Expr.mkBinary, Except.map]
  · exact bind_map fun ⟨value, output⟩ => by simp [Expr.mkPostfixed, Except.map]
  · refine bind_map fun ⟨value, output⟩ => ?_
    dsimp only
    rw [prefixNode_map]
    refine bind_map fun node => ?_
    rw [← List.map_cons, foldTernary_map]
    rfl
  · refine bind_map fun ⟨value, output⟩ => ?_
    dsimp only
    rw [← Expr.mapAtoms_cast, ← List.map_cons, foldTernary_map]
    rfl

/-- Everything that is pending is applied alike. -/
theorem applyAll_map (base : Nat) (pending : List Pending) (output : List Expr) :
    applyAll base pending (output.map (Expr.mapAtoms f))
      = (applyAll base pending output).map (List.map (Expr.mapAtoms f)) := by
  induction pending generalizing output with
  | nil => rfl
  | cons p pending ih =>
    rw [applyAll, applyAll, apply_map]
    exact bind_map fun r => ih r

/-- What binds more tightly than an operator does not depend on leaves. -/
theorem applyFaster_map (base : Nat) (action : Action) (pending : List Pending)
    (output : List Expr) :
    applyFaster base action pending (output.map (Expr.mapAtoms f))
      = (applyFaster base action pending output).map
          fun r => (r.1, r.2.map (Expr.mapAtoms f)) := by
  induction pending generalizing output with
  | nil => rfl
  | cons p pending ih =>
    rw [applyFaster, applyFaster]
    split
    · rw [apply_map]
      refine bind_map fun r => ?_
      split
      · rfl
      · exact ih r
    · rfl

/-! ### Readings -/

/-- What stands beside an operator matters by its kind only. -/
@[simp] theorem neighbour_mapAtom (t : Lexeme) : neighbour (t.mapAtom f) = neighbour t := by
  cases t <;> rfl

@[simp] theorem isOperator_mapAtom (t : Lexeme) : isOperator (t.mapAtom f) = isOperator t := by
  cases t <;> rfl

@[simp] theorem isStep_mapAtom (t : Lexeme) : isStep (t.mapAtom f) = isStep t := by
  cases t <;> rfl

/-- The tree under construction with its leaves passed through `f`. -/
def State.mapAtoms (f : Atom → Atom) (s : State) : State :=
  { s with
    output := s.output.map (Expr.mapAtoms f)
    previous := s.previous.map (Lexeme.mapAtom f) }

/-- How a symbol with two readings is read does not depend on leaves. -/
theorem readsAsPrefix_map (s : State) (a : Ambiguous) (l : Location) (next : Option Lexeme) :
    readsAsPrefix (s.mapAtoms f) a l (next.map (Lexeme.mapAtom f)) = readsAsPrefix s a l next := by
  cases hp : s.previous <;> cases next <;>
    simp [readsAsPrefix, State.mapAtoms, State.afterCast, hp]

/-- A symbol gets the same reading. -/
theorem settle_map (s : State) (op : Operator) (l : Location) (next : Option Lexeme) :
    settle (s.mapAtoms f) op l (next.map (Lexeme.mapAtom f)) = settle s op l next := by
  cases op <;> simp [settle, readsAsPrefix_map]

/-- An operator waits behind the same others. -/
theorem push_map (s : State) (action : Action) (l : Location) :
    push (s.mapAtoms f) action l = (push s action l).map (State.mapAtoms f) := by
  unfold push
  split
  · rfl
  · show (applyFaster s.base action s.pending (s.output.map (Expr.mapAtoms f)) >>= _) = _
    rw [applyFaster_map]
    exact bind_map fun r => rfl

/-! ### Brackets -/

/-- The value between two brackets is relabelled with the output. -/
theorem content_map (frame : Frame) (output : List Expr) :
    content frame (output.map (Expr.mapAtoms f))
      = (content frame output).map fun r => (r.1.mapAtoms f, r.2.map (Expr.mapAtoms f)) := by
  unfold content
  rw [List.length_map]
  generalize output.length - frame.base = count
  match count, output with
  | 0, output => simp [Except.map]
  | 1, [] => simp [Except.map]
  | 1, e :: rest => simp [Except.map]
  | n + 2, output => simp [Except.map, Function.comp_def]

section

variable (hf : ∀ a, (f a).vartype? = a.vartype?)

include hf

/-- A bracket is attached to the same kind of value: leaves are asked only for their types. -/
theorem attach_map (frame : Frame) (callee value : Expr) :
    attach frame (callee.mapAtoms f) (value.mapAtoms f)
      = (attach frame callee value).map (List.map (Expr.mapAtoms f)) := by
  unfold attach
  rw [Expr.location_mapAtoms, Expr.vartype?_mapAtoms hf, Expr.args_mapAtoms]
  cases frame.bracket with
  | round =>
    match callee.vartype?, value.args with
    | none, args => simp [Except.map]
    | some t, [] => simp [Except.map]
    | some t, [arg] => simp [Except.map]
    | some t, a :: b :: rest => simp [Except.map]
  | square => simp [Except.map]
  | launch =>
    match value.args with
    | [] => rfl
    | [a] => rfl
    | [a, b] => simp [Except.map]
    | a :: b :: c :: rest => simp [Except.map]
  | curly => simp [Except.map]

/-- A bracket by itself is taken for the same: leaves are asked only for their types. -/
theorem standAlone_map (s : State) (frame : Frame) (value : Expr) :
    standAlone (s.mapAtoms f) frame (value.mapAtoms f)
      = (standAlone s frame value).map (State.mapAtoms f) := by
  have hvar := Expr.vartype?_mapAtoms hf value
  cases hb : frame.bracket with
  | round =>
    -- Relabelling keeps apart what is empty, a type and a value, so the bracket takes the same
    -- branch.
    by_cases hempty : ∃ l, value = .empty l
    · obtain ⟨l, rfl⟩ := hempty
      rw [Expr.mapAtoms_empty, standAlone_empty hb, standAlone_empty hb]
      rfl
    · have hne : ∀ l, value ≠ .empty l := fun l h => hempty ⟨l, h⟩
      cases ht : value.vartype? with
      | none =>
        rw [standAlone_parens hb (fun l h => hne l (Expr.mapAtoms_eq_empty f h)) (hvar.trans ht),
          standAlone_parens hb hne ht]
        simp [State.mapAtoms, Except.map]
      | some t =>
        rw [standAlone_type hb (hvar.trans ht), standAlone_type hb ht]
        by_cases h : afterSizeof s.pending <;> simp [State.mapAtoms, Except.map, h]
  | curly =>
    rw [standAlone_tuple hb, standAlone_tuple hb, Expr.args_mapAtoms]
    simp [State.mapAtoms, Except.map]
  | square => rw [standAlone_error (.inl hb), standAlone_error (.inl hb)]; rfl
  | launch => rw [standAlone_error (.inr hb), standAlone_error (.inr hb)]; rfl

/-- Closing a bracket commutes with relabelling the tree under construction. -/
theorem close_map (s : State) (bracket : Bracket) (l : Location) :
    close (s.mapAtoms f) bracket l = (close s bracket l).map (State.mapAtoms f) := by
  unfold close
  show (applyAll s.base s.pending (s.output.map (Expr.mapAtoms f)) >>= _) = _
  rw [applyAll_map]
  refine bind_map fun output => ?_
  have hframes : (s.mapAtoms f).frames = s.frames := rfl
  rw [hframes]
  cases s.frames with
  | nil => rfl
  | cons frame frames =>
    dsimp only
    split
    · rfl
    · rw [content_map]
      refine bind_map ?_
      rintro ⟨value, output⟩
      -- The callee is whatever lies on top; without one there is nothing to attach to.
      cases output with
      | nil => exact standAlone_map hf { s with output := [], pending := _, frames } frame value
      | cons callee rest =>
        cases hv : frame.followsValue s.castClose with
        | false =>
          simpa [State.mapAtoms, hv] using
            standAlone_map hf { s with output := callee :: rest, pending := _, frames } frame value
        | true =>
          have h := bind_map (r := State.mapAtoms f) (x := attach frame callee value)
            (j := fun nodes => .ok
              { s with output := nodes ++ rest, pending := frame.outer, frames := frames })
            (k := fun nodes => .ok
              { s.mapAtoms f with
                output := nodes ++ rest.map (Expr.mapAtoms f), pending := frame.outer
                frames := frames })
            (g := List.map (Expr.mapAtoms f)) (fun nodes => by simp [State.mapAtoms, Except.map])
          rw [← attach_map hf] at h
          simpa [State.mapAtoms, hv] using h

/-! ### Rows of tokens -/

/-- An operator is read alike. -/
theorem readOperator_map (s : State) (op : Operator) (l : Location) :
    readOperator (s.mapAtoms f) op l = (readOperator s op l).map (State.mapAtoms f) := by
  cases op with
  | opening b =>
    cases hp : s.previous <;>
      simp [readOperator, openBracket, State.mapAtoms, Except.map, hp]
  | closing b => exact close_map hf s b l
  | pre op => exact push_map s (.pre op) l
  | post op => exact push_map s (.post op) l
  | binary op => exact push_map s (.binary op) l
  | unresolved a => rfl

/-- Reading one token commutes with relabelling. -/
theorem step_map (s : State) (token : Token) (next : Option Lexeme) :
    step (s.mapAtoms f) (token.mapAtom f) (next.map (Lexeme.mapAtom f))
      = (step s token next).map (State.mapAtoms f) := by
  obtain ⟨lexeme, l⟩ := token
  cases lexeme with
  | atom a => simp [step, Token.mapAtom, Lexeme.mapAtom, State.mapAtoms, Except.map]
  | op o =>
    show (settle (s.mapAtoms f) o l (next.map (Lexeme.mapAtom f)) >>= _) = _
    rw [settle_map]
    show _ = Except.map (State.mapAtoms f) (settle s o l next >>= _)
    cases settle s o l next with
    | error e => rfl
    | ok op =>
      show (readOperator (s.mapAtoms f) op l >>= _) = _
      rw [readOperator_map hf]
      exact bind_map fun s' => rfl

/-- Reading a row of tokens commutes with relabelling: by induction on the row, the run on the
relabelled tokens stays in the relabelled state. -/
theorem run_map (s : State) (tokens : List Token) :
    run (s.mapAtoms f) (tokens.map (Token.mapAtom f)) = (run s tokens).map (State.mapAtoms f) := by
  induction tokens generalizing s with
  | nil => rfl
  | cons token rest ih =>
    have hnext : (rest.map (Token.mapAtom f)).head?.map Token.lexeme
        = (rest.head?.map Token.lexeme).map (Lexeme.mapAtom f) := by
      cases rest <;> rfl
    show (step (s.mapAtoms f) (token.mapAtom f)
      ((rest.map (Token.mapAtom f)).head?.map Token.lexeme) >>= _) = _
    rw [hnext, step_map hf]
    exact bind_map fun s' => ih s'

omit hf in
/-- The marks of a conditional are no leaves. -/
theorem isMarkerNode_mapAtoms (e : Expr) : isMarkerNode (e.mapAtoms f) = isMarkerNode e := by
  cases e with
  | prefixed op v l =>
    rw [Expr.mapAtoms_prefixed]
    unfold isMarkerNode
    split <;> simp_all
  | atom | call | tuple => simp [isMarkerNode]
  | _ => simp [isMarkerNode, Expr.mapAtoms_eq, Expr.withChildren, Expr.children]

omit hf in
/-- What is left on the output makes the same tree, relabelled, or the same fault. -/
theorem conclude_map (start : Location) (output : List Expr) :
    conclude start (output.map (Expr.mapAtoms f))
      = (conclude start output).map (Expr.mapAtoms f) := by
  match output with
  | [] => simp [conclude, Except.map]
  | [e] => cases h : isMarkerNode e <;> simp [conclude, Except.map, isMarkerNode_mapAtoms, h]
  | _ :: e :: _ => simp [conclude, Except.map]

omit hf in
/-- The end of the row is concluded alike. -/
theorem finish_map (s : State) (start : Location) :
    finish (s.mapAtoms f) start = (finish s start).map (Expr.mapAtoms f) := by
  have hall := applyAll_map (f := f) s.base s.pending s.output
  cases hs : s.frames with
  | cons frame frames =>
    rw [finish_cons start hs, finish_cons (s := s.mapAtoms f) start hs]
    show (applyAll s.base s.pending (s.output.map (Expr.mapAtoms f)) >>= _) = _
    rw [hall]
    exact bind_map fun output => rfl
  | nil =>
    rw [finish_nil start hs, finish_nil (s := s.mapAtoms f) start hs]
    show (applyAll s.base s.pending (s.output.map (Expr.mapAtoms f)) >>= _) = _
    rw [hall]
    exact bind_map fun output => by rw [foldTernary_map, conclude_map]

end

end Build

/-- The tree of relabelled tokens is the relabelled tree of the tokens, and where there is none the
faults are the same. -/
theorem Expr.ofTokens_map {f : Atom → Atom} (hf : ∀ a, (f a).vartype? = a.vartype?)
    (tokens : List Token) :
    ofTokens (tokens.map (Token.mapAtom f)) = (ofTokens tokens).map (mapAtoms f) := by
  cases tokens with
  | nil => simp [ofTokens, Except.map]
  | cons token rest =>
    show (Build.run (Build.State.mapAtoms f .initial) ((token :: rest).map (Token.mapAtom f))
      >>= _) = _
    rw [Build.run_map hf]
    exact Build.bind_map fun s => Build.finish_map s token.location

end KernelTree
