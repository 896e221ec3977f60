import KernelTree.Proofs.Expr.Inversion

/-!
# Where leaves come from

Every leaf of a built tree is among the tokens, and so is every type of a conversion
(`Expr.leaves_ofTokens`). While the row is read, types are also kept in pending casts, inside and
outside the open brackets (`Build.State.MadeOf`).
-/

namespace KernelTree

namespace Expr

/-! ### All nodes of a tree -/

/-- What holds of all nodes holds of the root and of all that is under it. -/
theorem forall_mem_nodes {P : Expr → Prop} {e : Expr} :
    (∀ n ∈ e.nodes, P n) ↔ P e ∧ ∀ c ∈ e.children, ∀ n ∈ c.nodes, P n := by
  rw [nodes_eq, List.forall_mem_cons]
  simp only [List.mem_flatMap]
  constructor
  · rintro ⟨he, h⟩
    exact ⟨he, fun c hc n hn => h n ⟨c, hc, hn⟩⟩
  · rintro ⟨he, h⟩
    exact ⟨he, fun n ⟨c, hc, hn⟩ => h c hc n hn⟩

/-- The node is such a leaf, or such a leaf names its type, or it is of another sort. -/
def IsMadeOf (A : Atom → Prop) : Expr → Prop
  | atom a _ => A a
  | cast _ t _ _ => ∃ a, A a ∧ a.vartype? = some t
  | _ => True

/-- All leaves of the tree and the types of its conversions are such leaves. -/
def MadeOf (A : Atom → Prop) (e : Expr) : Prop := ∀ n ∈ e.nodes, n.IsMadeOf A

variable {A : Atom → Prop}

/-- A tree is made of the given leaves if its root and all trees inside are. -/
theorem madeOf_iff {e : Expr} : e.MadeOf A ↔ e.IsMadeOf A ∧ ∀ c ∈ e.children, c.MadeOf A :=
  forall_mem_nodes

/-- What is asked of the two children of a node, without the list. -/
theorem forall_mem_pair {P : Expr → Prop} {a b : Expr} : (∀ c ∈ [a, b], P c) ↔ P a ∧ P b :=
  List.forall_mem_cons.trans (and_congr_right' List.forall_mem_singleton)

/-- A node that writes no leaf of its own is made of what its children are made of. -/
theorem madeOf_children (e : Expr) (h : e.IsMadeOf A) :
    e.MadeOf A ↔ ∀ c ∈ e.children, c.MadeOf A :=
  madeOf_iff.trans (and_iff_right h)

/-- Nothing is made of any leaves. -/
@[simp] theorem madeOf_empty (l : Location) : (empty l).MadeOf A :=
  (madeOf_children (empty l) trivial).mpr (List.forall_mem_nil _)

/-- A leaf is made of itself. -/
@[simp] theorem madeOf_atom (a : Atom) (l : Location) : (atom a l).MadeOf A ↔ A a :=
  madeOf_iff.trans (and_iff_left (List.forall_mem_nil _))

/-- A conversion keeps no leaf for its type, so there must be one that names the type. -/
@[simp] theorem madeOf_cast (k : CastKind) (t : Vartype) (v : Expr) (l : Location) :
    (cast k t v l).MadeOf A ↔ (∃ a, A a ∧ a.vartype? = some t) ∧ v.MadeOf A :=
  madeOf_iff.trans (and_congr_right' List.forall_mem_singleton)

/-- The other nodes bring no leaves of their own. -/
@[simp] theorem madeOf_prefixed (op : Operator) (v : Expr) (l : Location) :
    (prefixed op v l).MadeOf A ↔ v.MadeOf A :=
  (madeOf_children (prefixed op v l) trivial).trans List.forall_mem_singleton

@[simp] theorem madeOf_postfixed (op : Operator) (v : Expr) (l : Location) :
    (postfixed op v l).MadeOf A ↔ v.MadeOf A :=
  (madeOf_children (postfixed op v l) trivial).trans List.forall_mem_singleton

@[simp] theorem madeOf_binary (op : Operator) (a b : Expr) (l : Location) :
    (binary op a b l).MadeOf A ↔ a.MadeOf A ∧ b.MadeOf A :=
  (madeOf_children (binary op a b l) trivial).trans forall_mem_pair

/-- A conditional has three children. -/
@[simp] theorem madeOf_ternary (c a b : Expr) (l : Location) :
    (ternary c a b l).MadeOf A ↔ c.MadeOf A ∧ a.MadeOf A ∧ b.MadeOf A :=
  (madeOf_children (ternary c a b l) trivial).trans
    (List.forall_mem_cons.trans (and_congr_right' forall_mem_pair))

@[simp] theorem madeOf_subscript (v i : Expr) (l : Location) :
    (subscript v i l).MadeOf A ↔ v.MadeOf A ∧ i.MadeOf A :=
  (madeOf_children (subscript v i l) trivial).trans forall_mem_pair

/-- The callee of a call is a child beside its arguments. -/
@[simp] theorem madeOf_call (f : Expr) (args : List Expr) (l : Location) :
    (call f args l).MadeOf A ↔ f.MadeOf A ∧ ∀ a ∈ args, a.MadeOf A :=
  (madeOf_children (call f args l) trivial).trans List.forall_mem_cons

/-- A launch has three children. -/
@[simp] theorem madeOf_launch (k b t : Expr) (l : Location) :
    (launch k b t l).MadeOf A ↔ k.MadeOf A ∧ b.MadeOf A ∧ t.MadeOf A :=
  (madeOf_children (launch k b t l) trivial).trans
    (List.forall_mem_cons.trans (and_congr_right' forall_mem_pair))

@[simp] theorem madeOf_sizeof (v : Expr) (l : Location) :
    (sizeof v l).MadeOf A ↔ v.MadeOf A :=
  (madeOf_children (sizeof v l) trivial).trans List.forall_mem_singleton

@[simp] theorem madeOf_throw (v : Expr) (l : Location) : (throw v l).MadeOf A ↔ v.MadeOf A :=
  (madeOf_children (throw v l) trivial).trans List.forall_mem_singleton

@[simp] theorem madeOf_parens (v : Expr) (l : Location) :
    (parens v l).MadeOf A ↔ v.MadeOf A :=
  (madeOf_children (parens v l) trivial).trans List.forall_mem_singleton

/-- The children of a tuple are its entries. -/
@[simp] theorem madeOf_tuple (args : List Expr) (l : Location) :
    (tuple args l).MadeOf A ↔ ∀ a ∈ args, a.MadeOf A :=
  madeOf_children (tuple args l) trivial

/-- A type is one of the leaves. -/
theorem MadeOf.vartype? {e : Expr} {t : Vartype} (h : e.MadeOf A) (ht : e.vartype? = some t) :
    ∃ a, A a ∧ a.vartype? = some t := by
  cases e with
  | atom a l => exact ⟨a, by simpa using h, ht⟩
  | _ => cases ht

/-- What holds of both sides of a comma holds of all that a comma chain lists. -/
theorem forall_mem_argsBefore {P : Expr → Prop} {e : Expr} {rest : List Expr}
    (hcomma : ∀ a b l, P (binary (.binary .comma) a b l) → P a ∧ P b) (h : P e)
    (hrest : ∀ a ∈ rest, P a) : ∀ a ∈ e.argsBefore rest, P a := by
  induction e, rest using argsBefore_induction with
  | comma a b l rest ih =>
    obtain ⟨ha, hb⟩ := hcomma a b l h
    rw [Expr.argsBefore]
    exact ih ha (List.forall_mem_cons.mpr ⟨hb, hrest⟩)
  | nothing l => simp [Expr.argsBefore]
  | operand e rest _ hargs =>
    rw [hargs]
    exact List.forall_mem_cons.mpr ⟨h, hrest⟩

/-- Taking a chain of commas apart brings no other leaves. -/
theorem MadeOf.args {e : Expr} (h : e.MadeOf A) : ∀ a ∈ e.args, a.MadeOf A :=
  forall_mem_argsBefore (fun _ _ _ hcomma => (madeOf_binary _ _ _ _).mp hcomma) h
    (List.forall_mem_nil _)

end Expr

namespace Build

open KernelTree.Expr

/-! ### Leaves on the stacks -/

/-- All types of the casts that wait are such leaves. -/
def CastsMadeOf (A : Atom → Prop) (pending : List Pending) : Prop :=
  ∀ p ∈ pending, ∀ t, p.action = .cast t → ∃ a, A a ∧ a.vartype? = some t

/-- All that was built so far is made of such leaves. -/
structure State.MadeOf (A : Atom → Prop) (s : State) : Prop where
  output : ∀ e ∈ s.output, e.MadeOf A
  pending : CastsMadeOf A s.pending
  outer : ∀ f ∈ s.frames, CastsMadeOf A f.outer

variable {A : Atom → Prop} {base : Nat} {p : Pending} {output output' rest : List Expr}
  {s s' : State}

/-- Folding a conditional brings no leaves. -/
theorem madeOf_foldTernary (h : ∀ e ∈ output, e.MadeOf A) :
    ∀ e ∈ foldTernary base output, e.MadeOf A := by
  rcases foldTernary_cases base output with heq | ⟨onFalse, onTrue, check, l, l', rest, rfl, -, heq⟩
  · rw [heq]
    exact h
  · rw [heq]
    simp only [List.forall_mem_cons, madeOf_prefixed, madeOf_ternary] at h ⊢
    exact ⟨⟨h.2.2.1, h.2.1, h.1⟩, h.2.2.2⟩

/-- An operator that is applied takes its operands from the output, and a cast its type from a
token. -/
theorem Applies.madeOf (h : Applies base p output output')
    (hp : ∀ t, p.action = .cast t → ∃ a, A a ∧ a.vartype? = some t)
    (hout : ∀ e ∈ output, e.MadeOf A) : ∀ e ∈ output', e.MadeOf A := by
  cases h with
  | binary =>
    simp only [List.forall_mem_cons, mkBinary, madeOf_binary] at hout ⊢
    exact ⟨⟨hout.2.1, hout.1⟩, hout.2.2⟩
  | postfixed =>
    simp only [List.forall_mem_cons, mkPostfixed, madeOf_postfixed] at hout ⊢
    exact hout
  | prefixed _ hnode =>
    refine madeOf_foldTernary ?_
    rcases prefixNode_ok hnode with ⟨-, rfl⟩ | ⟨-, rfl⟩ | ⟨-, rfl⟩ <;>
      simpa [List.forall_mem_cons] using hout
  | @cast t =>
    refine madeOf_foldTernary ?_
    simp only [List.forall_mem_cons, madeOf_cast] at hout ⊢
    exact ⟨⟨hp t rfl, hout.1⟩, hout.2⟩

/-- Applying what is pending brings no leaves but the types of pending casts. -/
theorem madeOf_applyAll {pending : List Pending} (h : applyAll base pending output = .ok output')
    (hpending : CastsMadeOf A pending) (hout : ∀ e ∈ output, e.MadeOf A) :
    ∀ e ∈ output', e.MadeOf A := by
  induction pending generalizing output with
  | nil =>
    obtain rfl := Except.ok.inj h
    exact hout
  | cons p pending ih =>
    obtain ⟨hp, hpending⟩ := List.forall_mem_cons.mp hpending
    obtain ⟨middle, happ, hall⟩ := applyAll_cons_ok h
    exact ih hall hpending (happ.madeOf hp hout)

/-! ### Brackets -/

/-- What stood in a bracket is off the output. -/
theorem Contains.madeOf {frame : Frame} {value : Expr} (h : Contains frame output value rest)
    (hout : ∀ e ∈ output, e.MadeOf A) : value.MadeOf A ∧ ∀ e ∈ rest, e.MadeOf A := by
  cases h with
  | nothing => exact ⟨madeOf_empty _, hout⟩
  | value => exact List.forall_mem_cons.mp hout

/-- A bracket behind a value makes one node of the two, or a cast of a type. -/
theorem Attaches.madeOf {frame : Frame} {callee value : Expr} {nodes : List Expr}
    (h : Attaches frame callee value nodes) (hcallee : callee.MadeOf A) (hvalue : value.MadeOf A) :
    ∀ e ∈ nodes, e.MadeOf A := by
  have hargs := hvalue.args
  cases h with
  | cast _ ht heq =>
    rw [heq, List.forall_mem_singleton] at hargs
    simpa using ⟨hcallee.vartype? ht, hargs⟩
  | call => simpa using ⟨hcallee, hargs⟩
  | subscript => simpa using ⟨hcallee, hvalue⟩
  | launch _ heq =>
    rw [heq] at hargs
    simpa using ⟨hcallee, by simpa using hargs⟩
  | tuple => simpa using ⟨hargs, hcallee⟩

/-- A bracket by itself becomes a group, or a cast that waits for its operand. -/
theorem StandsAlone.madeOf {frame : Frame} {value : Expr} (h : StandsAlone s frame value s')
    (hs : s.MadeOf A) (hvalue : value.MadeOf A) : s'.MadeOf A := by
  cases h with
  | parens => exact ⟨by simpa using ⟨hvalue, hs.output⟩, hs.pending, hs.outer⟩
  | @cast t _ ht =>
    refine ⟨hs.output, List.forall_mem_cons.mpr ⟨?_, hs.pending⟩, hs.outer⟩
    rintro t ⟨⟩
    exact hvalue.vartype? ht
  | tuple => exact ⟨by simpa using ⟨hvalue.args, hs.output⟩, hs.pending, hs.outer⟩

/-- Closing a bracket applies what is pending in it and puts the result back. -/
theorem Closes.madeOf {b : Bracket} (h : Closes s b s') (hs : s.MadeOf A) : s'.MadeOf A := by
  have houter := hs.outer
  cases h with
  | attached hframes _ hall hcontent _ hattach =>
    rw [hframes, List.forall_mem_cons] at houter
    obtain ⟨hvalue, hrest⟩ := hcontent.madeOf (madeOf_applyAll hall hs.pending hs.output)
    obtain ⟨hcallee, hrest⟩ := List.forall_mem_cons.mp hrest
    refine ⟨?_, houter.1, houter.2⟩
    exact List.forall_mem_append.mpr ⟨hattach.madeOf hcallee hvalue, hrest⟩
  | standing hframes _ hall hcontent _ halone =>
    rw [hframes, List.forall_mem_cons] at houter
    obtain ⟨hvalue, hrest⟩ := hcontent.madeOf (madeOf_applyAll hall hs.pending hs.output)
    exact halone.madeOf ⟨hrest, houter.1, houter.2⟩ hvalue

/-! ### The whole row -/

/-- A step brings no leaf but that of its token. -/
theorem Steps.madeOf {t : Token} {next : Option Lexeme} (h : Steps s t next s')
    (ht : ∀ a, t.lexeme = .atom a → A a) (hs : s.MadeOf A) : s'.MadeOf A := by
  cases h with
  | atom hlexeme => exact ⟨by simpa using ⟨ht _ hlexeme, hs.output⟩, hs.pending, hs.outer⟩
  | op _ _ hread =>
    cases hread with
    | opening =>
      refine ⟨hs.output, by simp [CastsMadeOf, openBracket], ?_⟩
      exact List.forall_mem_cons.mpr ⟨hs.pending, hs.outer⟩
    | closing hclose =>
      have h := hclose.madeOf hs
      exact ⟨h.output, h.pending, h.outer⟩
    | action _ hcast hpending hall =>
      have hwaits := hs.pending
      rw [hpending, CastsMadeOf, List.forall_mem_append] at hwaits
      refine ⟨madeOf_applyAll hall hwaits.1 hs.output, ?_, hs.outer⟩
      refine List.forall_mem_cons.mpr ⟨fun t ht => absurd ht (hcast t), hwaits.2⟩

/-- The leaves of a row are those of its tokens, by induction from the front. -/
theorem madeOf_run {ts : List Token} (h : run s ts = .ok s')
    (hts : ∀ a, .atom a ∈ ts.map Token.lexeme → A a) (hs : s.MadeOf A) : s'.MadeOf A := by
  induction ts generalizing s with
  | nil =>
    obtain rfl := Except.ok.inj h
    exact hs
  | cons t ts ih =>
    obtain ⟨middle, hstep, hrun⟩ := run_cons_ok h
    refine ih hrun (fun a ha => hts a (List.mem_cons_of_mem _ ha)) (hstep.madeOf ?_ hs)
    exact fun a ha => hts a (List.mem_cons.mpr (.inl ha.symm))

/-- At the end the output is folded and concluded, which brings no leaves. -/
theorem madeOf_finish {start : Location} {e : Expr} (h : finish s start = .ok e)
    (hs : s.MadeOf A) : e.MadeOf A := by
  obtain ⟨-, output, hall, hend⟩ := finish_ok h
  have hnodes : ∀ e ∈ foldTernary 0 output, e.MadeOf A :=
    madeOf_foldTernary (madeOf_applyAll hall hs.pending hs.output)
  rcases hend with ⟨-, rfl⟩ | ⟨hone, -⟩
  · exact madeOf_empty start
  · rw [hone] at hnodes
    exact hnodes e (by simp)

end Build

/-- The leaves of a tree and the types of its conversions are among the tokens. -/
theorem Expr.leaves_ofTokens {ts : List Token} {e : Expr} (h : ofTokens ts = .ok e) :
    e.MadeOf fun a => .atom a ∈ ts.map Token.lexeme := by
  rcases Build.ofTokens_ok h with ⟨rfl, rfl⟩ | ⟨s, start, hrun, hfinish⟩
  · exact madeOf_empty .none
  · refine Build.madeOf_finish hfinish (Build.madeOf_run hrun (fun _ ha => ha) ?_)
    exact ⟨by simp [Build.State.initial], by simp [Build.CastsMadeOf, Build.State.initial],
      by simp [Build.State.initial]⟩

end KernelTree
