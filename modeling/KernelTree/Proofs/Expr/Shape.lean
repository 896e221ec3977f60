import KernelTree.Proofs.Expr.Heights
import KernelTree.Proofs.Expr.Leaves

/-!
# The shape of finished trees

Whatever tokens a tree is built from, none of its nodes is provisional, its operators are of the
class of their nodes, and nothing is missing in it but indices (`Expr.shape_ofTokens`). The same
holds of every tree on the output while the row is read (`Build.proper_run`).
-/

namespace KernelTree

namespace Expr

/-- Nodes that can be part of a finished tree: operators have one reading and are of the class of
their node, and conversions are written `T(x)` or `(T) x`. -/
def IsFinished : Expr → Prop
  | prefixed op _ _ => op.isAmbiguous = false ∧ op.isOf .leftUnary = true ∧ op.isOf .special = false
  | postfixed op _ _ => op.isAmbiguous = false ∧ op.isOf .rightUnary = true
  | binary op _ _ _ => op.isAmbiguous = false ∧ op.isOf .binary = true
  | cast kind _ _ _ => kind = .function ∨ kind = .paren
  | pair .. => False
  | new .. => False
  | delete .. => False
  | _ => True

/-- The subtrees that cannot be missing: all but the index of a subscript. -/
def required : Expr → List Expr
  | subscript v _ _ => [v]
  | e => e.children

/-- The tree is there, all its nodes can be part of a finished tree, and nothing that a node
requires is missing. -/
structure Proper (e : Expr) : Prop where
  isEmpty : e.isEmpty = false
  nodes : ∀ n ∈ e.nodes, n.IsFinished ∧ ∀ c ∈ n.required, c.isEmpty = false

/-- What a node must have is among its children. -/
theorem required_subset_children (e : Expr) : e.required ⊆ e.children := by
  cases e with
  | subscript v i l => exact List.cons_subset_cons v (List.nil_subset _)
  | _ => exact List.Subset.refl _

/-- A node that requires all its subtrees is proper if they are. -/
theorem proper_of_children {e : Expr} (hempty : e.isEmpty = false) (hnode : e.IsFinished)
    (h : ∀ c ∈ e.children, c.Proper) : e.Proper where
  isEmpty := hempty
  nodes := forall_mem_nodes.mpr
    ⟨⟨hnode, fun c hc => (h c (e.required_subset_children hc)).isEmpty⟩, fun c hc => (h c hc).nodes⟩

/-- An index may be missing. -/
theorem proper_subscript {v i : Expr} {l : Location} (hv : v.Proper)
    (hi : i.Proper ∨ ∃ l, i = empty l) : (subscript v i l).Proper where
  isEmpty := rfl
  nodes := by
    refine forall_mem_nodes.mpr ⟨⟨trivial, ?_⟩, ?_⟩
    · exact List.forall_mem_singleton.mpr hv.isEmpty
    · refine forall_mem_pair.mpr ⟨hv.nodes, ?_⟩
      rcases hi with hi | ⟨l, rfl⟩
      · exact hi.nodes
      · exact forall_mem_nodes.mpr ⟨⟨trivial, List.forall_mem_nil _⟩, List.forall_mem_nil _⟩

/-- What a proper node must have is proper. -/
theorem Proper.required {e : Expr} (h : e.Proper) : ∀ c ∈ e.required, c.Proper := by
  obtain ⟨⟨-, hrequired⟩, hchildren⟩ := forall_mem_nodes.mp h.nodes
  exact fun c hc => ⟨hrequired c hc, hchildren c (e.required_subset_children hc)⟩

/-- What stood between brackets lists proper arguments, or none. -/
theorem proper_args {e : Expr} (h : e.Proper ∨ ∃ l, e = empty l) : ∀ a ∈ e.args, a.Proper := by
  rcases h with h | ⟨l, rfl⟩
  · exact forall_mem_argsBefore (fun _ _ _ hcomma => forall_mem_pair.mp hcomma.required) h
      (List.forall_mem_nil _)
  · exact List.forall_mem_nil _

end Expr

namespace Build

open KernelTree.Expr

variable {base : Nat} {p : Pending} {pending : List Pending} {output output' rest : List Expr}
  {s s' : State}

/-! ### Applying operators -/

/-- A folded conditional has proper parts. -/
theorem proper_foldTernary (h : ∀ e ∈ output, e.Proper) :
    ∀ e ∈ foldTernary base output, e.Proper := by
  rcases foldTernary_cases base output with heq | ⟨onFalse, onTrue, check, l, l', rest, rfl, -, heq⟩
  · rw [heq]
    exact h
  · rw [heq]
    simp only [List.forall_mem_cons] at h ⊢
    obtain ⟨hfalse, htrue, hcheck, hrest⟩ := h
    -- The branches were the operands of the two markers, which require them.
    refine ⟨proper_of_children rfl trivial ?_, hrest⟩
    exact List.forall_mem_cons.mpr ⟨hcheck, forall_mem_pair.mpr
      ⟨htrue.required onTrue (List.mem_singleton.mpr rfl),
        hfalse.required onFalse (List.mem_singleton.mpr rfl)⟩⟩

/-- A prefix operator that makes a node makes a proper one. -/
theorem proper_prefixNode {op : PrefixOp} {v node : Expr} {l : Location}
    (h : prefixNode op v l = .ok node) (hv : v.Proper) : node.Proper := by
  have hchild : ∀ c ∈ [v], c.Proper := List.forall_mem_singleton.mpr hv
  rcases prefixNode_ok h with ⟨-, rfl⟩ | ⟨-, rfl⟩ | ⟨hop, rfl⟩
  · exact proper_of_children rfl trivial hchild
  · exact proper_of_children rfl trivial hchild
  · refine proper_of_children rfl ⟨rfl, rfl, ?_⟩ hchild
    simp only [List.mem_cons, List.not_mem_nil, or_false, not_or] at hop
    simp [Operator.isOf, hop]

/-- An operator that is applied makes a proper node of proper operands. -/
theorem Applies.proper (h : Applies base p output output') (hout : ∀ e ∈ output, e.Proper) :
    ∀ e ∈ output', e.Proper := by
  cases h with
  | binary =>
    simp only [List.forall_mem_cons] at hout ⊢
    exact ⟨proper_of_children rfl ⟨rfl, rfl⟩ (forall_mem_pair.mpr ⟨hout.2.1, hout.1⟩), hout.2.2⟩
  | postfixed =>
    simp only [List.forall_mem_cons] at hout ⊢
    exact ⟨proper_of_children rfl ⟨rfl, rfl⟩ (List.forall_mem_singleton.mpr hout.1), hout.2⟩
  | prefixed _ hnode =>
    rw [List.forall_mem_cons] at hout
    exact proper_foldTernary (List.forall_mem_cons.mpr ⟨proper_prefixNode hnode hout.1, hout.2⟩)
  | cast =>
    rw [List.forall_mem_cons] at hout
    refine proper_foldTernary (List.forall_mem_cons.mpr ⟨?_, hout.2⟩)
    exact proper_of_children rfl (.inr rfl) (List.forall_mem_singleton.mpr hout.1)

/-- Applying what is pending makes proper nodes. -/
theorem proper_applyAll (h : applyAll base pending output = .ok output')
    (hout : ∀ e ∈ output, e.Proper) : ∀ e ∈ output', e.Proper := by
  induction pending generalizing output with
  | nil =>
    obtain rfl := Except.ok.inj h
    exact hout
  | cons p pending ih =>
    obtain ⟨middle, hp, hall⟩ := applyAll_cons_ok h
    exact ih hall (hp.proper hout)

/-! ### Brackets -/

/-- What stood in a bracket is proper or empty. -/
theorem Contains.proper {frame : Frame} {value : Expr} (h : Contains frame output value rest)
    (hout : ∀ e ∈ output, e.Proper) :
    (value.Proper ∨ ∃ l, value = .empty l) ∧ ∀ e ∈ rest, e.Proper := by
  cases h with
  | nothing => exact ⟨.inr ⟨_, rfl⟩, hout⟩
  | value => exact ⟨.inl (hout _ (List.mem_cons_self ..)), fun e he => hout e (.tail _ he)⟩

/-- A bracket behind a value makes a proper node; only a square one may be empty. -/
theorem Attaches.proper {frame : Frame} {callee value : Expr} {nodes : List Expr}
    (h : Attaches frame callee value nodes) (hcallee : callee.Proper)
    (hvalue : value.Proper ∨ ∃ l, value = .empty l) : ∀ e ∈ nodes, e.Proper := by
  have hargs := proper_args hvalue
  cases h with
  | cast _ _ heq =>
    rw [heq] at hargs
    exact List.forall_mem_singleton.mpr (proper_of_children rfl (.inl rfl) hargs)
  | call =>
    exact List.forall_mem_singleton.mpr
      (proper_of_children rfl trivial (List.forall_mem_cons.mpr ⟨hcallee, hargs⟩))
  | subscript => exact List.forall_mem_singleton.mpr (proper_subscript hcallee hvalue)
  | launch _ heq =>
    rw [heq] at hargs
    exact List.forall_mem_singleton.mpr
      (proper_of_children rfl trivial (List.forall_mem_cons.mpr ⟨hcallee, hargs⟩))
  | tuple => exact forall_mem_pair.mpr ⟨proper_of_children rfl trivial hargs, hcallee⟩

/-- A bracket by itself makes a proper node; an empty round one is refused. -/
theorem StandsAlone.proper {frame : Frame} {value : Expr} (h : StandsAlone s frame value s')
    (hs : ∀ e ∈ s.output, e.Proper) (hvalue : value.Proper ∨ ∃ l, value = .empty l) :
    ∀ e ∈ s'.output, e.Proper := by
  cases h with
  | parens _ hne =>
    have hvalue := hvalue.resolve_right fun ⟨l, hl⟩ => hne l hl
    exact List.forall_mem_cons.mpr
      ⟨proper_of_children rfl trivial (List.forall_mem_singleton.mpr hvalue), hs⟩
  | cast => exact hs
  | tuple =>
    exact List.forall_mem_cons.mpr ⟨proper_of_children rfl trivial (proper_args hvalue), hs⟩

/-- Closing a bracket leaves proper nodes. -/
theorem Closes.proper {b : Bracket} (h : Closes s b s') (hs : ∀ e ∈ s.output, e.Proper) :
    ∀ e ∈ s'.output, e.Proper := by
  cases h with
  | attached _ _ hall hcontent _ hattach =>
    obtain ⟨hvalue, hrest⟩ := hcontent.proper (proper_applyAll hall hs)
    obtain ⟨hcallee, hrest⟩ := List.forall_mem_cons.mp hrest
    exact List.forall_mem_append.mpr ⟨hattach.proper hcallee hvalue, hrest⟩
  | standing _ _ hall hcontent _ halone =>
    obtain ⟨hvalue, hrest⟩ := hcontent.proper (proper_applyAll hall hs)
    exact halone.proper hrest hvalue

/-! ### The whole row -/

/-- A step leaves proper nodes. -/
theorem Steps.proper {t : Token} {next : Option Lexeme} (h : Steps s t next s')
    (hs : ∀ e ∈ s.output, e.Proper) : ∀ e ∈ s'.output, e.Proper := by
  cases h with
  | atom =>
    exact List.forall_mem_cons.mpr ⟨proper_of_children rfl trivial (List.forall_mem_nil _), hs⟩
  | op _ _ hread =>
    cases hread with
    | opening => exact hs
    | closing hclose => exact hclose.proper hs
    | action _ _ _ hall => exact proper_applyAll hall hs

/-- By induction along the row: everything on the output is proper. -/
theorem proper_run {ts : List Token} (h : run s ts = .ok s') (hs : ∀ e ∈ s.output, e.Proper) :
    ∀ e ∈ s'.output, e.Proper := by
  induction ts generalizing s with
  | nil =>
    obtain rfl := Except.ok.inj h
    exact hs
  | cons t ts ih =>
    obtain ⟨middle, hstep, hrun⟩ := run_cons_ok h
    exact ih hrun (hstep.proper hs)

/-- The tree of a row that is not empty is proper. -/
theorem proper_ofTokens {ts : List Token} {e : Expr} (h : Expr.ofTokens ts = .ok e)
    (hne : ts ≠ []) : e.Proper := by
  obtain ⟨s, hrun, -, -, hall, -⟩ := ofTokens_ne_nil h hne
  have houtput := proper_run hrun (List.forall_mem_nil _)
  exact List.forall_mem_singleton.mp (proper_applyAll hall houtput)

end Build

namespace Expr

/-- **The shape of accepted trees**: every node can be part of a finished tree, only the index of a
subscript can be missing in it, and the tree itself is missing where there are no tokens. -/
theorem shape_ofTokens {ts : List Token} {e : Expr} (h : ofTokens ts = .ok e) :
    (∀ n ∈ e.nodes, n.IsFinished ∧
      ∀ c ∈ n.children, c.isEmpty = true → ∃ v l, n = subscript v c l ∧ v.isEmpty = false) ∧
      (e.isEmpty = true ↔ ts = []) := by
  by_cases hne : ts = []
  · subst hne
    obtain rfl : empty .none = e := Except.ok.inj h
    refine ⟨forall_mem_nodes.mpr ⟨⟨trivial, List.forall_mem_nil _⟩, List.forall_mem_nil _⟩, ?_⟩
    exact ⟨fun _ => rfl, fun _ => rfl⟩
  · have hproper := Build.proper_ofTokens h hne
    refine ⟨fun n hn => ?_, ?_⟩
    · obtain ⟨hnode, hrequired⟩ := hproper.nodes n hn
      refine ⟨hnode, fun c hc hempty => ?_⟩
      have hcontra : c ∉ n.required := fun hmem => by simp [hrequired c hmem] at hempty
      cases n with
      | subscript v i l =>
        have hv : v.isEmpty = false := hrequired v (List.mem_singleton.mpr rfl)
        rcases List.mem_cons.mp hc with rfl | hc
        · exact absurd (List.mem_singleton.mpr rfl) hcontra
        · obtain rfl := List.mem_singleton.mp hc
          exact ⟨v, l, rfl, hv⟩
      | _ => exact absurd hc hcontra
    · simp [hproper.isEmpty, hne]

/-- A conversion of a negated element without an index, `(int) -a[]`. -/
def convertedElement : Expr :=
  cast .paren (.plain ⟨4⟩)
    (prefixed (.pre .negative)
      (subscript (atom (.identifier "a") ⟨1, 8⟩) (empty ⟨1, 9⟩) ⟨1, 8⟩) ⟨1, 7⟩) ⟨1, 1⟩

/-- The tokens of the conversion, where they stand. -/
def convertedElementTokens : List Token :=
  [⟨.op (.opening .round), ⟨1, 1⟩⟩, ⟨.atom (.type ⟨4⟩), ⟨1, 2⟩⟩,
    ⟨.op (.closing .round), ⟨1, 5⟩⟩, ⟨.op (.unresolved .minus), ⟨1, 7⟩⟩,
    ⟨.atom (.identifier "a"), ⟨1, 8⟩⟩, ⟨.op (.opening .square), ⟨1, 9⟩⟩,
    ⟨.op (.closing .square), ⟨1, 10⟩⟩]

/-- Only the index is missing. -/
theorem shape_convertedElement :
    ofTokens convertedElementTokens = .ok convertedElement ∧
      (∀ n ∈ convertedElement.nodes, n.IsFinished ∧
        ∀ c ∈ n.children, c.isEmpty = true → ∃ v l, n = subscript v c l ∧ v.isEmpty = false) ∧
      (convertedElement.isEmpty = true ↔ convertedElementTokens = []) := by
  have h : ofTokens convertedElementTokens = .ok convertedElement := rfl
  exact ⟨h, shape_ofTokens h⟩

end Expr

end KernelTree
