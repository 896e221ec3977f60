import KernelTree.Proofs.Access.Faults
import KernelTree.Proofs.Statement.Rewrite

/-!
# What flattening leaves behind

Flattening looks at a call once, after everything inside it. An access to an array is left behind
where no statement is looked at, which is in `return` statements, and where a call of a name inside
the arguments of another access becomes one only when the names of that access are resolved. There
are no other cases (`Statement.flatten_leftover`).
-/

namespace KernelTree

namespace Expr

variable {P Q : Expr → Prop} {e : Expr}

/-! ### Nodes of a sort -/

/-- Some node of the tree is of a sort. -/
def Has (P : Expr → Prop) (e : Expr) : Prop := ∃ n ∈ e.nodes, P n

/-- A property is somewhere in a tree if its root or a child has it. -/
theorem has_iff : e.Has P ↔ P e ∨ ∃ c ∈ e.children, c.Has P := by
  unfold Has
  rw [nodes_eq]
  simp only [List.mem_cons, List.mem_flatMap, exists_eq_or_imp]
  refine or_congr_right ⟨?_, ?_⟩
  · rintro ⟨n, ⟨c, hc, hn⟩, hP⟩
    exact ⟨c, hc, n, hn, hP⟩
  · rintro ⟨c, hc, n, hn, hP⟩
    exact ⟨n, ⟨c, hc, hn⟩, hP⟩

theorem has_or : (e.Has fun n => P n ∨ Q n) ↔ e.Has P ∨ e.Has Q := by
  simp only [Has, and_or_left, exists_or]

/-- Nodes of a sort that only calls are of stand in the parts of a node that is none. -/
theorem has_of_kind (hP : ∀ n, P n → n.kind = .call) (he : e.kind ≠ .call) :
    e.Has P ↔ ∃ c ∈ e.children, c.Has P :=
  has_iff.trans (or_iff_right fun h => he (hP e h))

section

variable (hP : ∀ n, P n → n.kind = .call)
include hP

theorem has_mkParens (e : Expr) : e.mkParens.Has P ↔ e.Has P := by
  rw [has_of_kind hP (by simp [mkParens, kind])]
  simp [mkParens, children]

theorem has_wrapped (e : Expr) : e.wrapped.Has P ↔ e.Has P := by
  unfold wrapped
  split <;> first | exact has_mkParens hP _ | exact Iff.rfl

theorem has_mkBinary (op : BinaryOp) (a b : Expr) :
    (mkBinary op a b).Has P ↔ a.Has P ∨ b.Has P := by
  rw [has_of_kind hP (by simp [mkBinary, kind])]
  simp [mkBinary, children]

/-- An index is made of the indices, and of the extents of all axes but the slowest. -/
theorem has_index (place : Location) {pairs : List (Expr × Expr)}
    (hextents : ∀ p ∈ pairs, ¬ p.2.Has P) :
    (Flatten.index place pairs).Has P ↔ ∃ p ∈ pairs, p.1.Has P := by
  induction pairs with
  | nil =>
    rw [Flatten.index, has_of_kind hP (by simp [kind])]
    simp [children]
  | cons p rest ih =>
    obtain ⟨hp, hrest⟩ := List.forall_mem_cons.mp hextents
    cases rest with
    | nil => simp [Flatten.index]
    | cons p' rest =>
      rw [Flatten.index, has_mkBinary hP, has_wrapped hP, has_mkParens hP, has_mkBinary hP,
        has_wrapped hP, has_wrapped hP, ih hrest, or_iff_right hp]
      · simp only [List.mem_cons, exists_eq_or_imp]
      · rintro ⟨⟩

end

/-- Only calls are relabelled to calls. -/
theorem mapAtoms_eq_call {f : Atom → Atom} {e callee : Expr} {args : List Expr} {l : Location}
    (h : e.mapAtoms f = call callee args l) : ∃ callee' args',
      e = call callee' args' l ∧ callee = callee'.mapAtoms f ∧ args = args'.map (mapAtoms f) := by
  cases e with
  | atom a l => simp at h
  | call callee' args' l' =>
    rw [mapAtoms_call] at h
    obtain ⟨rfl, rfl, rfl⟩ := call.inj h
    exact ⟨callee', args', rfl, rfl, rfl⟩
  | tuple => simp at h
  | _ => rw [mapAtoms_eq f (by simp)] at h; exact absurd h (by simp [withChildren, children])

end Expr

namespace Flatten

open KernelTree.Expr

variable (t : SymbolTable) (k : ScopeId)

/-! ### Accesses to arrays -/

/-- The variable has at least one axis. -/
def HasAxes (id : VarId) : Prop :=
  ∃ dim, (t.var id).attributes.find? dimName = some dim ∧ dim.args ≠ []

/-- An access to an array that is written as a call. -/
def IsArrayCall (e : Expr) : Prop :=
  ∃ id l args place, e = .call (.ofVar id l) args place ∧ HasAxes t id

/-- A call of a name that means a variable with axes. -/
def IsNamedCall (e : Expr) : Prop :=
  ∃ name l args place id, e = .call (.atom (.identifier name) l) args place ∧
    t.lookup k name = some (.variable id) ∧ HasAxes t id

/-- An access to an array with a call of such a name among its arguments. -/
def IsReviving (e : Expr) : Prop :=
  ∃ id l args place, e = .call (.ofVar id l) args place ∧ HasAxes t id ∧
    ∃ a ∈ args, a.Has (IsNamedCall t k)

/-- The extents of all variables are expressions without calls. -/
def CallFree : Prop :=
  ∀ id dim, (t.var id).attributes.find? dimName = some dim →
    ∀ a ∈ dim.args, ∀ n ∈ a.value.nodes, n.kind ≠ .call

variable {t k} {e : Expr}

theorem kind_of_isArrayCall (h : IsArrayCall t e) : e.kind = .call := by
  obtain ⟨id, l, args, place, rfl, -⟩ := h
  rfl

theorem kind_of_isNamedCall (h : IsNamedCall t k e) : e.kind = .call := by
  obtain ⟨name, l, args, place, id, rfl, -⟩ := h
  rfl

theorem kind_of_isReviving (h : IsReviving t k e) : e.kind = .call := by
  obtain ⟨id, l, args, place, rfl, -⟩ := h
  rfl

/-- A name becomes a variable if it stands for it, and a variable stays one. -/
theorem resolveAtom_eq_variable {a : Atom} {id : VarId} :
    t.resolveAtom k a = .variable id ↔
      a = .variable id ∨ ∃ name, a = .identifier name ∧ t.lookup k name = some (.variable id) := by
  cases a with
  | identifier name =>
    rw [SymbolTable.resolveAtom]
    cases hlookup : t.lookup k name with
    | none => simp [hlookup]
    | some symbol => cases symbol <;> simp [hlookup, Atom.ofSymbol]
  | _ => simp [SymbolTable.resolveAtom]

/-- Resolving names makes accesses of the calls of names that mean variables with axes. -/
theorem isArrayCall_resolve :
    IsArrayCall t (t.resolve k e) ↔ IsArrayCall t e ∨ IsNamedCall t k e := by
  constructor
  · rintro ⟨id, l, args, place, he, haxes⟩
    obtain ⟨callee, args, rfl, hcallee, -⟩ := mapAtoms_eq_call he
    obtain ⟨a, rfl, ha⟩ := mapAtoms_eq_atom.mp hcallee.symm
    obtain rfl | ⟨name, rfl, hlookup⟩ := resolveAtom_eq_variable.mp ha
    · exact .inl ⟨id, l, args, place, rfl, haxes⟩
    · exact .inr ⟨name, l, args, place, id, rfl, hlookup, haxes⟩
  · rintro (⟨id, l, args, place, rfl, haxes⟩ | ⟨name, l, args, place, id, rfl, hlookup, haxes⟩)
    all_goals
      refine ⟨id, l, args.map (mapAtoms (t.resolveAtom k)), place, ?_, haxes⟩
      rw [SymbolTable.resolve, mapAtoms_call]
      congr 1
      refine mapAtoms_eq_atom.mpr ⟨_, rfl, resolveAtom_eq_variable.mpr ?_⟩
      simp_all

/-- An access after resolving was one before, or it was a call of a name. -/
theorem has_isArrayCall_resolve :
    (t.resolve k e).Has (IsArrayCall t) ↔ e.Has (IsArrayCall t) ∨ e.Has (IsNamedCall t k) := by
  rw [← has_or]
  induction e using inductionOn with
  | step e ih =>
    rw [has_iff, has_iff, isArrayCall_resolve, SymbolTable.resolve, children_mapAtoms]
    simp only [List.mem_map, exists_exists_and_eq_and]
    exact or_congr_right (exists_congr fun c => and_congr_right fun hc => ih c hc)

/-- A name that is left after resolving has no meaning. -/
theorem lookup_of_resolveAtom {a : Atom} {name : String}
    (h : t.resolveAtom k a = .identifier name) : t.lookup k name = none := by
  cases a with
  | identifier name' =>
    rw [SymbolTable.resolveAtom] at h
    cases hlookup : t.lookup k name' with
    | none =>
      rw [hlookup] at h
      obtain rfl := Atom.identifier.inj h
      exact hlookup
    | some symbol =>
      rw [hlookup] at h
      cases symbol <;> cases h
  | _ => cases h

/-- Resolved names are not resolved again. -/
theorem not_has_isNamedCall_resolve : ¬ (t.resolve k e).Has (IsNamedCall t k) := by
  induction e using inductionOn with
  | step e ih =>
    rw [has_iff, SymbolTable.resolve, children_mapAtoms]
    simp only [List.mem_map, exists_exists_and_eq_and, not_or, not_exists, not_and]
    refine ⟨?_, ih⟩
    rintro ⟨name, l, args, place, id, he, hlookup, -⟩
    obtain ⟨callee, args, rfl, hcallee, -⟩ := mapAtoms_eq_call he
    obtain ⟨a, rfl, ha⟩ := mapAtoms_eq_atom.mp hcallee.symm
    rw [lookup_of_resolveAtom ha] at hlookup
    cases hlookup

/-! ### What is left in an expression -/

/-- An access is at fault or becomes something. -/
theorem not_isArrayCall (hfault : fault? t e = none) (hflat : flat? t k e = none) :
    ¬ IsArrayCall t e := by
  rintro ⟨id, l, args, place, rfl, dim, hdim, hne⟩
  have hcall := call?_eq t k id l place args
  change fault? t (.call (.atom (.variable id) l) args place) = none at hfault
  change flat? t k (.call (.atom (.variable id) l) args place) = none at hflat
  rw [hfault, hflat] at hcall
  simp only [call?, hdim] at hcall
  cases hextra : args[dim.args.length]? with
  | some extra =>
    rw [hextra] at hcall
    cases hcall
  | none =>
    simp only [hextra] at hcall
    split at hcall
    · cases hcall
    · split at hcall
      case isTrue hzero => exact hne (List.length_eq_zero_iff.mp hzero)
      · cases horder : orderOf (t.var id) dim.args.length with
        | error f =>
          rw [horder] at hcall
          cases hcall
        | ok order =>
          rw [horder] at hcall
          cases hcall

theorem not_has_atom {P : Expr → Prop} (hP : ∀ n, P n → n.kind = .call) (a : Atom)
    (l : Location) : ¬ (atom a l).Has P := by
  rw [has_of_kind hP (by cases a <;> simp [kind, Atom.kind])]
  simp [children]

/-- What an access becomes: all arguments are in it, their names resolved. -/
theorem has_flat {flat : Expr} (hfree : CallFree t) (h : flat? t k e = some flat) :
    ∃ id l args place, e = .call (.ofVar id l) args place ∧ HasAxes t id ∧
      (flat.Has (IsArrayCall t) ↔
        ∃ a ∈ args, a.Has (IsArrayCall t) ∨ a.Has (IsNamedCall t k)) ∧
      ¬ flat.Has (IsNamedCall t k) := by
  obtain ⟨n, id, l, place, dim, indices, extents, p, hn, rfl, hdim, hextents, rfl⟩ :=
    visit_replace (visit_of_flat? h (.empty none)).2
  have hne : dim.args ≠ [] := by
    intro hnil
    rw [hnil] at hextents
    have hlength := congrArg List.length hextents
    simp at hlength
    omega
  -- The access itself is no call, so calls are only in its index.
  have hsubscript : ∀ {P : Expr → Prop}, (∀ n, P n → n.kind = .call) → ∀ i : Expr,
      (Expr.subscript (.ofVar id l) i place).Has P ↔ i.Has P := by
    intro P hP i
    rw [has_of_kind hP (by simp [kind])]
    simp [children, ofVar, not_has_atom hP]
  refine ⟨id, l, _, place, rfl, ⟨dim, hdim, hne⟩, ?_, ?_⟩
  · rw [hsubscript fun _ => kind_of_isArrayCall, has_isArrayCall_resolve, ← has_or,
      has_index fun _ hn => hn.elim kind_of_isArrayCall kind_of_isNamedCall]
    · simp only [List.mem_ofFn, ← has_or]
      constructor
      · rintro ⟨-, ⟨j, rfl⟩, hhas⟩
        exact ⟨_, ⟨p j, rfl⟩, hhas⟩
      · rintro ⟨-, ⟨j, rfl⟩, hhas⟩
        exact ⟨_, ⟨p.symm j, rfl⟩, by simpa using hhas⟩
    · rintro pair hpair ⟨node, hnode, hcall⟩
      obtain ⟨j, rfl⟩ := List.mem_ofFn.mp hpair
      have hmem : extents (p j) ∈ dim.args.map Argument.value := by
        rw [hextents]
        exact List.mem_ofFn.mpr ⟨p j, rfl⟩
      obtain ⟨a, ha, hvalue⟩ := List.mem_map.mp hmem
      exact hfree id dim hdim a ha node (hvalue ▸ hnode)
        (hcall.elim kind_of_isArrayCall kind_of_isNamedCall)
  · rw [hsubscript fun _ => kind_of_isNamedCall]
    exact not_has_isNamedCall_resolve

/-- What is a call after its children are flattened was one before. -/
theorem flattenedInside_eq_call {callee : Expr} {args : List Expr} {l : Location}
    (h : e.flattenedInside t k = .call callee args l) : ∃ callee' args',
      e = .call callee' args' l ∧ callee = callee'.flattened t k ∧
        args = args'.map (flattened t k) := by
  cases e with
  | call callee' args' l' =>
    obtain ⟨rfl, rfl, rfl⟩ := call.inj h
    exact ⟨callee', args', rfl, rfl, rfl⟩
  | _ => cases h

/-- Calls of leaves are called what they were while their parts are flattened. -/
theorem flattenedInside_eq_call_atom {a : Atom} {args : List Expr} {l place : Location} :
    e.flattenedInside t k = .call (.atom a l) args place ↔
      ∃ args', e = .call (.atom a l) args' place ∧ args = args'.map (flattened t k) := by
  constructor
  · intro h
    obtain ⟨callee, args', rfl, hcallee, rfl⟩ := flattenedInside_eq_call h
    rw [(flattened_eq_atom t k).mp hcallee.symm]
    exact ⟨args', rfl, rfl⟩
  · rintro ⟨args', rfl, rfl⟩
    exact congrArg (Expr.call · _ _) ((flattened_eq_atom t k).mpr rfl)

/-- What is inside comes from the flattened children. -/
theorem has_flattenedInside {P : Expr → Prop} : (e.flattenedInside t k).Has P ↔
    P (e.flattenedInside t k) ∨ ∃ c ∈ e.children, (c.flattened t k).Has P := by
  rw [has_iff, flattenedInside, children_withChildren (List.length_map _)]
  simp only [List.mem_map, exists_exists_and_eq_and]

/-- What is left of an expression: accesses are, where a call of a name is among the arguments of
another access; and calls of names are, unless an access has been made of them. -/
def Leaves (t : SymbolTable) (k : ScopeId) (e : Expr) : Prop :=
  ((e.flattened t k).Has (IsArrayCall t) ↔ e.Has (IsReviving t k)) ∧
    ((e.flattened t k).Has (IsArrayCall t) ∨ (e.flattened t k).Has (IsNamedCall t k) ↔
      e.Has (IsNamedCall t k))

/-- Flattening an access turns the calls of names that are left in its arguments into accesses. -/
theorem leaves_of_flat {flat : Expr} (hfree : CallFree t)
    (hparts : ∀ c ∈ e.children, Leaves t k c)
    (hflat : flat? t k (e.flattenedInside t k) = some flat) : Leaves t k e := by
  obtain ⟨id, l, args, place, hcall, haxes, harray, hnamed⟩ := has_flat hfree hflat
  obtain ⟨args, rfl, rfl⟩ := flattenedInside_eq_call_atom.mp hcall
  have hargs : flat.Has (IsArrayCall t) ↔ ∃ a ∈ args, a.Has (IsNamedCall t k) := by
    rw [harray]
    simp only [List.mem_map, exists_exists_and_eq_and]
    exact exists_congr fun a => and_congr_right fun ha => (hparts a (.tail _ ha)).2
  have hcallee := not_has_atom (fun n (h : IsReviving t k n) => kind_of_isReviving h)
    (.variable id) l
  have hcallee' := not_has_atom (fun n (h : IsNamedCall t k n) => kind_of_isNamedCall h)
    (.variable id) l
  rw [Leaves, flattened_eq, hflat, Option.getD_some, or_iff_left hnamed, hargs, has_iff,
    has_iff (P := IsNamedCall t k)]
  simp only [children, List.mem_cons, exists_eq_or_imp]
  rw [or_iff_right hcallee, or_iff_right hcallee']
  refine ⟨⟨fun h => .inl ⟨id, l, args, place, rfl, haxes, h⟩, ?_⟩, ⟨.inr, ?_⟩⟩
  · rintro (⟨id', l', args', place', heq, -, h⟩ | ⟨a, ha, h⟩)
    · obtain ⟨-, rfl, -⟩ := call.inj heq
      exact h
    · -- An access that is left in an argument came of a call of a name.
      obtain ⟨hleft, hall⟩ := hparts a (.tail _ ha)
      exact ⟨a, ha, hall.mp (.inl (hleft.mpr h))⟩
  · rintro (⟨name, l', args', place', id', heq, -⟩ | h)
    · cases heq
    · exact h

/-- Nothing is left of a node that stays but what is left of its parts, and a call of a name. -/
theorem leaves_of_kept (hparts : ∀ c ∈ e.children, Leaves t k c)
    (hfault : fault? t (e.flattenedInside t k) = none)
    (hflat : flat? t k (e.flattenedInside t k) = none) : Leaves t k e := by
  have harray := not_isArrayCall hfault hflat
  have hreviving : ¬ IsReviving t k e := by
    rintro ⟨id, l, args, place, rfl, haxes, -⟩
    exact harray ⟨id, l, _, place, flattenedInside_eq_call_atom.mpr ⟨args, rfl, rfl⟩, haxes⟩
  have hnamed : IsNamedCall t k (e.flattenedInside t k) ↔ IsNamedCall t k e := by
    constructor
    · rintro ⟨name, l, args, place, id, hcall, hlookup⟩
      obtain ⟨args, rfl, -⟩ := flattenedInside_eq_call_atom.mp hcall
      exact ⟨name, l, args, place, id, rfl, hlookup⟩
    · rintro ⟨name, l, args, place, id, rfl, hlookup⟩
      exact ⟨name, l, _, place, id, flattenedInside_eq_call_atom.mpr ⟨args, rfl, rfl⟩, hlookup⟩
  rw [Leaves, flattened_eq, hflat, Option.getD_none, has_flattenedInside, has_flattenedInside,
    or_iff_right harray, hnamed]
  constructor
  · rw [has_iff, or_iff_right hreviving]
    exact exists_congr fun c => and_congr_right fun hc => (hparts c hc).1
  · rw [has_iff (e := e), or_left_comm, ← exists_or]
    refine or_congr_right (exists_congr fun c => ?_)
    rw [← and_or_left]
    exact and_congr_right fun hc => (hparts c hc).2

/-- That much is left of every tree in which flattening meets no fault. -/
theorem leaves (hfree : CallFree t) (hfaults : faults t e = []) : Leaves t k e := by
  induction e using inductionOn with
  | step e ih =>
    rw [faults_eq, List.append_eq_nil_iff, List.flatMap_eq_nil_iff, Option.toList_eq_nil_iff]
      at hfaults
    obtain ⟨hinside, hown⟩ := hfaults
    have hparts := fun c hc => ih c hc (hinside c hc)
    cases hflat : flat? t k (e.flattenedInside t k) with
    | some flat => exact leaves_of_flat hfree hparts hflat
    | none => exact leaves_of_kept hparts ((fault?_flattenedInside t k e).trans hown) hflat

/-- Only in the calls of names is there anything to resolve. -/
theorem has_identifier_of_has_isNamedCall (h : e.Has (IsNamedCall t k)) :
    e.Has fun n => n.kind = .identifier := by
  induction e using inductionOn with
  | step e ih =>
    rcases has_iff.mp h with ⟨name, l, args, place, id, rfl, -⟩ | ⟨c, hc, h⟩
    · exact has_iff.mpr (.inr ⟨_, List.mem_cons_self, has_iff.mpr (.inl rfl)⟩)
    · exact has_iff.mpr (.inr ⟨c, hc, ih c hc h⟩)

/-- Where all names are resolved, no access comes back. -/
theorem has_identifier_of_has_isReviving (h : e.Has (IsReviving t k)) :
    e.Has fun n => n.kind = .identifier := by
  induction e using inductionOn with
  | step e ih =>
    rcases has_iff.mp h with ⟨id, l, args, place, rfl, -, a, ha, h⟩ | ⟨c, hc, h⟩
    · exact has_iff.mpr (.inr ⟨a, .tail _ ha, has_identifier_of_has_isNamedCall h⟩)
    · exact has_iff.mpr (.inr ⟨c, hc, ih c hc h⟩)

end Flatten

/-! ### What is left in a statement -/

namespace Statement

/-- Values put into declarators are there. -/
theorem withValues_values {ds : List Declarator} {es : List Expr}
    (h : es.length = (ds.filterMap Declarator.value).length) :
    (Declarator.withValues ds es).filterMap Declarator.value = es := by
  induction ds generalizing es with
  | nil =>
    obtain rfl := List.length_eq_zero_iff.mp h
    rfl
  | cons declarator ds ih =>
    obtain ⟨v, _ | value⟩ := declarator
    · simpa [Declarator.withValues] using ih h
    · cases es with
      | nil => cases h
      | cons e es =>
        simp only [Declarator.withValues, List.filterMap_cons]
        rw [ih (Nat.succ.inj h)]

/-- As many expressions as the statement holds take the places of its own. -/
theorem exprs_withExprs {s : Statement} {es : List Expr} (h : es.length = s.exprs.length) :
    (s.withExprs es).exprs = es := by
  cases s with
  | expression e l =>
    obtain ⟨e', rfl⟩ := List.length_eq_one_iff.mp h
    rfl
  | declaration ds l => exact withValues_values h
  | «return» value l =>
    cases value with
    | none =>
      obtain rfl := List.length_eq_zero_iff.mp h
      rfl
    | some value =>
      obtain ⟨e', rfl⟩ := List.length_eq_one_iff.mp h
      rfl
  | _ =>
    obtain rfl := List.length_eq_zero_iff.mp h
    rfl

/-- No statement of the tree holds an access to an array that is written as a call. -/
def IsFlat (t : SymbolTable) (k : ScopeId) (s : Statement) : Prop :=
  ∀ site ∈ shape.sites k s, ∀ e ∈ site.node.exprs, ¬ e.Has (Flatten.IsArrayCall t)

/-- Nothing in the tree withstands flattening: no `return` holds an access, and no other statement
has a call of a name that means a variable with axes among the arguments of an access. -/
def FlattensFully (t : SymbolTable) (k : ScopeId) (s : Statement) : Prop :=
  ∀ site ∈ shape.sites k s, ∀ e ∈ site.node.exprs,
    if site.node.kind = .return then ¬ e.Has (Flatten.IsArrayCall t)
    else ¬ e.Has (Flatten.IsReviving t site.around)

variable {t : SymbolTable} {k : ScopeId} {s : Statement}

theorem isFlat_iff : s.IsFlat t k ↔
    (∀ c ∈ s.parts, c.IsFlat t (shape.inside s k)) ∧
      ∀ e ∈ s.exprs, ¬ e.Has (Flatten.IsArrayCall t) :=
  shape.forall_mem_sites fun _ _ => Iff.rfl

theorem flattensFully_iff : s.FlattensFully t k ↔
    (∀ c ∈ s.parts, c.FlattensFully t (shape.inside s k)) ∧ ∀ e ∈ s.exprs,
      if s.kind = .return then ¬ e.Has (Flatten.IsArrayCall t)
      else ¬ e.Has (Flatten.IsReviving t k) :=
  shape.forall_mem_sites fun _ _ => Iff.rfl

/-- A statement that is looked at is flat afterwards, but for accesses that have come back. -/
theorem isFlat_flattenedOwn (hfree : Flatten.CallFree t)
    (hholds : Flatten.holdsCalls s) (hfaults : Flatten.ownFaults t s = []) :
    (Flatten.flattenedOwn t k s).IsFlat t k ↔ s.FlattensFully t k := by
  obtain ⟨hparts, hparts', hkind⟩ :
      s.parts = [] ∧ (Flatten.flattenedOwn t k s).parts = [] ∧ s.kind ≠ .return := by
    cases s with
    | expression | declaration => exact ⟨rfl, rfl, by intro hkind; cases hkind⟩
    | _ => cases hholds
  rw [isFlat_iff, flattensFully_iff, hparts, hparts', Flatten.flattenedOwn_eq hholds,
    exprs_withExprs (List.length_map _), List.forall_mem_map,
    and_iff_right (List.forall_mem_nil _), and_iff_right (List.forall_mem_nil _)]
  simp only [if_neg hkind]
  refine forall_congr' fun e => forall_congr' fun he => not_congr ?_
  rw [Flatten.ownFaults_eq hholds, List.flatMap_eq_nil_iff] at hfaults
  exact (Flatten.leaves hfree (hfaults e he)).1

/-- A statement that is not looked at is as flat as its parts and the expressions it holds. -/
theorem isFlat_of_parts {s' : Statement} (hholds : ¬ Flatten.holdsCalls s)
    (hscope : s'.scope? = s.scope?) (hexprs : s'.exprs = s.exprs)
    (hparts : List.Forall₂ (fun c c' => c'.IsFlat t (shape.inside s k) ↔
      c.FlattensFully t (shape.inside s k)) s.parts s'.parts) :
    s'.IsFlat t k ↔ s.FlattensFully t k := by
  have hinside : shape.inside s' k = shape.inside s k := congrArg (Option.getD · k) hscope
  rw [isFlat_iff, flattensFully_iff, hinside, forall_mem_congr hparts, hexprs]
  refine and_congr_right fun _ => forall_congr' fun e => forall_congr' fun he => ?_
  have hkind : s.kind = .return := by
    cases s with
    | «return» => rfl
    | expression | declaration => exact absurd rfl hholds
    | _ => cases he
  rw [if_pos hkind]

/-- **What flattening leaves behind.** If no extent has a call in it and flattening succeeds, then
no access to an array that is written as a call is left in the whole statement, just if no `return`
in it holds one and no name in the arguments of an access is called and means an array. -/
theorem flatten_leftover {s' : Statement} {d d' : Diagnostics} (hfree : Flatten.CallFree t)
    (hok : s.flatten t k d = (s', ⟨d', none⟩)) : s'.IsFlat t k ↔ s.FlattensFully t k := by
  obtain ⟨f, hrun, hbefore, -, hothers⟩ := s.exists_answers_flatten t k d
  obtain ⟨rfl, hend⟩ := Prod.mk.inj (hok.symm.trans hrun)
  -- Without a failure there are no faults, so everything that is looked at is flattened.
  have hclean : ∀ site ∈ Flatten.lookedAt k s, Flatten.ownFaults t site.node = [] := by
    rw [← List.flatMap_eq_nil_iff]
    cases hfaults : (Flatten.lookedAt k s).flatMap fun site => Flatten.ownFaults t site.node with
    | nil => rfl
    | cons fault rest =>
      rw [hfaults] at hend
      cases hend
  have hall : (Flatten.lookedAt k s).takeWhile (Flatten.isClean t) = Flatten.lookedAt k s :=
    List.takeWhile_eq_self_iff.mpr fun site hsite =>
      List.isEmpty_iff.mpr (hclean site hsite)
  rw [hall] at hbefore
  have hlooked : ∀ site ∈ shape.sites k s, Flatten.holdsCalls site.node →
      site ∈ Flatten.lookedAt k s := fun site hsite hholds => List.mem_filter.mpr ⟨hsite, hholds⟩
  refine rewrite_induction (M := fun k s s' => s'.IsFlat t k ↔ s.FlattensFully t k) ?_ ?_
  · intro site hsite hremove
    by_cases hholds : Flatten.holdsCalls site.node
    · rw [hbefore site (hlooked site hsite hholds)] at hremove
      cases hremove
    · rw [hothers site hsite hholds] at hremove
      cases hremove
  · intro site hsite hparts
    by_cases hholds : Flatten.holdsCalls site.node
    · rw [hbefore site (hlooked site hsite hholds)]
      exact isFlat_flattenedOwn hfree hholds (hclean site (hlooked site hsite hholds))
    · rw [hothers site hsite hholds]
      exact isFlat_of_parts hholds (scope?_presented f site) (exprs_presented f site) hparts

/-- The variable `A` with `@dim(2, 3)`. -/
def matrixTable : SymbolTable :=
  ⟨#[⟨"int", .int⟩],
    #[⟨"A", .plain ⟨0⟩, [Flatten.sampleAttribute Flatten.dimName
      [Flatten.numeral 2, Flatten.numeral 3]], .none⟩], #[], #[⟨none, [("A", .variable ⟨0⟩)]⟩]⟩

/-- The access `A(i, 1)` for an expression `i`. -/
def matrixAccess (i : Expr) : Expr := .call (.ofVar ⟨0⟩ .none) [i, Flatten.numeral 1] .none

/-- The block `{ A(A(0, 1), 1); }`. -/
def nestedAccess : Statement :=
  .block .global [.expression (matrixAccess (matrixAccess (Flatten.numeral 0))) .none] .none

/-- The statement `return A(0, 1);`. -/
def returnedAccess : Statement := .return (some (matrixAccess (Flatten.numeral 0))) .none

/-- No extent of the sample is a call. -/
theorem callFree_matrixTable : Flatten.CallFree matrixTable := by
  rintro ⟨i⟩ dim hdim a ha n hn
  cases i with
  | zero =>
    obtain rfl := Option.some.inj hdim
    simp only [Flatten.sampleAttribute, List.map_cons, List.map_nil, List.mem_cons,
      List.not_mem_nil, or_false] at ha
    rcases ha with rfl | rfl <;>
      simp [Expr.nodes_eq, Flatten.numeral, Expr.ofValue, Expr.children] at hn <;>
      subst hn <;> intro hkind <;> cases hkind
  | succ i =>
    have hvar : matrixTable.var ⟨i + 1⟩ = default := by simp [SymbolTable.var, matrixTable]
    rw [hvar] at hdim
    cases hdim

/-- The sample is one of the statements that are flattened fully. -/
theorem flattensFully_nestedAccess : nestedAccess.FlattensFully matrixTable .global := by
  have hresolved : ¬ (matrixAccess (matrixAccess (Flatten.numeral 0))).Has
      fun n => n.kind = .identifier := by
    simp [Expr.Has, Expr.nodes_eq, matrixAccess, Flatten.numeral, Expr.children, Expr.ofVar,
      Expr.ofValue, Expr.kind, Atom.kind]
  rw [nestedAccess, flattensFully_iff]
  refine ⟨List.forall_mem_singleton.mpr ?_, List.forall_mem_nil _⟩
  rw [flattensFully_iff]
  refine ⟨List.forall_mem_nil _, List.forall_mem_singleton.mpr ?_⟩
  exact mt Flatten.has_identifier_of_has_isReviving hresolved

theorem flatten_nestedAccess :
    ∃ s' d', nestedAccess.flatten matrixTable .global (.empty none) = (s', ⟨d', none⟩) ∧
      s'.IsFlat matrixTable .global := by
  have hfailure : (nestedAccess.flatten matrixTable .global (.empty none)).2.failure = none := by
    cbv
  obtain ⟨s', d', hrun⟩ := Walk.exists_of_failure hfailure
  exact ⟨s', d', hrun, (flatten_leftover callFree_matrixTable hrun).mpr flattensFully_nestedAccess⟩

/-- An access in a `return` is left behind. -/
theorem returnedAccess_not_flat :
    Flatten.CallFree matrixTable ∧
      returnedAccess.flatten matrixTable .global (.empty none)
        = (returnedAccess, ⟨.empty none, none⟩) ∧
      ¬ returnedAccess.IsFlat matrixTable .global := by
  refine ⟨callFree_matrixTable, rfl, fun h => ?_⟩
  have hreturn := (isFlat_iff.mp h).2 _ (List.mem_singleton.mpr rfl)
  exact hreturn (Expr.has_iff.mpr (.inl ⟨⟨0⟩, .none, _, .none, rfl, _, rfl, List.cons_ne_nil _ _⟩))

end Statement

end KernelTree
