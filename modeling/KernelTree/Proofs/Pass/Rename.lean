import KernelTree.Proofs.Pass.Walk

/-!
# Renamed trees

A renaming gives every type, variable and function another one of its sort. In a renamed tree the
nodes that refer to one of them refer to the other, and all else is as it was
(`Expr.refers_rename`, `Statement.refers_rename`). Renaming twice is renaming once, and a renaming
that fixes all symbols that a tree refers to changes nothing, so a symbol that is replaced by one
that did not occur can be put back (`Renaming.single_fixes`).
-/

namespace KernelTree

/-- What types, variables and functions are to be called instead. -/
structure Renaming where
  type : TypeId → TypeId
  var : VarId → VarId
  func : FuncId → FuncId

/-- Two symbols of one sort. -/
inductive Symbol.Alike : Symbol → Symbol → Prop
  | type (a b : TypeId) : Alike (.type a) (.type b)
  | variable (a b : VarId) : Alike (.variable a) (.variable b)
  | function (a b : FuncId) : Alike (.function a) (.function b)

/-- Being of one sort goes both ways. -/
theorem Symbol.Alike.symm {x y : Symbol} (h : x.Alike y) : y.Alike x := by
  cases h with
  | type => exact .type _ _
  | «variable» => exact .variable _ _
  | function => exact .function _ _

namespace Renaming

/-- What a symbol is to be called instead. -/
def symbol (r : Renaming) : Symbol → Symbol
  | .type id => .type (r.type id)
  | .variable id => .variable (r.var id)
  | .function id => .function (r.func id)

/-- The type with its base called otherwise. -/
def vartype (r : Renaming) (t : Vartype) : Vartype := ⟨r.type t.base, t.isConst, t.pointerDepth⟩

/-- One renaming after another. -/
def after (r' r : Renaming) : Renaming := ⟨r'.type ∘ r.type, r'.var ∘ r.var, r'.func ∘ r.func⟩

/-- One symbol is called as another of its sort, and all others as they are. -/
def single (source target : Symbol) : Renaming :=
  match source, target with
  | .type a, .type b => ⟨fun id => if id = a then b else id, id, id⟩
  | .variable a, .variable b => ⟨id, fun id => if id = a then b else id, id⟩
  | .function a, .function b => ⟨id, id, fun id => if id = a then b else id⟩
  | _, _ => ⟨id, id, id⟩

/-- Two renamings in a row are one. -/
theorem symbol_after (r' r : Renaming) (x : Symbol) :
    (r'.after r).symbol x = r'.symbol (r.symbol x) := by
  cases x <;> rfl

theorem vartype_after (r' r : Renaming) (t : Vartype) :
    (r'.after r).vartype t = r'.vartype (r.vartype t) := rfl

/-- Renaming one symbol leaves all others alone. -/
theorem symbol_single {source target : Symbol} (h : source.Alike target) (x : Symbol) :
    (single source target).symbol x = if x = source then target else x := by
  cases h <;> cases x <;> simp [single, symbol] <;> split <;> rfl

/-- Nothing is called as the symbol that another one stands in for. -/
theorem symbol_single_ne {source target : Symbol} (h : source.Alike target)
    (hne : source ≠ target) (x : Symbol) : (single source target).symbol x ≠ source := by
  rw [symbol_single h]
  split
  · exact hne.symm
  · assumption

/-- Replacing a symbol and putting it back fixes all symbols but the one that stood in for it. -/
theorem single_fixes {source target x : Symbol} (h : source.Alike target) (hx : x ≠ target) :
    ((single target source).after (single source target)).symbol x = x := by
  rw [symbol_after, symbol_single h, symbol_single h.symm]
  by_cases hsource : x = source
  · rw [if_pos hsource, if_pos rfl, hsource]
  · rw [if_neg hsource, if_neg hx]

end Renaming

variable {r r' : Renaming} {x : Symbol}

/-! ### Leaves -/

namespace Atom

/-- The symbol that a leaf refers to. -/
def symbol? : Atom → Option Symbol
  | .type id => some (.type id)
  | .vartype t => some (.type t.base)
  | .variable id => some (.variable id)
  | .function id => some (.function id)
  | _ => none

/-- The leaf that refers to what its symbol is to be called. -/
def rename (r : Renaming) : Atom → Atom
  | .type id => .type (r.type id)
  | .vartype t => .vartype (r.vartype t)
  | .variable id => .variable (r.var id)
  | .function id => .function (r.func id)
  | a => a

/-- A renamed leaf stands for the renamed symbol. -/
theorem symbol?_rename (r : Renaming) (a : Atom) :
    (a.rename r).symbol? = a.symbol?.map r.symbol := by
  cases a <;> rfl

/-- Renaming a leaf twice is renaming it once. -/
theorem rename_rename (r' r : Renaming) (a : Atom) :
    (a.rename r).rename r' = a.rename (r'.after r) := by
  cases a <;> rfl

end Atom

/-! ### Expressions -/

namespace Expr

/-- The symbol that a node itself refers to: the one of a leaf, or the base of the type of a
conversion or of `new`. -/
def symbol? : Expr → Option Symbol
  | atom a _ => a.symbol?
  | cast _ t _ _ => some (.type t.base)
  | new t _ _ _ => some (.type t.base)
  | _ => none

/-- A node of the expression refers to the symbol. -/
inductive Refers (x : Symbol) : Expr → Prop
  | node {e : Expr} (h : e.symbol? = some x) : Refers x e
  | child {e c : Expr} (hc : c ∈ e.children) (h : Refers x c) : Refers x e

/-- A tree refers to a symbol if its root does or a tree inside. -/
theorem refers_iff {e : Expr} : e.Refers x ↔ e.symbol? = some x ∨ ∃ c ∈ e.children, c.Refers x := by
  constructor
  · intro h
    cases h with
    | node h => exact .inl h
    | child hc h => exact .inr ⟨_, hc, h⟩
  · rintro (h | ⟨c, hc, h⟩)
    · exact .node h
    · exact .child hc h

/-- The use of a variable refers to that one only. -/
@[simp] theorem refers_ofVar_iff {v : VarId} {l : Location} :
    (ofVar v l).Refers x ↔ x = .variable v := by
  rw [refers_iff]
  simp [ofVar, symbol?, Atom.symbol?, children, eq_comm]

@[simp] theorem refers_ofValue_iff {v : Value} {l : Location} : (ofValue v l).Refers x ↔ False := by
  rw [refers_iff]
  simp [ofValue, symbol?, Atom.symbol?, children]

/-- An infix operator refers to what its sides do. -/
@[simp] theorem refers_mkBinary_iff {op : BinaryOp} {a b : Expr} :
    (mkBinary op a b).Refers x ↔ a.Refers x ∨ b.Refers x := by
  rw [refers_iff]
  simp [mkBinary, symbol?, children]

@[simp] theorem refers_mkParens_iff {e : Expr} : e.mkParens.Refers x ↔ e.Refers x := by
  rw [refers_iff]
  simp [mkParens, symbol?, children]

@[simp] theorem refers_wrapped_iff {e : Expr} : e.wrapped.Refers x ↔ e.Refers x := by
  cases e <;> first | exact Iff.rfl | exact refers_mkParens_iff

/-- The expression with everything in it called as the renaming says. -/
def rename (r : Renaming) : Expr → Expr
  | empty l => empty l
  | atom a l => atom (a.rename r) l
  | prefixed op v l => prefixed op (v.rename r) l
  | postfixed op v l => postfixed op (v.rename r) l
  | binary op a b l => binary op (a.rename r) (b.rename r) l
  | ternary a b c l => ternary (a.rename r) (b.rename r) (c.rename r) l
  | pair op v l => pair op (v.rename r) l
  | subscript v i l => subscript (v.rename r) (i.rename r) l
  | call f args l => call (f.rename r) (args.map fun arg => arg.rename r) l
  | launch k b t l => launch (k.rename r) (b.rename r) (t.rename r) l
  | sizeof v l => sizeof (v.rename r) l
  | new t v size l => new (r.vartype t) (v.rename r) (size.rename r) l
  | delete v isArray l => delete (v.rename r) isArray l
  | throw v l => throw (v.rename r) l
  | cast k t v l => cast k (r.vartype t) (v.rename r) l
  | parens v l => parens (v.rename r) l
  | tuple args l => tuple (args.map fun arg => arg.rename r) l

/-- The trees inside are renamed one by one. -/
theorem children_rename (r : Renaming) (e : Expr) :
    (e.rename r).children = e.children.map (rename r) := by
  cases e <;> simp [rename, children]

/-- A renamed node stands for the renamed symbol. -/
theorem symbol?_rename (r : Renaming) (e : Expr) :
    (e.rename r).symbol? = e.symbol?.map r.symbol := by
  cases e with
  | atom a l => simp only [rename, symbol?, Atom.symbol?_rename]
  | _ =>
    simp only [rename, symbol?]
    rfl

/-- What a renamed expression refers to is what something it referred to is called. -/
theorem refers_rename {e : Expr} (h : (e.rename r).Refers x) :
    ∃ y, e.Refers y ∧ r.symbol y = x := by
  induction e using inductionOn with
  | step e ih =>
    generalize he : e.rename r = e' at h
    cases h with
    | node h =>
      subst he
      rw [symbol?_rename, Option.map_eq_some_iff] at h
      obtain ⟨y, hy, hx⟩ := h
      exact ⟨y, .node hy, hx⟩
    | child hc h =>
      subst he
      rw [children_rename] at hc
      obtain ⟨c, hmem, rfl⟩ := List.mem_map.mp hc
      obtain ⟨y, hy, hx⟩ := ih c hmem h
      exact ⟨y, .child hmem hy, hx⟩

/-- Renaming an expression twice is renaming it once. -/
theorem rename_rename (r' r : Renaming) (e : Expr) :
    (e.rename r).rename r' = e.rename (r'.after r) := by
  induction e using inductionOn with
  | step e ih =>
    cases e <;> simp_all [rename, children, Atom.rename_rename, Renaming.vartype_after]

/-- A list stays as it is if each of its expressions does. -/
theorem map_rename_of_fixes {es : List Expr} (h : ∀ e ∈ es, e.rename r = e) :
    (es.map fun e => e.rename r) = es :=
  (List.map_congr_left h).trans (List.map_id' es)

/-- A leaf stays as it is if its symbol does. -/
theorem rename_atom_of_fixes {a : Atom} (h : ∀ x, a.symbol? = some x → r.symbol x = x) :
    a.rename r = a := by
  cases a <;> simp_all [Atom.symbol?, Atom.rename, Renaming.symbol, Renaming.vartype]

/-- A renaming that fixes all that an expression refers to leaves it as it is. -/
theorem rename_of_fixes {e : Expr} (h : ∀ x, e.Refers x → r.symbol x = x) : e.rename r = e := by
  induction e using inductionOn with
  | step e ih =>
    have hchildren : ∀ c ∈ e.children, c.rename r = c :=
      fun c hc => ih c hc fun x hx => h x (.child hc hx)
    have hnode : ∀ x, e.symbol? = some x → r.symbol x = x := fun x hx => h x (.node hx)
    cases e with
    | atom a l => rw [rename, rename_atom_of_fixes hnode]
    | call f args l =>
      obtain ⟨hf, hargs⟩ := List.forall_mem_cons.mp hchildren
      rw [rename, hf, map_rename_of_fixes hargs]
    | tuple args l =>
      have hargs : ∀ arg ∈ args, arg.rename r = arg := hchildren
      rw [rename, map_rename_of_fixes hargs]
    | _ => simp_all [rename, children, symbol?, Renaming.symbol, Renaming.vartype]

end Expr

/-! ### Statements -/

/-- The declarator with another variable and its value renamed. -/
def Declarator.rename (r : Renaming) (d : Declarator) : Declarator :=
  ⟨r.var d.var, d.value.map (Expr.rename r)⟩

/-- Renaming a declarator twice is renaming it once. -/
theorem Declarator.rename_rename (r' r : Renaming) (d : Declarator) :
    (d.rename r).rename r' = d.rename (r'.after r) := by
  obtain ⟨v, value⟩ := d
  cases value <;> simp [Declarator.rename, Expr.rename_rename, Renaming.after]

namespace Statement

/-- An expression of the statement or of one inside refers to the symbol, or declares it. -/
inductive Refers (x : Symbol) : Statement → Prop
  | expr {s : Statement} {e : Expr} (he : e ∈ s.exprs) (h : e.Refers x) : Refers x s
  | declared {ds : List Declarator} {d : Declarator} {l : Location} (hd : d ∈ ds)
      (h : x = .variable d.var) : Refers x (.declaration ds l)
  | part {s c : Statement} (hc : c ∈ s.parts) (h : Refers x c) : Refers x s

/-- An expression statement refers to what its expression does. -/
theorem refers_expression_iff {e : Expr} {l : Location} :
    (expression e l).Refers x ↔ e.Refers x := by
  constructor
  · intro h
    cases h with
    | expr he h => exact List.mem_singleton.mp he ▸ h
    | part hc => cases hc
  · exact .expr List.mem_cons_self

/-- The statement with everything in it called as the renaming says. -/
def rename (r : Renaming) : Statement → Statement
  | .empty l => .empty l
  | .block scope body l => .block scope (body.map fun s => s.rename r) l
  | .expression e l => .expression (e.rename r) l
  | .declaration ds l => .declaration (ds.map (Declarator.rename r)) l
  | .loop scope init check update body attributes l =>
    .loop scope (init.rename r) (check.rename r) (update.rename r)
      (body.map fun s => s.rename r) attributes l
  | .branch scope condition body none l =>
    .branch scope (condition.rename r) (body.map fun s => s.rename r) none l
  | .branch scope condition body (some otherwise) l =>
    .branch scope (condition.rename r) (body.map fun s => s.rename r)
      (some (otherwise.map fun s => s.rename r)) l
  | .while scope condition body isDoWhile l =>
    .while scope (condition.rename r) (body.map fun s => s.rename r) isDoWhile l
  | .return value l => .return (value.map (Expr.rename r)) l

/-- The statements inside are renamed one by one. -/
theorem parts_rename (r : Renaming) (s : Statement) :
    (s.rename r).parts = s.parts.map (rename r) := by
  cases s with
  | branch scope condition body otherwise l =>
    cases otherwise <;> simp [rename, parts]
  | _ => simp [rename, parts]

/-- The values of declarators are renamed one by one. -/
theorem filterMap_value_rename (r : Renaming) (ds : List Declarator) :
    (ds.map (Declarator.rename r)).filterMap Declarator.value
      = (ds.filterMap Declarator.value).map (Expr.rename r) := by
  rw [List.filterMap_map, List.map_filterMap]
  rfl

/-- The expressions of a statement are renamed one by one. -/
theorem exprs_rename (r : Renaming) (s : Statement) :
    (s.rename r).exprs = s.exprs.map (Expr.rename r) := by
  cases s with
  | declaration ds l =>
    rw [rename]
    exact filterMap_value_rename r ds
  | «return» value l => cases value <;> simp [rename, exprs]
  | branch scope condition body otherwise l => cases otherwise <;> simp [rename, exprs]
  | _ => simp [rename, exprs]

/-- What a renamed statement refers to is what something it referred to is called. -/
theorem refers_rename {s : Statement} (h : (s.rename r).Refers x) :
    ∃ y, s.Refers y ∧ r.symbol y = x := by
  induction s using shape.inductionOn with
  | step s ih =>
    -- By cases on where the reference stands in the renamed statement: each place comes from one
    -- before.
    generalize hs : s.rename r = s' at h
    cases h with
    | expr he h =>
      subst hs
      rw [exprs_rename] at he
      obtain ⟨e, hmem, rfl⟩ := List.mem_map.mp he
      obtain ⟨y, hy, hx⟩ := Expr.refers_rename h
      exact ⟨y, .expr hmem hy, hx⟩
    | declared hd h =>
      cases s with
      | declaration ds l =>
        rw [rename] at hs
        obtain ⟨rfl, -⟩ := declaration.inj hs
        obtain ⟨d, hmem, rfl⟩ := List.mem_map.mp hd
        exact ⟨.variable d.var, .declared hmem rfl, h.symm⟩
      | branch scope condition body otherwise l => cases otherwise <;> simp [rename] at hs
      | _ => simp [rename] at hs
    | part hc h =>
      subst hs
      rw [parts_rename] at hc
      obtain ⟨c, hmem, rfl⟩ := List.mem_map.mp hc
      obtain ⟨y, hy, hx⟩ := ih c hmem h
      exact ⟨y, .part hmem hy, hx⟩

/-- A declarator stays as it is if its variable and its value do. -/
theorem rename_declarator_of_fixes {d : Declarator} (hvar : r.var d.var = d.var)
    (hvalue : ∀ e, d.value = some e → e.rename r = e) : d.rename r = d := by
  obtain ⟨v, value⟩ := d
  cases value <;> simp_all [Declarator.rename]

/-- A list stays as it is if each of its statements does. -/
theorem map_rename_of_fixes {l : List Statement} (h : ∀ s ∈ l, s.rename r = s) :
    (l.map fun s => s.rename r) = l :=
  (List.map_congr_left h).trans (List.map_id' l)

/-- A renaming that fixes all that a statement refers to leaves it as it is. -/
theorem rename_of_fixes {s : Statement} (h : ∀ x, s.Refers x → r.symbol x = x) :
    s.rename r = s := by
  induction s using shape.inductionOn with
  | step s ih =>
    have hparts : ∀ c ∈ s.parts, c.rename r = c :=
      fun c hc => ih c hc fun x hx => h x (.part hc hx)
    have hexprs : ∀ e ∈ s.exprs, e.rename r = e :=
      fun e he => Expr.rename_of_fixes fun x hx => h x (.expr he hx)
    cases s with
    | empty => rw [rename]
    | block scope body l =>
      have hbody : ∀ c ∈ body, c.rename r = c := hparts
      rw [rename, map_rename_of_fixes hbody]
    | expression e l => rw [rename, hexprs e List.mem_cons_self]
    | declaration ds l =>
      have hds : ∀ d ∈ ds, d.rename r = d := by
        intro d hd
        refine rename_declarator_of_fixes ?_ fun e he => hexprs e ?_
        · exact Symbol.variable.inj (h (.variable d.var) (.declared hd rfl))
        · exact List.mem_filterMap.mpr ⟨d, hd, he⟩
      rw [rename, List.map_congr_left hds, List.map_id']
    | loop scope init check update body attributes l =>
      simp only [parts, List.forall_mem_cons] at hparts
      obtain ⟨hinit, hcheck, hupdate, hbody⟩ := hparts
      rw [rename, hinit, hcheck, hupdate, map_rename_of_fixes hbody]
    | branch scope condition body otherwise l =>
      cases otherwise with
      | none =>
        obtain ⟨hcondition, hbody⟩ := List.forall_mem_cons.mp hparts
        rw [rename, hcondition, map_rename_of_fixes hbody]
      | some otherwise =>
        simp only [parts, List.forall_mem_cons, List.forall_mem_append] at hparts
        obtain ⟨hcondition, hbody, hotherwise⟩ := hparts
        rw [rename, hcondition, map_rename_of_fixes hbody, map_rename_of_fixes hotherwise]
    | «while» scope condition body isDoWhile l =>
      obtain ⟨hcondition, hbody⟩ := List.forall_mem_cons.mp hparts
      rw [rename, hcondition, map_rename_of_fixes hbody]
    | «return» value l =>
      cases value with
      | none => rw [rename, Option.map_none]
      | some e => rw [rename, Option.map_some, hexprs e List.mem_cons_self]

/-- Renaming a statement twice is renaming it once. -/
theorem rename_rename (r' r : Renaming) (s : Statement) :
    (s.rename r).rename r' = s.rename (r'.after r) := by
  induction s using shape.inductionOn with
  | step s ih =>
    have hparts : ∀ c ∈ s.parts, (c.rename r).rename r' = c.rename (r'.after r) := ih
    cases s with
    | branch scope condition body otherwise l =>
      cases otherwise <;> simp_all [rename, parts, or_imp, forall_and]
    | «return» value l => cases value <;> simp [rename, Expr.rename_rename]
    | declaration ds l => simp [rename, Declarator.rename_rename]
    | _ => simp_all [rename, parts, Expr.rename_rename]

end Statement

end KernelTree
