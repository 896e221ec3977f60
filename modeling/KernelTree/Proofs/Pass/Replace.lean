import Mathlib
import KernelTree.Pass.Substitution
import KernelTree.Proofs.Pass.Rename

/-!
# Substitution is renaming

A walk that needs no state is what it yields from any state (`Walk.Yields`). Substituting one symbol
for another of its sort is such a walk, and it yields the renamed tree: nothing is left of the
symbol, and substituting it back gives the tree as it was if the other one did not occur
(`substitute_renames`).
-/

namespace KernelTree

/-! ### Walks that need no state -/

namespace Walk

variable {σ ε α β : Type}

/-- The walk does not fail, leaves every state as it is and comes to `a`. -/
def Yields (w : Walk σ ε α) (a : α) : Prop := ∀ state, w.run ⟨state, none⟩ = (a, ⟨state, none⟩)

/-- What changes nothing yields its result. -/
theorem Yields.pure (a : α) : Yields (pure a : Walk σ ε α) a := fun _ => rfl

/-- Two walks in a row yield what the second does from the result of the first. -/
theorem Yields.bind {w : Walk σ ε α} {k : α → Walk σ ε β} {a : α} {b : β} (h : w.Yields a)
    (hk : (k a).Yields b) : (w >>= k).Yields b := by
  intro state
  show (k (w.run ⟨state, none⟩).1).run (w.run ⟨state, none⟩).2 = _
  rw [h state]
  exact hk state

/-- A walk whose result is changed yields the changed result. -/
theorem Yields.map {w : Walk σ ε α} {a : α} (h : w.Yields a) (f : α → β) :
    (f <$> w).Yields (f a) := by
  intro state
  show (f (w.run ⟨state, none⟩).1, (w.run ⟨state, none⟩).2) = _
  rw [h state]

/-- A list is walked element by element. -/
theorem Yields.mapM {l : List α} {w : α → Walk σ ε β} {f : α → β}
    (h : ∀ a ∈ l, (w a).Yields (f a)) : (l.mapM w).Yields (l.map f) := by
  induction l with
  | nil => exact .pure []
  | cons a l ih =>
    rw [List.mapM_cons]
    refine (h a (by simp)).bind ?_
    exact (ih fun a ha => h a (by simp [ha])).bind (.pure _)

/-- A question that is always answered alike yields the answer. -/
theorem yields_ask {question : σ → Except ε α × σ} {otherwise a : α}
    (h : ∀ state, question state = (.ok a, state)) : (ask question otherwise).Yields a := by
  intro state
  show ask question otherwise ⟨state, none⟩ = _
  simp only [Walk.ask, h]

/-- Started anywhere, such a walk keeps the state and does not fail. -/
theorem Yields.start {w : Walk σ ε α} {a : α} (h : w.Yields a) (state : σ) :
    w.start state = (a, ⟨state, none⟩) := h state

end Walk

namespace Substitution

variable (sub : Substitution)

/-- The renaming that a substitution stands for. -/
def toRenaming : Renaming := .single sub.source sub.target

/-- Replacing a variable is renaming it. -/
theorem var_eq (id : VarId) : sub.var id = sub.toRenaming.var id := by
  obtain ⟨source, target⟩ := sub
  cases source <;> cases target <;> rfl

/-- Replacing a function is renaming it. -/
theorem func_eq (id : FuncId) : sub.func id = sub.toRenaming.func id := by
  obtain ⟨source, target⟩ := sub
  cases source <;> cases target <;> rfl

/-- Replacing a type is renaming it. -/
theorem type_eq (id : TypeId) : sub.type id = sub.toRenaming.type id := by
  obtain ⟨source, target⟩ := sub
  cases source <;> cases target <;> rfl

/-- A type with pointers is renamed by its base. -/
theorem vartype_eq (t : Vartype) : sub.vartype t = sub.toRenaming.vartype t := by
  rw [vartype, type_eq]
  rfl

/-- A leaf is renamed by what it stands for. -/
theorem atom_eq (a : Atom) : sub.atom a = a.rename sub.toRenaming := by
  cases a <;> simp only [atom, Atom.rename, var_eq, func_eq, type_eq, vartype_eq]

/-- Nodes of the kinds that a substitution does not ask about cannot use the symbol. -/
theorem node_of_not_accepts {e : Expr} (h : ¬ sub.accepts e.kind = true) : sub.node e = e := by
  obtain ⟨source, target⟩ := sub
  cases e with
  | atom a l => cases source <;> cases target <;> cases a <;> first | rfl | exact absurd rfl h
  | cast | new => cases source <;> cases target <;> first | rfl | exact absurd rfl h
  | _ => rfl

/-- A node with renamed parts is renamed by the substitution in the node itself. -/
theorem node_withChildren (e : Expr) :
    sub.node (e.withChildren (e.children.map (Expr.rename sub.toRenaming)))
      = e.rename sub.toRenaming := by
  cases e with
  | atom a l =>
    rw [Expr.rename, ← sub.atom_eq]
    rfl
  | cast | new =>
    rw [Expr.rename, ← sub.vartype_eq]
    rfl
  | _ =>
    simp only [Expr.rename, Expr.children, List.map_cons, List.map_nil]
    rfl

end Substitution

/-! ### Expressions -/

namespace Expr

variable (sub : Substitution)

/-- The pass answers every node with the node renamed. -/
theorem yields_visit (e : Expr) : (e.visit sub.exprPass).Yields (sub.node e) := by
  rw [visit]
  split
  · exact (Walk.yields_ask fun _ => rfl).map (settled e)
  case isFalse h =>
    rw [sub.node_of_not_accepts h]
    exact .pure e

/-- By induction over the tree: the walk renames everything in it. -/
theorem yields_walk (e : Expr) : (e.walk sub.exprPass).Yields (e.rename sub.toRenaming) := by
  induction e using inductionOn with
  | step e ih =>
    rw [walk, List.mapM_subtype (g := walk sub.exprPass) fun _ _ => rfl, List.unattach_attach]
    refine (Walk.Yields.mapM ih).bind ?_
    rw [← sub.node_withChildren e]
    exact yields_visit sub _

/-- Substitution in an expression is renaming. -/
theorem substitute_eq_rename (e : Expr) : e.substitute sub = e.rename sub.toRenaming := by
  rw [substitute, (yields_walk sub e).start]

/-- Nothing is left of a symbol that another one of its sort stands in for. -/
theorem not_refers_substitute {source target : Symbol} (h : source.Alike target)
    (hne : source ≠ target) (e : Expr) : ¬ (e.substitute ⟨source, target⟩).Refers source := by
  rw [substitute_eq_rename]
  intro hleft
  obtain ⟨y, -, hy⟩ := refers_rename hleft
  exact Renaming.symbol_single_ne h hne y hy

end Expr

/-! ### Statements -/

/-- The values of declarators are put back where they were. -/
theorem Declarator.withValues_map (ds : List Declarator) (f : Expr → Expr) :
    withValues ds ((ds.filterMap value).map f)
      = ds.map fun d => ⟨d.var, d.value.map f⟩ := by
  induction ds with
  | nil => simp [withValues]
  | cons d ds ih =>
    obtain ⟨v, value⟩ := d
    cases value with
    | none => simpa [withValues] using ih
    | some e => simpa [withValues] using ih

namespace Statement

variable (sub : Substitution)

/-- In a declaration the variables are renamed, and the values are renamed by the walk over
expressions. -/
theorem withExprs_declared (ds : List Declarator) (l : Location) :
    (sub.declared (.declaration ds l)).withExprs
        ((sub.declared (.declaration ds l)).exprs.map (Expr.rename sub.toRenaming))
      = (declaration ds l).rename sub.toRenaming := by
  have hdeclarator : ∀ d : Declarator,
      ⟨(sub.declarator d).var, (sub.declarator d).value.map (Expr.rename sub.toRenaming)⟩
        = d.rename sub.toRenaming := fun d => by
    rw [Substitution.declarator, sub.var_eq, Declarator.rename]
  show Statement.declaration (Declarator.withValues (ds.map sub.declarator)
    (((ds.map sub.declarator).filterMap Declarator.value).map (Expr.rename sub.toRenaming))) l = _
  rw [Declarator.withValues_map, List.map_map, rename, ← funext hdeclarator]
  rfl

/-- The statements that a substitution asks about are renamed by it as a whole. -/
theorem yields_walkExprs {s : Statement} (h : Substitution.acceptsStatement s.kind = true) :
    ((sub.declared s).walkExprs sub.exprPass).Yields (s.rename sub.toRenaming) := by
  have hwalk : ((sub.declared s).walkExprs sub.exprPass).Yields ((sub.declared s).withExprs
      ((sub.declared s).exprs.map (Expr.rename sub.toRenaming))) :=
    (Walk.Yields.mapM fun e _ => Expr.yields_walk sub e).bind (.pure _)
  cases s with
  | expression e l =>
    rw [rename]
    exact hwalk
  | declaration ds l => exact withExprs_declared sub ds l ▸ hwalk
  | «return» value l =>
    cases value with
    | none =>
      rw [rename]
      exact hwalk
    | some e =>
      rw [rename]
      exact hwalk
  | _ => cases h

/-- What the walk comes to about a statement: those with expressions are replaced, and the others
are put together from renamed parts. -/
def renamed (r : Renaming) (s : Statement) : Verdict Statement × Statement :=
  if Substitution.acceptsStatement s.kind then (.replace (s.rename r), s) else (.keep, s.rename r)

/-- An answer puts the renamed statement in the place of the old one. -/
theorem inSlot_renamed (r : Renaming) (s : Statement) : inSlot (s.renamed r) = s.rename r := by
  unfold renamed
  split <;> rfl

/-- An answer puts the renamed statement into the list. -/
theorem inList_renamed (r : Renaming) (s : Statement) : inList (s.renamed r) = [s.rename r] := by
  unfold renamed
  split <;> rfl

/-- A list of answers gives the list of renamed statements. -/
theorem flatMap_inList_renamed (r : Renaming) (l : List Statement) :
    (l.map (renamed r)).flatMap inList = l.map (rename r) := by
  rw [List.flatMap_map, funext (inList_renamed r)]
  exact List.map_eq_flatMap.symm

/-- A statement without expressions of its own is renamed by its parts. -/
theorem rebuild_renamed (r : Renaming) {s : Statement}
    (h : ¬ Substitution.acceptsStatement s.kind = true) :
    s.rebuild (s.parts.map (renamed r)) = s.rename r := by
  cases s with
  | empty => rw [rename]; rfl
  | branch scope condition body otherwise l =>
    cases otherwise with
    | none =>
      simp only [parts, rebuild, List.map_cons, inSlot_renamed, flatMap_inList_renamed, rename]
    | some otherwise =>
      simp only [parts, rebuild, List.map_cons, inSlot_renamed, ← List.map_take, ← List.map_drop,
        List.take_left, List.drop_left, flatMap_inList_renamed, rename]
  | block | loop | «while» =>
    simp only [parts, rebuild, List.map_cons, inSlot_renamed, flatMap_inList_renamed, rename]
  | _ => exact absurd rfl h

/-- A statement that the substitution asks about has nothing inside and becomes what it is renamed
to; any other is kept. -/
theorem yields_answer (scope : ScopeId) (s : Statement) :
    (shape.answer sub.statementPass.visitor scope
        (s.rebuild (s.parts.map (renamed sub.toRenaming)))).Yields (s.renamed sub.toRenaming).1 ∧
      s.rebuild (s.parts.map (renamed sub.toRenaming)) = (s.renamed sub.toRenaming).2 := by
  by_cases haccepts : Substitution.acceptsStatement s.kind = true
  · -- It is put together as it was, and the pass renames it in one go.
    have hrebuild : s.rebuild (s.parts.map (renamed sub.toRenaming)) = s := by
      cases s <;> first | rfl | cases haccepts
    rw [hrebuild, renamed, if_pos haccepts, Shape.answer,
      if_pos (show sub.statementPass.visitor.accepts (shape.kind s) = true from haccepts)]
    refine ⟨Walk.yields_ask fun state => ?_, rfl⟩
    show (Except.ok (Verdict.replace _), state) = _
    rw [(yields_walkExprs sub haccepts).start]
  · -- Its parts are renamed already, and the pass is not asked.
    have hkind : ¬ sub.statementPass.visitor.accepts
        (shape.kind (s.rename sub.toRenaming)) = true := by
      rw [← rebuild_renamed _ haccepts]
      show ¬ Substitution.acceptsStatement (s.rebuild _).kind = true
      rw [kind_rebuild]
      exact haccepts
    rw [rebuild_renamed _ haccepts, renamed, if_neg haccepts, Shape.answer, if_neg hkind]
    exact ⟨.pure _, rfl⟩

/-- By induction over the statement: the walk renames everything in it. -/
theorem yields_walk (scope : ScopeId) (s : Statement) :
    (shape.walk sub.statementPass.visitor scope s).Yields (s.renamed sub.toRenaming) := by
  induction s using shape.inductionOn generalizing scope with
  | step s ih =>
    obtain ⟨hanswer, hbelow⟩ := yields_answer sub scope s
    rw [shape.walk_eq]
    refine (Walk.Yields.mapM fun c hc => ih c hc _).bind ?_
    have hpair := hanswer.map (·, s.rebuild (s.parts.map (renamed sub.toRenaming)))
    have hanswered : ((s.renamed sub.toRenaming).1,
        s.rebuild (s.parts.map (renamed sub.toRenaming))) = s.renamed sub.toRenaming :=
      Prod.ext rfl hbelow
    exact hanswered ▸ hpair

/-- The walk starts inside the scope of the statement and renames it. -/
theorem yields_substitute (s : Statement) :
    (s.walk sub.statementPass (s.scope?.getD .global)).Yields (s.rename sub.toRenaming) := by
  rw [walk_eq, ← inSlot_renamed]
  exact (yields_walk sub _ s).map inSlot

/-- Substitution in a statement is renaming. -/
theorem substitute_eq_rename (s : Statement) : s.substitute sub = s.rename sub.toRenaming := by
  rw [substitute, (yields_substitute sub s).start]

/-- Nothing in a statement refers to what has been replaced. -/
theorem not_refers_substitute {source target : Symbol} (h : source.Alike target)
    (hne : source ≠ target) (s : Statement) :
    ¬ (s.substitute ⟨source, target⟩).Refers source := by
  rw [substitute_eq_rename]
  intro hleft
  obtain ⟨y, -, hy⟩ := refers_rename hleft
  exact Renaming.symbol_single_ne h hne y hy

end Statement

/-! ### Replacing a symbol -/

variable {source target : Symbol}

/-- **Substitution is renaming.** Substituting a symbol for another one of its sort does not fail,
and it comes to the tree in which every reference to the one is a reference to the other, the
variables that are declared included, and everything else is as it was. So nothing refers to the
symbol any more unless it stands in for itself; and if nothing referred to the other one, putting
the symbol back gives the tree that there was. -/
theorem substitute_renames (h : source.Alike target) :
    (∀ e : Expr,
      (e.walk (Substitution.mk source target).exprPass).start ()
          = (e.rename (.single source target), ⟨(), none⟩) ∧
        e.substitute ⟨source, target⟩ = e.rename (.single source target) ∧
        (source ≠ target → ¬ (e.substitute ⟨source, target⟩).Refers source) ∧
        (¬ e.Refers target →
          (e.substitute ⟨source, target⟩).substitute ⟨target, source⟩ = e)) ∧
    ∀ s : Statement,
      (s.walk (Substitution.mk source target).statementPass (s.scope?.getD .global)).start ()
          = (s.rename (.single source target), ⟨(), none⟩) ∧
        s.substitute ⟨source, target⟩ = s.rename (.single source target) ∧
        (source ≠ target → ¬ (s.substitute ⟨source, target⟩).Refers source) ∧
        (¬ s.Refers target →
          (s.substitute ⟨source, target⟩).substitute ⟨target, source⟩ = s) := by
  constructor
  · intro e
    have heq := Expr.substitute_eq_rename ⟨source, target⟩ e
    refine ⟨(Expr.yields_walk _ e).start (), heq,
      fun hne => Expr.not_refers_substitute h hne e, fun hnot => ?_⟩
    rw [heq, Expr.substitute_eq_rename, Expr.rename_rename]
    exact Expr.rename_of_fixes fun x hx =>
      Renaming.single_fixes h fun (hxt : x = target) => hnot (hxt ▸ hx)
  · intro s
    have heq := Statement.substitute_eq_rename ⟨source, target⟩ s
    refine ⟨(Statement.yields_substitute _ s).start (), heq,
      fun hne => Statement.not_refers_substitute h hne s, fun hnot => ?_⟩
    rw [heq, Statement.substitute_eq_rename, Statement.rename_rename]
    exact Statement.rename_of_fixes fun x hx =>
      Renaming.single_fixes h fun (hxt : x = target) => hnot (hxt ▸ hx)

/-- The loop `for (int i = 0; i < 10; i += i) { { return i; } }`. -/
def doublingLoop (i : VarId) : Statement :=
  .loop ⟨1⟩ (.declare i (some (.ofValue (.int 0) .none)) .none)
    (.ofExpr (.mkBinary .less (.ofVar i .none) (.ofValue (.int 10) .none)))
    (.ofExpr (.mkBinary .addAssign (.ofVar i .none) (.ofVar i .none)))
    [.block ⟨2⟩ [.return (some (.ofVar i .none)) .none] .none] [] .none

/-- Every use of the counter is replaced, and put back. -/
theorem substitute_renames_doublingLoop :
    (Symbol.variable ⟨0⟩).Alike (.variable ⟨1⟩) ∧
      (doublingLoop ⟨0⟩).substitute ⟨.variable ⟨0⟩, .variable ⟨1⟩⟩ = doublingLoop ⟨1⟩ ∧
      ¬ (doublingLoop ⟨1⟩).Refers (.variable ⟨0⟩) ∧
      (doublingLoop ⟨1⟩).substitute ⟨.variable ⟨1⟩, .variable ⟨0⟩⟩ = doublingLoop ⟨0⟩ := by
  have hthere : (doublingLoop ⟨0⟩).rename (.single (.variable ⟨0⟩) (.variable ⟨1⟩))
      = doublingLoop ⟨1⟩ := by
    cbv
  have hunused : (doublingLoop ⟨0⟩).rename (.single (.variable ⟨1⟩) (.variable ⟨0⟩))
      = doublingLoop ⟨0⟩ := by
    cbv
  obtain ⟨-, heq, hgone, hback⟩ :=
    (substitute_renames (.variable ⟨0⟩ ⟨1⟩)).2 (doublingLoop ⟨0⟩)
  obtain ⟨-, hsame, hfree, -⟩ :=
    (substitute_renames (.variable ⟨1⟩ ⟨0⟩)).2 (doublingLoop ⟨0⟩)
  rw [heq, hthere] at hgone hback
  rw [hsame, hunused] at hfree
  exact ⟨.variable _ _, heq.trans hthere, hgone (by decide), hback (hfree (by decide))⟩

end KernelTree
