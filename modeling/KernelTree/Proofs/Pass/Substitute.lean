import KernelTree.Proofs.Expr.Relabel
import KernelTree.Proofs.Pass.Replace

/-!
# One variable for another

A substitution for a variable renames uses of variables only, so it relabels the leaves of an
expression (`Expr.rename_variable`), and an expression that does not mention the variable stays
as it is (`Expr.mapAtoms_of_not_mentions`).
-/

namespace KernelTree

variable {v : VarId} {sub : Substitution}

/-! ### Expressions -/

namespace Expr

/-- Whether a leaf of the expression is a use of the variable. -/
inductive Mentions (v : VarId) : Expr → Prop
  | use {l : Location} : Mentions v (atom (.variable v) l)
  | child {e c : Expr} (hc : c ∈ e.children) (h : Mentions v c) : Mentions v e

/-- What stands in an expression that does not mention a variable does not mention it either. -/
theorem not_mentions_child {e c : Expr} (h : ¬ e.Mentions v) (hc : c ∈ e.children) :
    ¬ c.Mentions v :=
  fun hm => h (.child hc hm)

/-- Relabelling changes nothing where it leaves all leaves alone. -/
theorem mapAtoms_of_not_mentions {f : Atom → Atom} (hf : ∀ a, a ≠ .variable v → f a = a) {e : Expr}
    (h : ¬ e.Mentions v) : e.mapAtoms f = e := by
  induction e using inductionOn with
  | step e ih =>
    cases e with
    | atom a l =>
      rw [mapAtoms_atom, hf a]
      rintro rfl
      exact h .use
    | _ =>
      rw [mapAtoms_eq f (by simp),
        List.map_congr_left fun c hc => ih c hc (not_mentions_child h hc), List.map_id'',
        withChildren_children]
      exact fun _ => rfl

/-- A substitution for a variable leaves all other leaves alone. -/
theorem atom_of_source (hv : sub.source = .variable v) {a : Atom} (ha : a ≠ .variable v) :
    sub.atom a = a := by
  obtain ⟨source, target⟩ := sub
  obtain rfl : source = .variable v := hv
  cases a
  case «variable» id =>
    have hid : id ≠ v := fun h => ha (by rw [h])
    cases target <;> simp [Substitution.atom, Substitution.var, hid]
  all_goals simp [Substitution.atom, Substitution.func, Substitution.type, Substitution.vartype]

/-- A substitution for a variable asks about uses of variables only. -/
theorem accepts_of_source (hv : sub.source = .variable v) {kind : NodeKind} :
    sub.accepts kind = true ↔ kind = .variable := by
  cases kind <;> simp [Substitution.accepts, hv]

/-- Calling one variable as another relabels the leaves. -/
theorem rename_variable (hv : sub.source = .variable v) (e : Expr) :
    e.rename sub.toRenaming = e.mapAtoms sub.atom := by
  induction e using inductionOn with
  | step e ih =>
    rw [← sub.node_withChildren, List.map_congr_left ih]
    cases e with
    | atom a l => rw [mapAtoms_atom]; rfl
    | _ =>
      rw [mapAtoms_eq _ (by simp)]
      refine sub.node_of_not_accepts (mt (accepts_of_source hv).mp ?_)
      rw [kind_withChildren]
      simp [kind]

end Expr

/-! ### Statements -/

namespace Statement

theorem substitute_expression (hv : sub.source = .variable v) (e : Expr) (l : Location) :
    (expression e l).substitute sub = .expression (e.mapAtoms sub.atom) l := by
  rw [substitute_eq_rename, rename, Expr.rename_variable hv]

theorem substitute_declare (hv : sub.source = .variable v) (id : VarId) (e : Expr)
    (l : Location) :
    (declare id (some e) l).substitute sub
      = .declare (sub.var id) (some (e.mapAtoms sub.atom)) l := by
  rw [substitute_eq_rename, declare, rename, List.map_singleton, Declarator.rename,
    ← sub.var_eq, Option.map_some, Expr.rename_variable hv, declare]

end Statement

end KernelTree
