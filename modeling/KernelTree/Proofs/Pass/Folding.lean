import Mathlib
import KernelTree.Pass
import KernelTree.Proofs.Expr.Fold

/-!
# Folding some of the nodes

Whether an expression is constant in form, and what it is folded to, depends on its parts only by
whether they are constant in form and what they are folded to (`Expr.SameConstant.withChildren`). A
pass that puts values in the place of some nodes, whichever it likes, therefore leaves the value of
the whole expression alone (`Expr.evaluate_walk`).
-/

namespace KernelTree

variable {σ ε : Type}

namespace Expr

/-- Two expressions are constant in form or not, and if they are, they have the same value. -/
structure SameConstant (a b : Expr) : Prop where
  form : a.canEvaluate = b.canEvaluate
  value : a.canEvaluate = true → a.fold = b.fold

namespace SameConstant

variable {a a' b b' c c' e : Expr} {l : Location}

/-- A tree is the same constant as itself. -/
theorem refl (e : Expr) : e.SameConstant e := ⟨rfl, fun _ => rfl⟩

/-- Being the same constant is transitive. -/
theorem trans (h : a.SameConstant b) (h' : b.SameConstant c) : a.SameConstant c where
  form := h.form.trans h'.form
  value ha := (h.value ha).trans (h'.value (h.form ▸ ha))

/-- The same constants have the same value. -/
theorem evaluate_eq (h : a.SameConstant b) : a.evaluate = b.evaluate := by
  rw [evaluate, evaluate, ← h.form]
  split
  · exact h.value (by assumption)
  · rfl

/-- Expressions that are not constant in form have no value that could differ. -/
theorem of_not_canEvaluate (ha : a.canEvaluate = false) (hb : b.canEvaluate = false) :
    a.SameConstant b :=
  ⟨ha.trans hb.symm, fun h => absurd (ha.symm.trans h) Bool.false_ne_true⟩

/-- The value of a constant stands for it. -/
theorem ofValue (h : e.canEvaluate = true) (l : Location) :
    e.SameConstant (.ofValue e.evaluate l) where
  form := h
  value _ := by
    rw [evaluate, if_pos h]
    rfl

/-! ### The nodes that compute -/

/-- A prefix operator on the same constants gives the same. -/
theorem prefixed (h : a.SameConstant b) (op : Operator) :
    (Expr.prefixed op a l).SameConstant (.prefixed op b l) where
  form := by rw [canEvaluate, canEvaluate, h.form]
  value hop := by
    rw [canEvaluate, Bool.and_eq_true] at hop
    rw [fold, fold, h.value hop.2]

/-- A postfix operator on the same constants gives the same. -/
theorem postfixed (h : a.SameConstant b) (op : Operator) :
    (Expr.postfixed op a l).SameConstant (.postfixed op b l) where
  form := by rw [canEvaluate, canEvaluate, h.form]
  value hop := by
    rw [canEvaluate, Bool.and_eq_true] at hop
    rw [fold, fold, h.value hop.2]

/-- Brackets around the same constants give the same. -/
theorem parens (h : a.SameConstant b) : (Expr.parens a l).SameConstant (.parens b l) where
  form := h.form
  value ha := h.value ha

/-- Measuring the same constants gives the same. -/
theorem sizeof (h : a.SameConstant b) : (Expr.sizeof a l).SameConstant (.sizeof b l) where
  form := h.form
  value ha := by rw [fold, fold, h.value ha]

/-- The sides of an operator have to be constant even where a short circuit decides. -/
theorem binary (h : a.SameConstant a') (h' : b.SameConstant b') (op : Operator) :
    (Expr.binary op a b l).SameConstant (.binary op a' b' l) where
  form := by rw [canEvaluate, canEvaluate, h.form, h'.form]
  value hop := by
    rw [canEvaluate, Bool.and_eq_true, Bool.and_eq_true] at hop
    rw [fold_binary_eq, fold_binary_eq, h.value hop.1.2, h'.value hop.2]

/-- A conditional of the same constants gives the same: only the branch that is chosen is asked. -/
theorem ternary (hc : c.SameConstant c') (h : a.SameConstant a') (h' : b.SameConstant b') :
    (Expr.ternary c a b l).SameConstant (.ternary c' a' b' l) where
  form := by rw [canEvaluate, canEvaluate, hc.form, h.form, h'.form]
  value hall := by
    rw [canEvaluate, Bool.and_eq_true, Bool.and_eq_true] at hall
    rw [fold_ternary_eq, fold_ternary_eq, hc.value hall.1.1, h.value hall.1.2, h'.value hall.2]

/-- Parts that are the same constants make the same constant. -/
theorem withChildren {cs : List Expr} (h : List.Forall₂ SameConstant e.children cs) :
    e.SameConstant (e.withChildren cs) := by
  cases e with
  | empty | atom => exact .refl _
  | prefixed op a =>
    obtain _ | ⟨ha, ⟨⟩⟩ := h
    exact ha.prefixed op
  | postfixed op a =>
    obtain _ | ⟨ha, ⟨⟩⟩ := h
    exact ha.postfixed op
  | parens a =>
    obtain _ | ⟨ha, ⟨⟩⟩ := h
    exact ha.parens
  | sizeof a =>
    obtain _ | ⟨ha, ⟨⟩⟩ := h
    exact ha.sizeof
  | binary op a b =>
    obtain _ | ⟨ha, _ | ⟨hb, ⟨⟩⟩⟩ := h
    exact ha.binary hb op
  | ternary c a b =>
    obtain _ | ⟨hc, _ | ⟨ha, _ | ⟨hb, ⟨⟩⟩⟩⟩ := h
    exact hc.ternary ha hb
  -- The rest cannot be evaluated, whatever is in it.
  | pair | delete | throw | cast =>
    obtain _ | ⟨-, ⟨⟩⟩ := h
    exact .of_not_canEvaluate rfl rfl
  | subscript | new =>
    obtain _ | ⟨-, _ | ⟨-, ⟨⟩⟩⟩ := h
    exact .of_not_canEvaluate rfl rfl
  | launch =>
    obtain _ | ⟨-, _ | ⟨-, _ | ⟨-, ⟨⟩⟩⟩⟩ := h
    exact .of_not_canEvaluate rfl rfl
  | call =>
    obtain _ | ⟨-, -⟩ := h
    exact .of_not_canEvaluate rfl rfl
  | tuple => exact .of_not_canEvaluate rfl rfl

end SameConstant

/-- An answer that folds the node or keeps it. -/
inductive FoldedBy (e : Expr) : Verdict Expr → Prop
  | keep : FoldedBy e .keep
  | value (h : e.canEvaluate = true) (l : Location) : FoldedBy e (.replace (.ofValue e.evaluate l))

/-- An answer that folds puts the same constant in the place of the node. -/
theorem FoldedBy.settled {e : Expr} {v : Verdict Expr} (h : e.FoldedBy v) :
    e.SameConstant (e.settled v) := by
  cases h with
  | keep => exact .refl e
  | value he l => exact .ofValue he l

end Expr

/-- The pass folds some of the nodes that it is asked about and keeps the others. Which ones it
folds may depend on its state, and it may give up. -/
def ExprPass.Folds (pass : ExprPass σ ε) : Prop :=
  ∀ e s v s', pass.visit e s = (.ok v, s') → e.FoldedBy v

namespace Walk

variable {α β : Type}

/-- A list is walked element by element, from any state. -/
theorem forall₂_mapM {R : α → β → Prop} {l : List α} {w : α → Walk σ ε β}
    (h : ∀ a ∈ l, ∀ p, R a ((w a).run p).1) (p : Progress σ ε) :
    List.Forall₂ R l ((l.mapM w).run p).1 := by
  induction l generalizing p with
  | nil => exact .nil
  | cons a l ih =>
    obtain ⟨ha, hl⟩ := List.forall_mem_cons.mp h
    rw [List.mapM_cons]
    exact .cons (ha p) (ih hl _)

/-- What is asked comes to an answer that the pass gives, or to the other one. -/
theorem ask_cases {question : σ → Except ε α × σ} {otherwise : α} {P : α → Prop}
    (hok : ∀ s a s', question s = (.ok a, s') → P a) (hotherwise : P otherwise)
    (p : Progress σ ε) : P ((ask question otherwise).run p).1 := by
  show P (ask question otherwise p).1
  unfold ask
  split
  · exact hotherwise
  · split
    · exact hok _ _ _ (by assumption)
    · exact hotherwise

end Walk

namespace Expr

variable {pass : ExprPass σ ε}

/-- Asking about a node leaves the same constant, whether it is asked or not and also behind a
failure. -/
theorem sameConstant_visit (hpass : pass.Folds) (e : Expr) (p : Progress σ ε) :
    e.SameConstant ((e.visit pass).run p).1 := by
  unfold visit
  split
  · have hanswer := Walk.ask_cases (hpass e) .keep p
    exact hanswer.settled
  · exact .refl e

/-- By induction over the tree: the walk leaves the same constant. -/
theorem sameConstant_walk (hpass : pass.Folds) (e : Expr) (p : Progress σ ε) :
    e.SameConstant ((e.walk pass).run p).1 := by
  induction e using inductionOn generalizing p with
  | step e ih =>
    rw [walk, List.mapM_subtype (g := walk pass) fun _ _ => rfl, List.unattach_attach]
    -- The node that is asked about has other parts than the expression, but the same constants.
    have hparts := Walk.forall₂_mapM ih p
    exact (SameConstant.withChildren hparts).trans (sameConstant_visit hpass _ _)

/-- **Folding parts leaves the value alone.** If a pass puts the values of some nodes that are
constant in form in their places, undefined values included, and keeps all others, the expression
is constant in form as it was and has the value that it had. -/
theorem evaluate_walk (hpass : pass.Folds) (e : Expr) (s : σ) :
    ((e.walk pass).start s).1.canEvaluate = e.canEvaluate ∧
      ((e.walk pass).start s).1.evaluate = e.evaluate := by
  have hsame := sameConstant_walk hpass e ⟨s, none⟩
  exact ⟨hsame.form.symm, hsame.evaluate_eq.symm⟩

/-- The pass that folds every other binary node with a value. -/
def everyOther : ExprPass Bool Empty where
  accepts kind := kind = .binary
  visit e s :=
    (.ok (if s && e.canEvaluate then .replace (.ofValue e.evaluate e.location) else .keep), !s)

/-- The pass folds, whatever it has counted. -/
theorem folds_everyOther : everyOther.Folds := by
  rintro e s v s' h
  obtain ⟨hv, -⟩ := Prod.mk.inj h
  obtain rfl := Except.ok.inj hv
  split
  case isTrue hfold => exact .value (Bool.and_eq_true_iff.mp hfold).2 _
  case isFalse => exact .keep

/-- The conjunction `0 && 1 / 0`, with a quotient that has no value. -/
def decidedConjunction : Expr :=
  mkBinary .and (intAt 0 1) (mkBinary .div (intAt 1 6) (intAt 0 10))

/-- The quotient is put down as undefined, and the conjunction stays false. -/
theorem evaluate_walk_everyOther :
    everyOther.Folds ∧
      ((decidedConjunction.walk everyOther).start true).1
        = mkBinary .and (intAt 0 1) (.ofValue .undefined ⟨1, 6⟩) ∧
      ((decidedConjunction.walk everyOther).start true).1.canEvaluate = true ∧
      ((decidedConjunction.walk everyOther).start true).1.evaluate = .bool false := by
  obtain ⟨hform, hvalue⟩ := evaluate_walk folds_everyOther decidedConjunction true
  exact ⟨folds_everyOther, by cbv, hform.trans rfl, hvalue.trans rfl⟩

end Expr

end KernelTree
