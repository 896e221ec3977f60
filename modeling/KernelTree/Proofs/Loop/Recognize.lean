import KernelTree.Loop.Canonical

/-!
# What a canonical loop looks like

The facts of a recognized loop say how its header is written, up to places
(`CanonicalLoop.describes_of_recognize`).
-/

namespace KernelTree

namespace CanonicalLoop

variable {t : SymbolTable} {l : Loop} {c : CanonicalLoop}

/-- What counts as a use of the variable is a leaf that names it. -/
theorem exists_use {v : VarId} {e : Expr} (h : isUse v e) : ∃ l, e = .ofVar v l := by
  unfold isUse at h
  split at h
  · exact ⟨_, by rw [of_decide_eq_true h]; rfl⟩
  · cases h

/-- The start of the loop declares its variable, and nothing else, with a value. -/
theorem initFacts_ok {init : Statement} {v : VarId} {e : Expr}
    (h : initFacts t init = .ok (v, e)) : ∃ place, init = .declare v (some e) place := by
  cases init with
  | declaration ds place =>
    obtain _ | ⟨⟨w, value⟩, _ | ⟨extra, rest⟩⟩ := ds
    · cases h
    · simp only [initFacts] at h
      split at h
      · cases h
      · cases value with
        | none => cases h
        | some value =>
          obtain ⟨rfl, rfl⟩ : w = v ∧ value = e := by simpa using h
          exact ⟨place, rfl⟩
    · cases h
  | _ => cases h

/-- The check compares by size, with the variable on one side; where it stands on both, the left one
is taken for it. -/
theorem checkFacts_ok {v : VarId} {check : Statement} {op : BinaryOp} {bound : Expr}
    {boundOnRight : Bool} (h : checkFacts v check = .ok (op, bound, boundOnRight)) :
    op.isOrdering ∧ ∃ use place place', check = .expression (.binary (.binary op)
      (if boundOnRight then .ofVar v use else bound)
      (if boundOnRight then bound else .ofVar v use) place) place' := by
  unfold checkFacts at h
  split at h
  case h_1 op' left right place place' =>
    split at h
    · cases h
    case isFalse hop =>
      have hop : op'.isOrdering := by simpa using hop
      split at h
      case isTrue huse =>
        obtain ⟨use, rfl⟩ := exists_use huse
        obtain ⟨rfl, rfl, rfl⟩ : op' = op ∧ right = bound ∧ true = boundOnRight := by
          simpa using h
        exact ⟨hop, use, place, place', rfl⟩
      · -- Only where the variable is not on the left is the right side looked at.
        split at h
        case isTrue huse =>
          obtain ⟨use, rfl⟩ := exists_use huse
          obtain ⟨rfl, rfl, rfl⟩ : op' = op ∧ left = bound ∧ false = boundOnRight := by
            simpa using h
          exact ⟨hop, use, place, place', rfl⟩
        · cases h
  · cases h
  · cases h

/-- The update is an expression that moves the variable. -/
theorem updateFacts_ok {v : VarId} {update : Statement} {facts : Operator × Option Expr × Bool}
    (h : updateFacts v update = .ok facts) :
    ∃ e place, update = .expression e place ∧ updateOf? v e = some facts := by
  unfold updateFacts at h
  split at h
  case h_1 e place =>
    cases he : updateOf? v e with
    | none => rw [he] at h; cases h
    | some facts' =>
      rw [he] at h
      obtain rfl := Except.ok.inj h
      exact ⟨e, place, rfl, he⟩
  · cases h

/-- What a loop looks like that is recognized. -/
structure Describes (c : CanonicalLoop) (l : Loop) : Prop where
  init : ∃ place, l.init = .declare c.iterator (some c.init) place
  ordering : c.checkOp.isOrdering
  check : ∃ use place place', l.check = .expression (.binary (.binary c.checkOp)
    (if c.boundOnRight then .ofVar c.iterator use else c.bound)
    (if c.boundOnRight then c.bound else .ofVar c.iterator use) place) place'
  update : ∃ e place, l.update = .expression e place ∧
    updateOf? c.iterator e = some (c.updateOp, c.step, c.countsUp)

/-- A loop that is recognized is written as its facts say: each of the three parts of the header is
read on its own, for the variable that the first one declares. -/
theorem describes_of_recognize (h : recognize t l = .ok c) : c.Describes l := by
  unfold recognize at h
  cases hinit : initFacts t l.init with
  | error f => rw [hinit] at h; cases h
  | ok facts =>
    obtain ⟨v, init⟩ := facts
    rw [hinit] at h
    simp only [bind, Except.bind] at h
    cases hcheck : checkFacts v l.check with
    | error f => rw [hcheck] at h; cases h
    | ok facts =>
      obtain ⟨op, bound, boundOnRight⟩ := facts
      rw [hcheck] at h
      simp only at h
      cases hupdate : updateFacts v l.update with
      | error f => rw [hupdate] at h; cases h
      | ok facts =>
        rw [hupdate] at h
        obtain rfl := Except.ok.inj h
        obtain ⟨hordering, hcheck⟩ := checkFacts_ok hcheck
        exact ⟨initFacts_ok hinit, hordering, hcheck, updateFacts_ok hupdate⟩

end CanonicalLoop

end KernelTree
