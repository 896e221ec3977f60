import KernelTree.Proofs.Loop.Execution

/-!
# Counting the rounds of a loop

A loop whose variable moves by the same distance in every round, and whose check and body depend on
its value only (`Cycle`), runs its body for an arithmetic progression: as far as the check lets the
values pass (`Cycle.executes`), and no run ends otherwise (`Cycle.exists_count`).
-/

namespace KernelTree

variable {μ : Type} {M : Machine μ} {watched : List Statement} {v w : VarId} {l : Loop}
  {P : Int → Prop} {d : Int} {out : Int → List Int} {I : Store μ → Prop}

/-- Between rounds the stores satisfy `I`; a round takes place where `P` holds of the variable `w`
of the loop, moves it by `d`, and runs the watched body for the values `out`. -/
structure Cycle (M : Machine μ) (watched : List Statement) (v : VarId) (l : Loop) (w : VarId)
    (P : Int → Prop) (d : Int) (out : Int → List Int) (I : Store μ → Prop) : Prop where
  check : ∀ s, I s → (M.holds s l.check ↔ P (s.vars w))
  round : ∀ s, I s → P (s.vars w) →
    ∃ s', Executes M watched v (.statements l.body) s (out (s.vars w)) s' ∧
      I (M.perform s' l.update) ∧ (M.perform s' l.update).vars w = s.vars w + d

/-- A value of the rounds from the next one on is the next value of the rounds from here on. -/
theorem add_stride (x d : Int) (k : Nat) : x + d + k * d = x + (k + 1 : Nat) * d := by
  rw [Int.natCast_succ, Int.add_mul, Int.one_mul]
  omega

/-- The first value that the check refuses ends the loop. -/
theorem Cycle.executes (h : Cycle M watched v l w P d out I) {n : Nat} {s : Store μ} (hI : I s)
    (hrun : ∀ k < n, P (s.vars w + k * d)) (hstop : ¬ P (s.vars w + n * d)) :
    ∃ s', Executes M watched v (.rounds l) s
      ((List.range n).flatMap fun k : Nat => out (s.vars w + k * d)) s' ∧ I s' := by
  induction n generalizing s with
  | zero =>
    have hdone : ¬ M.holds s l.check := by
      rw [h.check s hI]
      simpa using hstop
    exact ⟨s, .done hdone, hI⟩
  | succ n ih =>
    have hhere : P (s.vars w) := by simpa using hrun 0 (Nat.succ_pos n)
    obtain ⟨s₁, hbody, hI₁, hmoved⟩ := h.round s hI hhere
    -- What is asked of the rounds from here on is asked of the rounds that are left.
    have hshift (k : Nat) :
        (M.perform s₁ l.update).vars w + k * d = s.vars w + (k + 1 : Nat) * d := by
      rw [hmoved, add_stride]
    obtain ⟨s₂, hrest, hI₂⟩ := ih hI₁
      (fun k hk => by rw [hshift]; exact hrun (k + 1) (Nat.succ_lt_succ hk))
      (by rw [hshift]; exact hstop)
    refine ⟨s₂, ?_, hI₂⟩
    have hround := Executes.round ((h.check s hI).mpr hhere) hbody hrest
    simp only [hshift] at hround
    simpa [List.range_succ_eq_map, List.flatMap_map] using hround

/-- A run that ends has come to a value that the check refuses. -/
theorem Cycle.exists_count (h : Cycle M watched v l w P d out I) {s s' : Store μ} {vs : List Int}
    (hI : I s) (hex : Executes M watched v (.rounds l) s vs s') :
    ∃ n : Nat, (∀ k < n, P (s.vars w + k * d)) ∧ ¬ P (s.vars w + n * d) := by
  generalize htask : Task.rounds l = task at hex
  induction hex with
  | done hcheck =>
    cases htask
    refine ⟨0, fun k hk => absurd hk (Nat.not_lt_zero k), ?_⟩
    rw [h.check _ hI] at hcheck
    simpa using hcheck
  | @round _ s s₁ _ _ _ hcheck hbody _ _ ih =>
    cases htask
    have hhere := (h.check _ hI).mp hcheck
    -- The round that was run is the round that `h` knows, since there is one run at most.
    obtain ⟨s₁', hbody', hI₁, hmoved⟩ := h.round _ hI hhere
    obtain ⟨-, rfl⟩ := hbody.unique hbody'
    obtain ⟨n, hrun, hstop⟩ := ih hI₁ rfl
    have hshift (k : Nat) :
        (M.perform s₁ l.update).vars w + k * d = s.vars w + (k + 1 : Nat) * d := by
      rw [hmoved, add_stride]
    refine ⟨n + 1, fun k hk => ?_, by rw [← hshift]; exact hstop⟩
    cases k with
    | zero => simpa using hhere
    | succ k =>
      rw [← hshift]
      exact hrun k (Nat.lt_of_succ_lt_succ hk)
  | _ => cases htask

end KernelTree
