import KernelTree.Loop.Tile
import KernelTree.Proofs.Loop.Execution
import KernelTree.Proofs.Loop.Recognize

/-!
# What loop headers mean

A canonical loop starts its variable with a value, goes on while the variable has not reached a
bound and moves the variable by the same distance each time (`CanonicalLoop.stride`). The comparison
is taken for what it says about the distance that is left (`CanonicalLoop.Admits`).
-/

namespace KernelTree

namespace Machine

variable {μ : Type} (M : Machine μ) (s : Store μ)

/-! ### Values -/

@[simp] theorem value_variable (v : VarId) (l : Location) :
    M.value s (.ofVar v l) = s.vars v := rfl

@[simp] theorem value_mkParens (e : Expr) : M.value s e.mkParens = M.value s e := rfl

/-- Brackets that keep an operand together do not change its value. -/
@[simp] theorem value_wrapped (e : Expr) : M.value s e.wrapped = M.value s e := by
  cases e <;> rfl

@[simp] theorem value_add (a b : Expr) :
    M.value s (.mkBinary .add a b) = M.value s a + M.value s b := rfl

@[simp] theorem value_sub (a b : Expr) :
    M.value s (.mkBinary .sub a b) = M.value s a - M.value s b := rfl

@[simp] theorem value_mul (a b : Expr) :
    M.value s (.mkBinary .mul a b) = M.value s a * M.value s b := rfl

variable {M s} {e : Expr} {v : VarId}

/-- An assignment leaves the values of expressions that do not mention the variable. -/
theorem value_set (h : ¬ e.Mentions v) (s : Store μ) (x : Int) :
    M.value (s.set v x) e = M.value s e := by
  induction e using Expr.inductionOn with
  | step e ih =>
    have hchild {c : Expr} (hc : c ∈ e.children) : M.value (s.set v x) c = M.value s c :=
      ih c hc (Expr.not_mentions_child h hc)
    have hother := M.other_set h s x
    cases e with
    | atom a l =>
      cases a with
      | «variable» w =>
        have hne : w ≠ v := by
          rintro rfl
          exact h .use
        exact s.vars_set_of_ne hne x
      | _ => exact hother
    | parens e l =>
      rw [value, value]
      exact hchild (List.mem_singleton.mpr rfl)
    | binary op a b l =>
      cases op with
      | binary op =>
        cases hop : op.meaning? with
        | none =>
          simp only [value, hop]
          exact hother
        | some f =>
          simp only [value, hop]
          rw [hchild (by simp [Expr.children]), hchild (by simp [Expr.children])]
      | _ => exact hother
    | _ => exact hother

/-- The update of a loop moves its variable by one or by the step, in the direction of the loop. -/
theorem move?_of_updateOf? {op : Operator} {step : Option Expr} {up : Bool}
    (h : CanonicalLoop.updateOf? v e = some (op, step, up)) :
    M.move? s e = some (v, (if up then 1 else -1) * (step.map (M.value s)).getD 1) := by
  unfold CanonicalLoop.updateOf? at h
  split at h
  case h_1 | h_2 =>
    split at h
    case isTrue huse =>
      obtain ⟨use, rfl⟩ := CanonicalLoop.exists_use huse
      obtain ⟨up', hup, hfacts⟩ := Option.map_eq_some_iff.mp h
      obtain ⟨rfl, rfl, rfl⟩ := hfacts
      simp [Expr.ofVar, move?, hup]
    · cases h
  case h_3 | h_4 =>
    split at h
    case isTrue huse =>
      obtain ⟨use, rfl⟩ := CanonicalLoop.exists_use huse
      obtain ⟨rfl, rfl, rfl⟩ := Option.some.inj h
      simp [Expr.ofVar, move?]
    · cases h
  · cases h

end Machine

namespace CanonicalLoop

/-! ### The distance to the bound -/

/-- Whether the values of the variable lie below the bound and not above it. -/
def isBelow (c : CanonicalLoop) : Bool :=
  match c.checkOp with
  | .less => c.boundOnRight
  | .lessEq => c.boundOnRight
  | _ => !c.boundOnRight

/-- How far a value is from the bound, in the direction of the check. -/
def gap (c : CanonicalLoop) (x bound : Int) : Int := if c.isBelow then bound - x else x - bound

/-- The least distance from the bound that the check asks for. -/
def margin (c : CanonicalLoop) : Int := if c.isInclusive then 0 else 1

/-- The check lets a value pass. -/
def Admits (c : CanonicalLoop) (x bound : Int) : Prop := c.margin ≤ c.gap x bound

variable {μ : Type} {M : Machine μ} {s : Store μ} {c : CanonicalLoop}

/-- A comparison by size holds if the loop admits the value, from whichever side it is written. -/
theorem holds_comparison (hordering : c.checkOp.isOrdering) (use bound : Expr)
    (place place' : Location) :
    M.holds s (.expression (.binary (.binary c.checkOp) (if c.boundOnRight then use else bound)
      (if c.boundOnRight then bound else use) place) place') ↔
      c.Admits (M.value s use) (M.value s bound) := by
  obtain ⟨v, init, op, bound', boundOnRight, updateOp, step, countsUp, l⟩ := c
  cases op <;> cases hordering <;> cases boundOnRight <;>
    simp [Machine.holds, Machine.value, BinaryOp.meaning?, Admits, margin, gap, isBelow,
      isInclusive, BinaryOp.isInclusive] <;> omega

/-- How far a move goes in the direction of the check. -/
def toward (c : CanonicalLoop) (d : Int) : Int := if c.isBelow then d else -d

variable {x bound d : Int}

/-- Moving by some steps shortens the way to the bound by as much. -/
theorem gap_add_mul (c : CanonicalLoop) (x bound d k : Int) :
    c.gap (x + k * d) bound = c.gap x bound - k * c.toward d := by
  unfold gap toward
  split
  · omega
  · rw [Int.mul_neg]
    omega

/-- A move from a value that the check lets pass to one that it does not goes towards the bound. -/
theorem toward_pos (h : c.Admits x bound) (h' : ¬ c.Admits (x + d) bound) : 0 < c.toward d := by
  have hgap := c.gap_add_mul x bound d 1
  rw [Int.one_mul, Int.one_mul] at hgap
  simp only [Admits, hgap] at h h'
  omega

/-- Once the check has refused a value it refuses all that follow. -/
theorem admits_iff_lt (hd : 0 < c.toward d) {n : Nat}
    (hrun : ∀ k < n, c.Admits (x + (k : Nat) * d) bound) (hstop : ¬ c.Admits (x + n * d) bound)
    (k : Nat) : c.Admits (x + k * d) bound ↔ k < n := by
  refine ⟨fun hk => ?_, hrun k⟩
  -- The gap only shrinks, so a check that lets a later value pass would not have refused this one.
  refine Decidable.byContradiction fun hle => hstop ?_
  have hmul : (n : Int) * c.toward d ≤ k * c.toward d :=
    Int.mul_le_mul_of_nonneg_right (by omega) (by omega)
  simp only [Admits, gap_add_mul] at hk ⊢
  omega

/-- How many rounds take place up to a bound that lies `size` moves ahead. -/
def roundsUpTo (c : CanonicalLoop) (size : Nat) : Nat := if c.isInclusive then size + 1 else size

/-- Within one extent, the inner check admits as many rounds as the extent has, and one more if it
lets the bound in. -/
theorem admits_iff_lt_roundsUpTo (hd : 0 < c.toward d) (i size : Nat) :
    c.Admits (x + i * d) (x + size * d) ↔ i < c.roundsUpTo size := by
  have hgap : c.gap (x + i * d) (x + size * d) = (size - i) * c.toward d := by
    have h := c.gap_add_mul x (x + size * d) d i
    have h' : c.gap x (x + size * d) = size * c.toward d := by
      unfold gap toward
      split
      · omega
      · rw [Int.mul_neg]
        omega
    rw [h, h', Int.sub_mul]
  simp only [Admits, hgap, margin, roundsUpTo]
  split
  · refine ⟨fun h => ?_, fun h => Int.mul_nonneg (by omega) (by omega)⟩
    have := Int.nonneg_of_mul_nonneg_left h hd
    omega
  · refine ⟨fun h => ?_, fun h => Int.mul_pos (by omega) hd⟩
    have := Int.pos_of_mul_pos_left h (by omega)
    omega

/-- How far one update moves the variable. -/
def stride (c : CanonicalLoop) (M : Machine μ) (s : Store μ) : Int :=
  (if c.countsUp then 1 else -1) * (c.step.map (M.value s)).getD 1

end CanonicalLoop

end KernelTree
