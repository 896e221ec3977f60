import KernelTree.Proofs.Expr.Fold
import KernelTree.Proofs.Loop.Trace
import KernelTree.Proofs.Value.Width

/-!
# Loops from constant to constant

A loop that moves its variable from a constant in constant steps can be run by folding: the variable
holds a constant, the check is folded with that constant in the place of the variable, and the
update computes the next one (`Loop.value?`). The number of rounds and the values are what
`CanonicalLoop.iterationCount` and `CanonicalLoop.valueAfter` fold to, if the loop runs towards its
bound and all numbers leave room for the sums on the way (`CanonicalLoop.enumerates_constants`).
-/

namespace KernelTree

/-! ### Expressions that fold to integers -/

/-- The leaf with a constant in the place of a variable. -/
def Atom.instantiate (v : VarId) (x : Value) : Atom → Atom
  | .variable w => if w = v then .value x else .variable w
  | a => a

namespace Expr

/-- The integer that an expression folds to. -/
def integer? (e : Expr) : Option Int := e.evaluate.integer?

/-- The expression with a constant in the place of a variable. -/
def instantiate (v : VarId) (x : Value) (e : Expr) : Expr := e.mapAtoms (Atom.instantiate v x)

variable {e a b : Expr} {v : VarId} {x y : Int}

theorem canEvaluate_of_integer? (h : e.integer? = some x) : e.canEvaluate = true := by
  unfold integer? evaluate at h
  split at h
  · assumption
  · cases h

@[simp] theorem integer?_wrapped (e : Expr) : e.wrapped.integer? = e.integer? := by
  cases e <;> rfl

theorem canEvaluate_children (h : e.canEvaluate = true) :
    ∀ c ∈ e.children, c.canEvaluate = true := by
  cases e with
  | atom => exact List.forall_mem_nil _
  | parens v l | sizeof v l => exact List.forall_mem_singleton.mpr h
  | prefixed op v l | postfixed op v l =>
    rw [canEvaluate, Bool.and_eq_true] at h
    exact List.forall_mem_singleton.mpr h.2
  | binary op a b l =>
    rw [canEvaluate, Bool.and_eq_true, Bool.and_eq_true] at h
    exact List.forall_mem_cons.mpr ⟨h.1.2, List.forall_mem_singleton.mpr h.2⟩
  | ternary a b c l =>
    rw [canEvaluate, Bool.and_eq_true, Bool.and_eq_true] at h
    exact List.forall_mem_cons.mpr ⟨h.1.1, List.forall_mem_cons.mpr
      ⟨h.1.2, List.forall_mem_singleton.mpr h.2⟩⟩
  | _ => cases h

/-- An expression that is constant in form mentions no variable. -/
theorem not_mentions_of_canEvaluate (h : e.canEvaluate = true) (v : VarId) : ¬ e.Mentions v := by
  intro hm
  induction hm with
  | use => cases h
  | child hc _ ih => exact ih (canEvaluate_children h _ hc)

@[simp] theorem instantiate_ofVar (v : VarId) (w : Value) (l : Location) :
    (ofVar v l).instantiate v w = ofValue w l := by
  simp [instantiate, ofVar, ofValue, Atom.instantiate]

@[simp] theorem instantiate_binary (v : VarId) (w : Value) (op : Operator) (a b : Expr)
    (l : Location) : (binary op a b l).instantiate v w
      = binary op (a.instantiate v w) (b.instantiate v w) l :=
  mapAtoms_binary _ op a b l

theorem instantiate_of_canEvaluate (h : e.canEvaluate = true) (w : Value) :
    e.instantiate v w = e := by
  refine mapAtoms_of_not_mentions (v := v) (fun a ha => ?_) (not_mentions_of_canEvaluate h v)
  cases a with
  | «variable» u => exact if_neg fun huv => ha (congrArg Atom.variable huv)
  | _ => rfl

/-- A strict operator computes on the values of its operands. -/
theorem evaluate_binary {op : BinaryOp} (hop : (Operator.binary op).canEvaluate = true)
    (hand : op ≠ .and) (hor : op ≠ .or) (ha : a.canEvaluate = true) (hb : b.canEvaluate = true)
    (l : Location) : (binary (.binary op) a b l).evaluate
      = (Operator.binary op).evaluateBinary a.evaluate b.evaluate := by
  have hform : (binary (.binary op) a b l).canEvaluate = true := by simp [canEvaluate, hop, ha, hb]
  rw [evaluate, if_pos hform, fold_binary hand hor, evaluate, if_pos ha, evaluate, if_pos hb]

section

variable (ha : a.integer? = some x) (hb : b.integer? = some y)
include ha hb

theorem integer?_add (hz : FitsInt (x + y)) :
    (mkBinary .add a b).integer? = some (x + y) := by
  rw [integer?, mkBinary, evaluate_binary rfl (by decide) (by decide) (canEvaluate_of_integer? ha)
    (canEvaluate_of_integer? hb)]
  exact Value.integer?_add ha hb hz

theorem integer?_sub (hz : FitsInt (x - y)) :
    (mkBinary .sub a b).integer? = some (x - y) := by
  rw [integer?, mkBinary, evaluate_binary rfl (by decide) (by decide) (canEvaluate_of_integer? ha)
    (canEvaluate_of_integer? hb)]
  exact Value.integer?_sub ha hb hz

theorem integer?_mul (hz : FitsInt (x * y)) :
    (mkBinary .mul a b).integer? = some (x * y) := by
  rw [integer?, mkBinary, evaluate_binary rfl (by decide) (by decide) (canEvaluate_of_integer? ha)
    (canEvaluate_of_integer? hb)]
  exact Value.integer?_mul ha hb hz

theorem integer?_div (hy : y ≠ 0) (hz : FitsInt (x.tdiv y)) :
    (mkBinary .div a b).integer? = some (x.tdiv y) := by
  rw [integer?, mkBinary, evaluate_binary rfl (by decide) (by decide) (canEvaluate_of_integer? ha)
    (canEvaluate_of_integer? hb)]
  exact Value.integer?_div ha hb hy hz

end

/-- The constant that the update of a loop makes of another one. -/
def moved? (v : VarId) (x : Value) : Expr → Option Value
  | prefixed op u _ =>
    if CanonicalLoop.isUse v u then
      (CanonicalLoop.stepOperator? op).map fun up => if up then x.increment else x.decrement
    else none
  | postfixed op u _ =>
    if CanonicalLoop.isUse v u then
      (CanonicalLoop.stepOperator? op).map fun up => if up then x.increment else x.decrement
    else none
  | binary (.binary .addAssign) u step _ =>
    if CanonicalLoop.isUse v u then some (x.add (step.instantiate v x).evaluate) else none
  | binary (.binary .subAssign) u step _ =>
    if CanonicalLoop.isUse v u then some (x.sub (step.instantiate v x).evaluate) else none
  | _ => none

end Expr

/-! ### Running a loop by folding -/

namespace Loop

/-- The constant that the variable of the loop starts with. -/
def start? (l : Loop) (v : VarId) : Option Value :=
  match l.init with
  | .declaration [⟨w, some e⟩] _ => if w = v then some e.evaluate else none
  | _ => none

/-- Whether the check folds to true for a constant in the place of the variable. -/
def passes (l : Loop) (v : VarId) (x : Value) : Bool :=
  match l.check with
  | .expression e _ => (e.instantiate v x).evaluate.toBool? = some true
  | _ => false

/-- The constant that the variable holds after the update. -/
def next? (l : Loop) (v : VarId) (x : Value) : Option Value :=
  match l.update with
  | .expression e _ => e.moved? v x
  | _ => none

/-- The constant that the variable holds after `k` rounds, if there are as many. -/
def value? (l : Loop) (v : VarId) : Nat → Option Value
  | 0 => l.start? v
  | k + 1 => (l.value? v k).bind fun x => if l.passes v x then l.next? v x else none

/-- The loop stops after just `n` rounds. -/
def Rounds (l : Loop) (v : VarId) (n : Nat) : Prop :=
  ∃ x, l.value? v n = some x ∧ l.passes v x = false

end Loop

namespace CanonicalLoop

variable {t : SymbolTable} {l : Loop} {c : CanonicalLoop} {a b d i : Int} {x : Value}

/-- The step as an integer; one where none is written. -/
def stepSize? (c : CanonicalLoop) : Option Int :=
  match c.step with
  | none => some 1
  | some step => step.integer?

/-! ### One round -/

/-- What a comparison by size says about integers. -/
def compares (op : BinaryOp) (y z : Int) : Bool :=
  match op with
  | .less => y < z
  | .lessEq => y ≤ z
  | .greater => z < y
  | _ => z ≤ y

/-- The comparison of a loop asks for the distance that its facts ask for. -/
theorem compares_iff_admits (hordering : c.checkOp.isOrdering) (i b : Int) :
    compares c.checkOp (if c.boundOnRight then i else b) (if c.boundOnRight then b else i)
      ↔ c.Admits i b := by
  obtain ⟨v, init, op, bound, boundOnRight, updateOp, step, countsUp, place⟩ := c
  cases op <;> cases hordering <;> cases boundOnRight <;>
    simp [compares, Admits, margin, gap, isBelow, isInclusive, BinaryOp.isInclusive] <;> omega

variable {left right : Expr} {y z : Int} {op : BinaryOp}

theorem evaluate_comparison (hop : op.isOrdering) (hleft : left.integer? = some y)
    (hright : right.integer? = some z) (place : Location) :
    (Expr.binary (.binary op) left right place).evaluate = .bool (compares op y z) := by
  have hform : (Operator.binary op).canEvaluate = true := by
    cases op <;> first | rfl | cases hop
  rw [Expr.evaluate_binary hform (by rintro rfl; cases hop) (by rintro rfl; cases hop)
    (Expr.canEvaluate_of_integer? hleft) (Expr.canEvaluate_of_integer? hright)]
  cases op <;> cases hop
  all_goals
    refine Value.compare_of_integer? hleft hright fun m n hm hn => ?_
    simp only [Int64.lt_iff_toInt_lt, Int64.le_iff_toInt_le, hm, hn, compares]

/-- The check passes the values that the facts of the loop admit. -/
theorem passes_iff (hd : c.Describes l) (hbound : c.bound.integer? = some b)
    (hx : x.integer? = some i) : l.passes c.iterator x ↔ c.Admits i b := by
  obtain ⟨use, place, place', hcheck⟩ := hd.check
  have hmap : c.bound.instantiate c.iterator x = c.bound :=
    Expr.instantiate_of_canEvaluate (Expr.canEvaluate_of_integer? hbound) x
  have huse : (Expr.ofValue x use).integer? = some i := hx
  have hvalue : ((Expr.binary (.binary c.checkOp)
      (if c.boundOnRight then .ofVar c.iterator use else c.bound)
      (if c.boundOnRight then c.bound else .ofVar c.iterator use) place).instantiate
        c.iterator x).evaluate
      = .bool (compares c.checkOp (if c.boundOnRight then i else b)
          (if c.boundOnRight then b else i)) := by
    by_cases hside : c.boundOnRight
    · simp only [hside, if_true, Expr.instantiate_binary, Expr.instantiate_ofVar, hmap]
      exact evaluate_comparison hd.ordering huse hbound place
    · simp only [hside, Bool.false_eq_true, if_false, Expr.instantiate_binary,
        Expr.instantiate_ofVar, hmap]
      exact evaluate_comparison hd.ordering hbound huse place
  simp only [Loop.passes, hcheck, hvalue, ← compares_iff_admits hd.ordering]
  simp [Value.toBool?]

/-- How far one update moves the variable, with the step as an integer. -/
def move (c : CanonicalLoop) (d : Int) : Int := if c.countsUp then d else -d

/-- An update by one or by a constant step, up or down. -/
theorem moved?_of_updateOf? {v : VarId} {e : Expr} {op : Operator} {step : Option Expr} {up : Bool}
    (h : updateOf? v e = some (op, step, up))
    (hstep : ∀ s ∈ step, s.canEvaluate = true) :
    e.moved? v x = some ((if up then Value.add else Value.sub) x
      ((step.map Expr.evaluate).getD (.int 1))) := by
  unfold updateOf? at h
  split at h
  case h_1 | h_2 =>
    split at h
    case isTrue huse =>
      obtain ⟨up', hup, hfacts⟩ := Option.map_eq_some_iff.mp h
      obtain ⟨rfl, rfl, rfl⟩ := hfacts
      rw [Expr.moved?, if_pos huse, hup]
      cases up <;> rfl
    · cases h
  case h_3 | h_4 =>
    split at h
    case isTrue huse =>
      obtain ⟨rfl, rfl, rfl⟩ := Option.some.inj h
      rw [Expr.moved?, if_pos huse, Expr.instantiate_of_canEvaluate (hstep _ rfl)]
      rfl
    · cases h
  · cases h

/-- The update of a canonical loop moves the variable by the step. -/
theorem next?_eq (hd : c.Describes l) (hstep : c.stepSize? = some d) (hx : x.integer? = some i)
    (hz : FitsInt (i + c.move d)) :
    ∃ y, l.next? c.iterator x = some y ∧ y.integer? = some (i + c.move d) := by
  obtain ⟨e, place, hupdate, hfacts⟩ := hd.update
  have hvalue : ((c.step.map Expr.evaluate).getD (.int 1)).integer? = some d := by
    unfold stepSize? at hstep
    split at hstep <;> simp_all [Value.integer?, Expr.integer?]
  have hform : ∀ s ∈ c.step, s.canEvaluate = true := by
    intro s hs
    rw [stepSize?, hs] at hstep
    exact Expr.canEvaluate_of_integer? hstep
  rw [Loop.next?, hupdate]
  refine ⟨_, moved?_of_updateOf? hfacts hform, ?_⟩
  unfold move at hz ⊢
  cases hup : c.countsUp with
  | true =>
    rw [hup] at hz
    exact Value.integer?_add hx hvalue hz
  | false =>
    rw [hup] at hz
    exact Value.integer?_sub hx hvalue hz

/-! ### All rounds -/

/-- How many values from `a` on the check lets pass, if every update moves the variable by `d`
towards the bound. -/
def roundCount (c : CanonicalLoop) (a b d : Int) : Nat := ((c.gap a b - c.margin + d) / d).toNat

@[simp] theorem integer?_one (c : CanonicalLoop) : c.one.integer? = some 1 := rfl

/-- The distance from the first value to the bound. -/
def distance (c : CanonicalLoop) : Expr :=
  if c.countsUp then .mkBinary .sub c.bound.wrapped c.init.wrapped
  else .mkBinary .sub c.init.wrapped c.bound.wrapped

/-- The distance, one more if the bound is among the values. -/
def width (c : CanonicalLoop) : Expr :=
  if c.isInclusive then .mkBinary .add c.distance c.one else c.distance

theorem iterationCount_eq (c : CanonicalLoop) :
    c.iterationCount = match c.step with
      | none => c.width
      | some step => .mkBinary .div
          (Expr.mkBinary .sub (.mkBinary .add c.width step.wrapped) c.one).mkParens
          step.wrapped := rfl

/-- The loop runs towards its bound in steps of `d`, and the numbers in its header leave room for
the sums that are made of them. -/
structure Approaches (c : CanonicalLoop) (a b d : Int) : Prop where
  init : c.init.integer? = some a
  bound : c.bound.integer? = some b
  step : c.stepSize? = some d
  pos : 1 ≤ d
  small : a.natAbs < 2 ^ 29 ∧ b.natAbs < 2 ^ 29 ∧ d.natAbs < 2 ^ 29
  direction : c.isBelow = c.countsUp
  start : c.Admits a b

namespace Approaches

variable (h : c.Approaches a b d)
include h

theorem toward_move : c.toward (c.move d) = d := by
  unfold toward move
  rw [h.direction]
  split <;> omega

theorem admits_iff (k : Nat) : c.Admits (a + k * c.move d) b ↔ k < c.roundCount a b d := by
  have hpos := h.pos
  have hstart := h.start
  have hcount : (k : Int) + 1 ≤ (c.gap a b - c.margin + d) / d ↔ k * d ≤ c.gap a b - c.margin := by
    rw [Int.le_ediv_iff_mul_le (by omega), Int.add_mul]
    omega
  have hlt : k < c.roundCount a b d ↔ (k : Int) + 1 ≤ (c.gap a b - c.margin + d) / d := by
    unfold roundCount
    omega
  rw [hlt, hcount, Admits, gap_add_mul, h.toward_move]
  omega

/-- The last update goes past the bound by less than a step. -/
theorem mul_le {k : Nat} (hk : k ≤ c.roundCount a b d) : k * d ≤ c.gap a b - c.margin + d := by
  have hpos := h.pos
  cases k with
  | zero =>
    have hstart := h.start
    unfold Admits at hstart
    omega
  | succ k =>
    have hadmits := (h.admits_iff k).mpr hk
    rw [Admits, gap_add_mul, h.toward_move] at hadmits
    rw [Int.natCast_succ, Int.add_mul]
    omega

/-- All values of the loop are in range, the one that it stops at as well. -/
theorem fits {k : Nat} (hk : k ≤ c.roundCount a b d) :
    FitsInt (k * d) ∧ FitsInt (a + k * c.move d) := by
  have hpos := h.pos
  have hsmall := h.small
  have hdir := h.direction
  have hmul := h.mul_le hk
  have hnonneg : 0 ≤ (k : Int) * d := Int.mul_nonneg (Int.natCast_nonneg k) (by omega)
  have hmove : k * c.move d = if c.countsUp then k * d else -(k * d) := by
    unfold move
    split
    · rfl
    · exact Int.mul_neg _ _
  have hmargin : 0 ≤ c.margin := by
    unfold margin
    split <;> omega
  rw [hmove]
  unfold gap at hmul
  rw [hdir] at hmul
  generalize (k : Int) * d = p at hmul hnonneg ⊢
  unfold FitsInt
  by_cases hup : c.countsUp <;> simp only [hup, if_true, Bool.false_eq_true, if_false] at hmul ⊢ <;>
    omega

/-- The constants that the variable holds, round by round. -/
theorem value?_eq (hd : c.Describes l) {k : Nat} (hk : k ≤ c.roundCount a b d) :
    ∃ x, l.value? c.iterator k = some x ∧ x.integer? = some (a + k * c.move d) := by
  induction k with
  | zero =>
    obtain ⟨place, hinit⟩ := hd.init
    refine ⟨c.init.evaluate, ?_, ?_⟩
    · simp [Loop.value?, Loop.start?, hinit, Statement.declare]
    · rw [Int.natCast_zero, Int.zero_mul, Int.add_zero]
      exact h.init
  | succ k ih =>
    obtain ⟨x, hx, hxint⟩ := ih (Nat.le_of_succ_le hk)
    have hadmits := (h.admits_iff k).mpr hk
    have hpasses : l.passes c.iterator x := (passes_iff hd h.bound hxint).mpr hadmits
    have hsucc : a + k * c.move d + c.move d = a + (k + 1 : Nat) * c.move d := by
      rw [Int.natCast_succ, Int.add_mul]
      omega
    have hfits := (h.fits hk).2
    obtain ⟨y, hy, hyint⟩ := next?_eq hd h.step hxint (hsucc ▸ hfits)
    refine ⟨y, ?_, hsucc ▸ hyint⟩
    rw [Loop.value?, hx, Option.bind_some, if_pos hpasses, hy]

/-! ### The expressions for the count and the values -/

/-- The distance is not negative, and there is room for one more step. -/
theorem gap_bounds : 0 ≤ c.margin ∧ c.margin ≤ 1 ∧ c.margin ≤ c.gap a b ∧ c.gap a b < 2 ^ 30 := by
  have hsmall := h.small
  have hmargin : 0 ≤ c.margin ∧ c.margin ≤ 1 := by
    unfold margin
    split <;> omega
  refine ⟨hmargin.1, hmargin.2, h.start, ?_⟩
  unfold gap
  split <;> omega

theorem integer?_distance : c.distance.integer? = some (c.gap a b) := by
  have hinit := h.init
  have hbound := h.bound
  rw [← Expr.integer?_wrapped] at hinit hbound
  have hbounds := h.gap_bounds
  have hfits : FitsInt (c.gap a b) := by
    unfold FitsInt
    omega
  unfold distance
  unfold gap at hfits ⊢
  rw [h.direction] at hfits ⊢
  by_cases hup : c.countsUp <;> simp only [hup, if_true, Bool.false_eq_true, if_false] at hfits ⊢
  · exact Expr.integer?_sub hbound hinit hfits
  · exact Expr.integer?_sub hinit hbound hfits

/-- The number of integers that the check lets pass. -/
theorem integer?_width : c.width.integer? = some (c.gap a b - c.margin + 1) := by
  have hbounds := h.gap_bounds
  unfold width
  by_cases hinclusive : c.isInclusive
  · rw [if_pos hinclusive, margin, if_pos hinclusive, Int.sub_zero]
    refine Expr.integer?_add h.integer?_distance c.integer?_one ?_
    unfold FitsInt
    omega
  · rw [if_neg hinclusive, margin, if_neg hinclusive, Int.sub_add_cancel]
    exact h.integer?_distance

/-- The count folds to the number of rounds, in words of 32 bits. -/
theorem integer?_iterationCount : c.iterationCount.integer? = some (c.roundCount a b d : Int) := by
  have hpos := h.pos
  have hsmall := h.small
  obtain ⟨hnonneg, hone, hstart, hgap⟩ := h.gap_bounds
  have hwidth := h.integer?_width
  have hquotient : 0 ≤ (c.gap a b - c.margin + d) / d := Int.ediv_nonneg (by omega) (by omega)
  rw [iterationCount_eq, roundCount, Int.toNat_of_nonneg hquotient]
  have hstep := h.step
  unfold stepSize? at hstep
  cases hcase : c.step with
  | none =>
    rw [hcase] at hstep
    obtain rfl := Option.some.inj hstep
    rw [Int.ediv_one]
    exact hwidth
  | some step =>
    rw [hcase] at hstep
    dsimp only at hstep ⊢
    rw [← Expr.integer?_wrapped] at hstep
    have hfits : ∀ x : Int, 0 ≤ x → x ≤ 2 ^ 30 + d → FitsInt x := by
      intro x hlow hhigh
      unfold FitsInt
      omega
    have hpadded := Expr.integer?_add hwidth hstep (hfits _ (by omega) (by omega))
    have hless := Expr.integer?_sub hpadded c.integer?_one (hfits _ (by omega) (by omega))
    -- Nothing is negative here, so the truncating quotient of the code is the one of whole numbers.
    have hcount : (c.gap a b - c.margin + 1 + d - 1).tdiv d = (c.gap a b - c.margin + d) / d := by
      rw [Int.tdiv_eq_ediv_of_nonneg (by omega)]
      congr 1
      omega
    have hle : (c.gap a b - c.margin + d) / d ≤ c.gap a b - c.margin + d :=
      Int.ediv_le_self _ (by omega)
    rw [← hcount] at hquotient hle ⊢
    exact Expr.integer?_div hless hstep (by omega) (hfits _ hquotient (by omega))

/-- The value after `k` steps, for any constant that stands for `k`. -/
theorem integer?_valueAfter {k : Nat} (hk : k ≤ c.roundCount a b d) {w : Value}
    (hw : w.integer? = some k) (place : Location) :
    (c.valueAfter (.ofValue w place)).integer? = some (a + k * c.move d) := by
  obtain ⟨hfitsMul, hfitsSum⟩ := h.fits hk
  have hinit := h.init
  rw [← Expr.integer?_wrapped] at hinit
  have hcount : (Expr.ofValue w place).wrapped.integer? = some (k : Int) := hw
  have hstep := h.step
  unfold stepSize? at hstep
  -- Without a step the offset is the count itself.
  have hoffset : (match c.step with
      | none => (Expr.ofValue w place).wrapped
      | some step =>
        (Expr.mkBinary .mul step.wrapped (Expr.ofValue w place).wrapped).mkParens).integer?
      = some (k * d) := by
    cases hcase : c.step with
    | none =>
      rw [hcase] at hstep
      obtain rfl := Option.some.inj hstep
      rw [Int.mul_one]
      exact hcount
    | some step =>
      rw [hcase] at hstep
      dsimp only at hstep ⊢
      rw [← Expr.integer?_wrapped] at hstep
      rw [Int.mul_comm] at hfitsMul ⊢
      exact Expr.integer?_mul hstep hcount hfitsMul
  unfold valueAfter
  unfold move at hfitsSum ⊢
  by_cases hup : c.countsUp <;>
    simp only [hup, if_true, Bool.false_eq_true, if_false, Int.mul_neg] at hfitsSum ⊢
  · exact Expr.integer?_add hinit hoffset hfitsSum
  · exact Expr.integer?_sub hinit hoffset hfitsSum

end Approaches

/-- **The count and the values of a loop from constant to constant** are those of its run: the loop
stops after as many rounds as its count folds to, its variable holds in each round the constant that
`valueAfter` folds to for the number of the round, and the check lets these pass until the loop
stops. -/
theorem enumerates_constants (hc : recognize t l = .ok c) (hinit : c.init.integer? = some a)
    (hbound : c.bound.integer? = some b) (hstep : c.stepSize? = some d) (hpos : 1 ≤ d)
    (hsmall : a.natAbs < 2 ^ 29 ∧ b.natAbs < 2 ^ 29 ∧ d.natAbs < 2 ^ 29)
    (hdirection : c.isBelow = c.countsUp) (hstart : l.passes c.iterator c.init.evaluate) :
    ∃ n : Nat, l.Rounds c.iterator n ∧
      c.iterationCount.evaluate.toInt64?.map Int64.toInt = some (n : Int) ∧
      ∀ k ≤ n, ∃ x i, l.value? c.iterator k = some x ∧ x.integer? = some i ∧
        ∀ w : Value, w.integer? = some (k : Int) → ∀ place,
          (c.valueAfter (.ofValue w place)).integer? = some i ∧
          (l.passes c.iterator (c.valueAfter (.ofValue w place)).evaluate ↔ k < n) := by
  have hd := describes_of_recognize hc
  -- The loop moves from constant to constant: what it does is that of an arithmetic progression.
  have h : c.Approaches a b d :=
    { init := hinit
      bound := hbound
      step := hstep
      pos := hpos
      small := hsmall
      direction := hdirection
      start := (passes_iff hd hbound hinit).mp hstart }
  refine ⟨c.roundCount a b d, ?_, Value.toInt64?_of_integer? h.integer?_iterationCount,
    fun k hk => ?_⟩
  · obtain ⟨x, hx, hxint⟩ := h.value?_eq hd (Nat.le_refl _)
    refine ⟨x, hx, Bool.eq_false_iff.mpr fun hpasses => ?_⟩
    exact Nat.lt_irrefl _ ((h.admits_iff _).mp ((passes_iff hd hbound hxint).mp hpasses))
  · obtain ⟨x, hx, hxint⟩ := h.value?_eq hd hk
    refine ⟨x, _, hx, hxint, fun w hw place => ?_⟩
    have hvalue := h.integer?_valueAfter hk hw place
    exact ⟨hvalue, (passes_iff hd hbound hvalue).trans (h.admits_iff k)⟩

/-- The loop `for (int i = 10; 3 <= i; i -= 2) {}`. -/
def countdown : Loop where
  scope := .global
  init := .declare ⟨0⟩ (some (.ofValue (.int 10) .none)) .none
  check := .ofExpr (.mkBinary .lessEq (.ofValue (.int 3) .none) (.ofVar ⟨0⟩ .none))
  update := .ofExpr (.mkBinary .subAssign (.ofVar ⟨0⟩ .none) (.ofValue (.int 2) .none))
  body := []
  attributes := []
  location := .none

/-- What is recognized of it. -/
def countdownFacts : CanonicalLoop where
  iterator := ⟨0⟩
  init := .ofValue (.int 10) .none
  checkOp := .lessEq
  bound := .ofValue (.int 3) .none
  boundOnRight := false
  updateOp := .binary .subAssign
  step := some (.ofValue (.int 2) .none)
  countsUp := false
  location := .none

/-- The countdown has the rounds of 10, 8, 6 and 4, and stops at 2. -/
theorem enumerates_countdown :
    recognize Tile.counterTable countdown = .ok countdownFacts ∧ countdown.Rounds ⟨0⟩ 4 ∧
      countdownFacts.iterationCount.evaluate.toInt64?.map Int64.toInt = some 4 ∧
      (∃ x, countdown.value? ⟨0⟩ 3 = some x ∧ x.integer? = some 4 ∧ countdown.passes ⟨0⟩ x) ∧
      ∃ x, countdown.value? ⟨0⟩ 4 = some x ∧ x.integer? = some 2 ∧ ¬ countdown.passes ⟨0⟩ x := by
  have hc : recognize Tile.counterTable countdown = .ok countdownFacts := rfl
  have hpasses : ∀ {x : Value} {i : Int}, x.integer? = some i →
      (countdown.passes ⟨0⟩ x ↔ countdownFacts.Admits i 3) :=
    passes_iff (describes_of_recognize hc) rfl
  obtain ⟨n, hrounds, hcount, hvalues⟩ := enumerates_constants (a := 10) (b := 3) (d := 2) hc rfl
    rfl rfl (by decide) (by decide) rfl ((hpasses (i := 10) rfl).mpr (by decide))
  have hfour : countdownFacts.iterationCount.evaluate.toInt64?.map Int64.toInt = some 4 := rfl
  obtain rfl : n = 4 := Int.ofNat.inj (Option.some.inj (hcount.symm.trans hfour))
  refine ⟨hc, hrounds, hfour, ?_, ?_⟩
  · obtain ⟨x, i, hx, hi, hformula⟩ := hvalues 3 (by decide)
    obtain rfl : 4 = i := Option.some.inj (hformula (.int 3) rfl .none).1
    exact ⟨x, hx, hi, (hpasses hi).mpr (by decide)⟩
  · obtain ⟨x, i, hx, hi, hformula⟩ := hvalues 4 (by decide)
    obtain rfl : 2 = i := Option.some.inj (hformula (.int 4) rfl .none).1
    exact ⟨x, hx, hi, mt (hpasses hi).mp (by decide)⟩

end CanonicalLoop

end KernelTree
