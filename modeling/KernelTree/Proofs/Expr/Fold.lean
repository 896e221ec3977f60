import KernelTree.Expr.Eval
import KernelTree.Proofs.Operator.Integer

/-!
# Constant folding on integers

`Expr.Computes` evaluates expressions of integers and truth values as C does, but on mathematical
integers: the right side of `&&` and `||` only where the left side leaves the value open, and of a
conditional only the branch that is taken. It gives no value where a part that it evaluates has none
or does not fit in 32 bits. Wherever it gives a value, folding gives the same one
(`Expr.evaluate_of_computes`).
-/

namespace KernelTree

/-- The prefix operators of integer expressions. -/
def PrefixOp.onIntegers : List PrefixOp :=
  [not, positive, negative, complement, increment, decrement]

/-- The binary operators of integer expressions. -/
def BinaryOp.onIntegers : List BinaryOp :=
  [mul, div, mod, add, sub, shiftLeft, shiftRight, less, lessEq, greater, greaterEq, equal,
    notEqual, bitAnd, bitXor, bitOr, and, or, comma]

namespace Expr

/-- Expressions of integers, truth values and operators on them. -/
inductive Integral : Expr → Prop
  | int (n : Int32) (l : Location) : Integral (atom (.value (.int n)) l)
  | bool (b : Bool) (l : Location) : Integral (atom (.value (.bool b)) l)
  | parens {v : Expr} {l : Location} (hv : Integral v) : Integral (parens v l)
  | prefixed {op : PrefixOp} {v : Expr} {l : Location} (hop : op ∈ PrefixOp.onIntegers)
      (hv : Integral v) : Integral (prefixed (.pre op) v l)
  | postfixed {op : PostfixOp} {v : Expr} {l : Location} (hv : Integral v) :
      Integral (postfixed (.post op) v l)
  | binary {op : BinaryOp} {a b : Expr} {l : Location} (hop : op ∈ BinaryOp.onIntegers)
      (ha : Integral a) (hb : Integral b) : Integral (binary (.binary op) a b l)
  | ternary {c a b : Expr} {l : Location} (hc : Integral c) (ha : Integral a)
      (hb : Integral b) : Integral (ternary c a b l)

/-- The value of an expression of integers. Prefix `++` and `--` are read as one more and one less,
and postfix ones as the value that they are applied to. -/
inductive Computes : Expr → Int → Prop
  | int (n : Int32) (l : Location) : Computes (atom (.value (.int n)) l) n.toInt
  | bool (b : Bool) (l : Location) : Computes (atom (.value (.bool b)) l) (truth b)
  | parens {v : Expr} {x : Int} {l : Location} (hv : Computes v x) : Computes (parens v l) x
  | prefixed {op : PrefixOp} {v : Expr} {x z : Int} {l : Location} (hv : Computes v x)
      (hop : op.onInteger? x = some z) (hz : FitsInt z) : Computes (prefixed (.pre op) v l) z
  | postfixed {op : PostfixOp} {v : Expr} {x : Int} {l : Location} (hv : Computes v x) :
      Computes (postfixed (.post op) v l) x
  | binary {op : BinaryOp} {a b : Expr} {x y z : Int} {l : Location} (ha : Computes a x)
      (hb : Computes b y) (hop : op.onIntegers? x y = some z) (hz : FitsInt z) :
      Computes (binary (.binary op) a b l) z
  | andFalse {a b : Expr} {l : Location} (ha : Computes a 0) :
      Computes (binary (.binary .and) a b l) 0
  | andOpen {a b : Expr} {x y : Int} {l : Location} (ha : Computes a x) (hx : x ≠ 0)
      (hb : Computes b y) : Computes (binary (.binary .and) a b l) (truth (y ≠ 0))
  | orTrue {a b : Expr} {x : Int} {l : Location} (ha : Computes a x) (hx : x ≠ 0) :
      Computes (binary (.binary .or) a b l) 1
  | orOpen {a b : Expr} {y : Int} {l : Location} (ha : Computes a 0) (hb : Computes b y) :
      Computes (binary (.binary .or) a b l) (truth (y ≠ 0))
  | onTrue {c a b : Expr} {x y : Int} {l : Location} (hc : Computes c x) (hx : x ≠ 0)
      (ha : Computes a y) : Computes (ternary c a b l) y
  | onFalse {c a b : Expr} {y : Int} {l : Location} (hc : Computes c 0) (hb : Computes b y) :
      Computes (ternary c a b l) y

/-- Every such expression is constant in form. -/
theorem Integral.canEvaluate {e : Expr} (h : e.Integral) : e.canEvaluate = true := by
  have hpre : ∀ op ∈ PrefixOp.onIntegers, (Operator.pre op).canEvaluate = true := by decide
  have hbinary : ∀ op ∈ BinaryOp.onIntegers, (Operator.binary op).canEvaluate = true := by decide
  induction h with
  | int | bool => rfl
  | parens _ ih => rw [Expr.canEvaluate, ih]
  | prefixed hop _ ih => rw [Expr.canEvaluate, hpre _ hop, ih]; rfl
  | postfixed _ ih => rw [Expr.canEvaluate, ih]; rfl
  | binary hop _ _ iha ihb => rw [Expr.canEvaluate, hbinary _ hop, iha, ihb]; rfl
  | ternary _ _ _ ihc iha ihb => rw [Expr.canEvaluate, ihc, iha, ihb]; rfl

/-! ### Short circuits -/

section

variable {a b : Expr} {l : Location} {x y : Int}

/-- The value of two operands, where a decided left one ends a conjunction or a disjunction. -/
theorem fold_binary_eq (op : Operator) (a b : Expr) (l : Location) :
    (binary op a b l).fold =
      if op = .binary .and ∧ a.fold.toBool? = some false then .bool false
      else if op = .binary .or ∧ a.fold.toBool? = some true then .bool true
      else op.evaluateBinary a.fold b.fold := rfl

theorem fold_binary {op : BinaryOp} (hand : op ≠ .and) (hor : op ≠ .or) (a b : Expr)
    (l : Location) :
    (binary (.binary op) a b l).fold = (Operator.binary op).evaluateBinary a.fold b.fold := by
  rw [fold_binary_eq]
  simp [hand, hor]

/-- A left side that is false decides a conjunction. -/
theorem fold_and_false (h : Represents a.fold 0) :
    (binary (.binary .and) a b l).fold = .bool false := by
  rw [fold_binary_eq]
  simp [h.toBool?]

/-- A conjunction whose left side holds is as true as its right side. -/
theorem fold_and_open (ha : Represents a.fold x) (hx : x ≠ 0) (hb : Represents b.fold y) :
    (binary (.binary .and) a b l).fold = .bool (y ≠ 0) := by
  rw [fold_binary_eq]
  simp [ha.toBool?, hb.toBool?, hx, Operator.evaluateBinary, Operator.folding, BinaryOp.folding,
    Value.and]

/-- A left side that is true decides a disjunction. -/
theorem fold_or_true (h : Represents a.fold x) (hx : x ≠ 0) :
    (binary (.binary .or) a b l).fold = .bool true := by
  rw [fold_binary_eq]
  simp [h.toBool?, hx]

/-- A disjunction whose left side fails is as true as its right side. -/
theorem fold_or_open (ha : Represents a.fold 0) (hb : Represents b.fold y) :
    (binary (.binary .or) a b l).fold = .bool (y ≠ 0) := by
  rw [fold_binary_eq]
  simp [ha.toBool?, hb.toBool?, Operator.evaluateBinary, Operator.folding, BinaryOp.folding,
    Value.or]

theorem fold_ternary_eq (c a b : Expr) (l : Location) :
    (ternary c a b l).fold = match c.fold.toBool? with
      | some true => a.fold
      | some false => b.fold
      | none => .undefined := rfl

/-- A condition picks one of the two branches, and the other one is not looked at. -/
theorem fold_ternary {c : Expr} (hc : Represents c.fold x) (a b : Expr) (l : Location) :
    (ternary c a b l).fold = if x ≠ 0 then a.fold else b.fold := by
  rw [fold_ternary_eq, hc.toBool?]
  by_cases hx : x = 0 <;> simp [hx]

end

/-- What an expression computes is what its folded constant stands for; by induction on the
computation, so that parts which are not evaluated may have any value or none. -/
theorem Computes.fold {e : Expr} {x : Int} (h : e.Computes x) : Represents e.fold x := by
  induction h with
  | int n => exact .int n
  | bool b => exact .bool b
  | parens _ ih => exact ih
  | prefixed _ hop hz ih => exact ih.evaluateUnary hop hz
  | postfixed _ ih => exact ih
  | @binary op _ _ _ _ _ _ _ _ hop hz iha ihb =>
    have hand : op ≠ .and := by rintro rfl; cases hop
    have hor : op ≠ .or := by rintro rfl; cases hop
    rw [fold_binary hand hor]
    exact iha.evaluateBinary ihb hop hz
  | andFalse _ ih =>
    rw [fold_and_false ih]
    exact .bool false
  | andOpen _ hx _ iha ihb =>
    rw [fold_and_open iha hx ihb]
    exact .bool _
  | orTrue _ hx ih =>
    rw [fold_or_true ih hx]
    exact .bool true
  | orOpen _ _ iha ihb =>
    rw [fold_or_open iha ihb]
    exact .bool _
  | onTrue _ hx _ ihc iha =>
    rw [fold_ternary ihc, if_pos hx]
    exact iha
  | onFalse _ _ ihc ihb =>
    rw [fold_ternary ihc, if_neg (not_not.mpr rfl)]
    exact ihb

/-- **Folding agrees with C on integers**: where an expression of integers has a value, it is
constant in form and is folded to that value. -/
theorem evaluate_of_computes {e : Expr} {x : Int} (he : e.Integral) (h : e.Computes x) :
    e.canEvaluate = true ∧ e.evaluate.toInt64?.map Int64.toInt = some x := by
  obtain ⟨n, hn, hx⟩ := h.fold.toInt64?
  refine ⟨he.canEvaluate, ?_⟩
  rw [evaluate, if_pos he.canEvaluate, hn, Option.map_some, hx]

/-- An integer in the first line. -/
def intAt (n : Int32) (column : Nat) : Expr := atom (.value (.int n)) ⟨1, column⟩

/-- A shifted quotient, `-7 / 2 << 3`. -/
def shiftedQuotient : Expr :=
  binary (.binary .shiftLeft)
    (binary (.binary .div) (prefixed (.pre .negative) (intAt 7 3) ⟨1, 2⟩) (intAt 2 7) ⟨1, 2⟩)
    (intAt 3 12) ⟨1, 2⟩

/-- A conditional with a branch that has no value, `(-7 / 2 << 3) - true ? ~5 : 1 / 0`. -/
def guardedDivision : Expr :=
  ternary
    (binary (.binary .sub) (parens shiftedQuotient ⟨1, 1⟩)
      (atom (.value (.bool true)) ⟨1, 17⟩) ⟨1, 1⟩)
    (prefixed (.pre .complement) (intAt 5 25) ⟨1, 24⟩)
    (binary (.binary .div) (intAt 1 29) (intAt 0 33) ⟨1, 29⟩) ⟨1, 1⟩

/-- The sample has integers and operators on them only. -/
theorem integral_guardedDivision : guardedDivision.Integral := by
  have hquotient : shiftedQuotient.Integral :=
    .binary (by decide) (.binary (by decide) (.prefixed (by decide) (.int 7 _)) (.int 2 _))
      (.int 3 _)
  exact .ternary (.binary (by decide) (.parens hquotient) (.bool true _))
    (.prefixed (by decide) (.int 5 _)) (.binary (by decide) (.int 1 _) (.int 0 _))

/-- The quotient is cut toward zero, to `-3`, and the other branch is not looked at. -/
theorem computes_guardedDivision : guardedDivision.Computes (-6) := by
  have hquotient : shiftedQuotient.Computes (-24) :=
    .binary (.binary (.prefixed (.int 7 _) rfl (by decide)) (.int 2 _) rfl (by decide))
      (.int 3 _) rfl (by decide)
  exact .onTrue (.binary (.parens hquotient) (.bool true _) rfl (by decide)) (by decide)
    (.prefixed (.int 5 _) rfl (by decide))

theorem evaluate_guardedDivision :
    guardedDivision.Integral ∧ guardedDivision.Computes (-6) ∧
      guardedDivision.canEvaluate = true ∧
      guardedDivision.evaluate.toInt64?.map Int64.toInt = some (-6) :=
  ⟨integral_guardedDivision, computes_guardedDivision,
    evaluate_of_computes integral_guardedDivision computes_guardedDivision⟩

end Expr

end KernelTree
