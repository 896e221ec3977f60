import KernelTree.Loop.Tile
import KernelTree.Proofs.Expr.Grouped
import KernelTree.Proofs.Expr.Inversion
import KernelTree.Proofs.Loop.Recognize

/-!
# The grammar of canonical loops

A loop is recognized exactly if a grammar with one rule set for each part of the header derives it:
`CanonicalLoop.Declares` for the start, `CanonicalLoop.Compares` for the check and
`CanonicalLoop.Moves` for the update (`CanonicalLoop.recognize_eq_ok_iff`). The facts are what the
rules leave open, so the header can be written down again from them (`CanonicalLoop.Restores`).
-/

namespace KernelTree

namespace CanonicalLoop

variable {t : SymbolTable} {l : Loop} {c : CanonicalLoop} {v : VarId}

/-! ### The rules -/

/-- `T v = value`, where `T` is a type that counts and no pointer. -/
inductive Declares (t : SymbolTable) (v : VarId) (value : Expr) : Statement → Prop
  | declaration {place : Location}
      (hkind : (t.typeDef (t.var v).type.base).kind ∈ [.char, .short, .int, .long])
      (hpointer : (t.var v).type.pointerDepth = 0) :
      Declares t v value (.declaration [⟨v, some value⟩] place)

/-- `v op bound` or `bound op v`, and whether it is the first. A check of the variable against
itself is the first. -/
inductive Compares (v : VarId) (op : BinaryOp) (bound : Expr) : Bool → Statement → Prop
  | left {use place place' : Location} (hop : op ∈ [.less, .lessEq, .greater, .greaterEq]) :
      Compares v op bound true
        (.expression (.binary (.binary op) (.ofVar v use) bound place) place')
  | right {use place place' : Location} (hop : op ∈ [.less, .lessEq, .greater, .greaterEq])
      (hbound : ∀ use', bound ≠ .ofVar v use') :
      Compares v op bound false
        (.expression (.binary (.binary op) bound (.ofVar v use) place) place')

/-- `++v`, `v++` or `v += step`, or the same downwards; the last fact is the direction. -/
inductive Moves (v : VarId) : Operator → Option Expr → Bool → Statement → Prop
  | prefixed {op : Operator} {up : Bool} {use place place' : Location}
      (hop : op.symbol = if up then "++" else "--") :
      Moves v op none up (.expression (.prefixed op (.ofVar v use) place) place')
  | postfixed {op : Operator} {up : Bool} {use place place' : Location}
      (hop : op.symbol = if up then "++" else "--") :
      Moves v op none up (.expression (.postfixed op (.ofVar v use) place) place')
  | assigned {op : BinaryOp} {step : Expr} {up : Bool} {use place place' : Location}
      (hop : op.symbol = if up then "+=" else "-=") :
      Moves v (.binary op) (some step) up
        (.expression (.binary (.binary op) (.ofVar v use) step place) place')

/-! ### Each part of the header -/

@[simp] theorem isUse_ofVar (v : VarId) (use : Location) : isUse v (.ofVar v use) = true := by
  simp [isUse, Expr.ofVar]

/-- The types that a loop may count with. -/
theorem isInteger_iff (kind : TypeKind) :
    kind.isInteger = true ↔ kind ∈ [TypeKind.char, .short, .int, .long] := by
  cases kind <;> decide

/-- The comparisons by size. -/
theorem isOrdering_iff (op : BinaryOp) :
    op.isOrdering = true ↔ op ∈ [BinaryOp.less, .lessEq, .greater, .greaterEq] := by
  cases op <;> decide

/-- The start is accepted exactly if it declares one variable of an integer type with a value. -/
theorem initFacts_eq_ok_iff {init : Statement} {value : Expr} :
    initFacts t init = .ok (v, value) ↔ Declares t v value init := by
  refine ⟨fun h => ?_, fun h => ?_⟩
  · obtain ⟨place, rfl⟩ := initFacts_ok h
    simp only [Statement.declare, initFacts] at h
    split at h
    · cases h
    case isFalse htype =>
      simp only [Bool.or_eq_true, Bool.not_eq_true', decide_eq_true_eq, not_or] at htype
      exact .declaration ((isInteger_iff _).mp (by simpa using htype.1)) (by omega)
  · obtain ⟨hkind, hpointer⟩ := h
    simp [initFacts, (isInteger_iff _).mpr hkind, hpointer]

/-- The check is accepted exactly if it compares the variable by size, the left side first. -/
theorem checkFacts_eq_ok_iff {check : Statement} {op : BinaryOp} {bound : Expr}
    {boundOnRight : Bool} :
    checkFacts v check = .ok (op, bound, boundOnRight) ↔
      Compares v op bound boundOnRight check := by
  refine ⟨fun h => ?_, fun h => ?_⟩
  · obtain ⟨hop, use, place, place', rfl⟩ := checkFacts_ok h
    have hmem := (isOrdering_iff op).mp hop
    cases boundOnRight with
    | true => exact .left hmem
    | false =>
      refine .right hmem fun use' hbound => ?_
      subst hbound
      simp [checkFacts, hop] at h
  · cases h with
    | left hop => simp [checkFacts, (isOrdering_iff op).mpr hop]
    | right hop hbound =>
      have huse : isUse v bound = false :=
        Bool.eq_false_iff.mpr fun h => (exists_use h).elim fun use' h => hbound use' h
      simp [checkFacts, (isOrdering_iff op).mpr hop, huse]

/-- The operators that move a variable by one are known by how they are written. -/
theorem stepOperator?_eq_some_iff (op : Operator) (up : Bool) :
    stepOperator? op = some up ↔ op.symbol = if up then "++" else "--" := by
  cases op with
  | pre op => cases op <;> cases up <;> decide
  | post op => cases op <;> cases up <;> decide
  | binary op => cases op <;> cases up <;> decide
  | opening b => cases b <;> cases up <;> decide
  | closing b => cases b <;> cases up <;> decide
  | unresolved a => cases a <;> cases up <;> decide

/-- An assignment that moves the variable is told by how it is written. -/
theorem symbol_eq_assign_iff (op : BinaryOp) (up : Bool) :
    (op.symbol = if up then "+=" else "-=") ↔ op = if up then .addAssign else .subAssign := by
  cases op <;> cases up <;> decide

/-- The update is accepted exactly if it moves the variable by one or by a step. -/
theorem updateFacts_eq_ok_iff {update : Statement} {op : Operator} {step : Option Expr}
    {up : Bool} :
    updateFacts v update = .ok (op, step, up) ↔ Moves v op step up update := by
  refine ⟨fun h => ?_, fun h => ?_⟩
  · obtain ⟨e, place', rfl, he⟩ := updateFacts_ok h
    unfold updateOf? at he
    split at he
    -- The four forms of an update that are tried; in each the operand has to be the variable.
    case h_5 => cases he
    all_goals
      split at he
      case isFalse => cases he
      case isTrue huse =>
        obtain ⟨use, rfl⟩ := exists_use huse
        first
          | obtain ⟨up', hup, hfacts⟩ := Option.map_eq_some_iff.mp he
            obtain ⟨rfl, rfl, rfl⟩ := hfacts
            have hop := (stepOperator?_eq_some_iff _ _).mp hup
            first | exact .prefixed hop | exact .postfixed hop
          | obtain ⟨rfl, rfl, rfl⟩ := Option.some.inj he
            exact .assigned rfl
  · cases h with
    | prefixed hop | postfixed hop =>
      simp [updateFacts, updateOf?, (stepOperator?_eq_some_iff op up).mpr hop]
    | @assigned op step up _ _ _ hop =>
      cases up <;> obtain rfl := (symbol_eq_assign_iff op _).mp hop <;>
        simp [updateFacts, updateOf?]

/-! ### The whole header -/

/-- The recognizer gives facts exactly if the grammar derives the header with them. -/
theorem recognize_eq_ok_iff :
    recognize t l = .ok c ↔ Declares t c.iterator c.init l.init ∧
      Compares c.iterator c.checkOp c.bound c.boundOnRight l.check ∧
      Moves c.iterator c.updateOp c.step c.countsUp l.update ∧ c.location = l.location := by
  simp only [← initFacts_eq_ok_iff, ← checkFacts_eq_ok_iff, ← updateFacts_eq_ok_iff]
  refine ⟨fun h => ?_, fun h => ?_⟩
  · obtain ⟨start, hinit, h⟩ := Build.bind_ok h
    obtain ⟨comparison, hcheck, h⟩ := Build.bind_ok h
    obtain ⟨move, hupdate, h⟩ := Build.bind_ok h
    obtain rfl := Except.ok.inj h
    exact ⟨hinit, hcheck, hupdate, rfl⟩
  · obtain ⟨hinit, hcheck, hupdate, hplace⟩ := h
    simp [recognize, hinit, hcheck, hupdate, ← hplace, bind, Except.bind, pure, Except.pure]

/-- The grammar derives the header, with some variable and some facts. -/
def Grammatical (t : SymbolTable) (l : Loop) : Prop :=
  ∃ v, (∃ value, Declares t v value l.init) ∧
    (∃ op bound boundOnRight, Compares v op bound boundOnRight l.check) ∧
    ∃ op step up, Moves v op step up l.update

/-- The expressions that move the variable as the facts say: `++` and `--` stand on either side. -/
def moves (c : CanonicalLoop) : List Expr :=
  let iterator := Expr.ofVar c.iterator c.location
  match c.step with
  | some step => [.binary c.updateOp iterator step c.location]
  | none => [.prefixed c.updateOp iterator c.location, .postfixed c.updateOp iterator c.location]

/-- The facts say what the header is, but for places and for the side that `++` and `--` are
written on. -/
structure Restores (c : CanonicalLoop) (l : Loop) : Prop where
  init : ∃ place, l.init = .declare c.iterator (some c.init) place
  check : ∃ e place, l.check = .expression e place ∧
    e.unplaced = (Tile.compare c c.bound c.location).unplaced
  update : ∃ e place, l.update = .expression e place ∧ e.unplaced ∈ c.moves.map Expr.unplaced
  inclusive : c.isInclusive = true ↔ c.checkOp.symbol ∈ ["<=", ">="]
  upwards : c.countsUp = true ↔ c.updateOp.symbol ∈ ["++", "+="]
  downwards : c.countsUp = false ↔ c.updateOp.symbol ∈ ["--", "-="]
  /-- The left operand counts as the variable whatever the right one is. -/
  left_first : ∀ op use bound place place',
    l.check = .expression (.binary op (.ofVar c.iterator use) bound place) place' →
      c.boundOnRight = true ∧ c.bound = bound
  location : c.location = l.location

/-- A check that lets the bound in is told by how it is written. -/
theorem isInclusive_iff (c : CanonicalLoop) :
    c.isInclusive = true ↔ c.checkOp.symbol ∈ ["<=", ">="] := by
  unfold isInclusive
  cases c.checkOp <;> decide

/-- The check is what the facts say, up to places. -/
theorem Compares.restored {check : Statement} (place : Location)
    (h : Compares c.iterator c.checkOp c.bound c.boundOnRight check) :
    ∃ e place', check = .expression e place' ∧
      e.unplaced = (Tile.compare c c.bound place).unplaced := by
  unfold Tile.compare
  generalize c.boundOnRight = side at h ⊢
  cases h with
  | left hop | right hop => exact ⟨_, _, rfl, by simp [Expr.mkBinary, Expr.ofVar, Expr.unplaced]⟩

/-- Where the variable stands on both sides, the left one is taken for it. -/
theorem Compares.left_first {check : Statement} {op' : Operator} {op : BinaryOp}
    {bound bound' : Expr} {boundOnRight : Bool} {use place place' : Location}
    (h : Compares v op bound boundOnRight check)
    (hcheck : check = .expression (.binary op' (.ofVar v use) bound' place) place') :
    boundOnRight = true ∧ bound = bound' := by
  cases h with
  | left hop =>
    cases hcheck
    exact ⟨rfl, rfl⟩
  | right hop hbound =>
    cases hcheck
    exact absurd rfl (hbound use)

/-- The update is one of those that the facts stand for, up to places. -/
theorem Moves.restored {update : Statement}
    (h : Moves c.iterator c.updateOp c.step c.countsUp update) :
    ∃ e place, update = .expression e place ∧ e.unplaced ∈ c.moves.map Expr.unplaced := by
  unfold moves
  generalize c.updateOp = op, c.step = step at h ⊢
  cases h with
  | prefixed hop | postfixed hop | assigned hop =>
    exact ⟨_, _, rfl, by simp [Expr.ofVar, Expr.unplaced]⟩

/-- The direction is the one that the operator is written with. -/
theorem Moves.direction {update : Statement} {op : Operator} {step : Option Expr} {up : Bool}
    (h : Moves v op step up update) :
    (up = true ↔ op.symbol ∈ ["++", "+="]) ∧ (up = false ↔ op.symbol ∈ ["--", "-="]) := by
  cases h with
  | prefixed hop | postfixed hop => cases up <;> simp [hop]
  | assigned hop =>
    have hsymbol : (Operator.binary _).symbol = _ := hop
    cases up <;> simp [hsymbol]

/-- The header of a recognized loop is put together again from its facts. -/
theorem restores_of_recognize (h : recognize t l = .ok c) : c.Restores l := by
  obtain ⟨hinit, hcheck, hupdate, hplace⟩ := recognize_eq_ok_iff.mp h
  exact
    { init := (describes_of_recognize h).init
      check := hcheck.restored c.location
      update := hupdate.restored
      inclusive := c.isInclusive_iff
      upwards := hupdate.direction.1
      downwards := hupdate.direction.2
      left_first := fun _ _ _ _ _ => hcheck.left_first
      location := hplace }

/-- **The recognizer accepts exactly the grammar and loses nothing**: the facts of a loop that it
accepts say what the header is. -/
theorem recognize_grammatical (t : SymbolTable) (l : Loop) :
    ((∃ c, recognize t l = .ok c) ↔ Grammatical t l) ∧
      ∀ c, recognize t l = .ok c → c.Restores l := by
  refine ⟨⟨fun h => ?_, fun h => ?_⟩, fun c => restores_of_recognize⟩
  · obtain ⟨c, hc⟩ := h
    obtain ⟨hinit, hcheck, hupdate, -⟩ := recognize_eq_ok_iff.mp hc
    exact ⟨c.iterator, ⟨_, hinit⟩, ⟨_, _, _, hcheck⟩, _, _, _, hupdate⟩
  · obtain ⟨v, ⟨value, hinit⟩, ⟨op, bound, side, hcheck⟩, updateOp, step, up, hupdate⟩ := h
    exact ⟨⟨v, value, op, bound, side, updateOp, step, up, l.location⟩,
      recognize_eq_ok_iff.mpr ⟨hinit, hcheck, hupdate, rfl⟩⟩

/-- A table of one variable, `long i`. -/
def longTable : SymbolTable :=
  ⟨#[⟨"long", .long⟩], #[⟨"i", .plain ⟨0⟩, [], .none⟩], #[], #[⟨none, []⟩]⟩

/-- The loop `for (long i = 9; i >= i; i -= 2) {}`, whose variable is its own bound. -/
def ownBound : Loop where
  scope := .global
  init := .declare ⟨0⟩ (some (.ofValue (.int 9) .none)) .none
  check := .ofExpr (.mkBinary .greaterEq (.ofVar ⟨0⟩ .none) (.ofVar ⟨0⟩ ⟨1, 20⟩))
  update := .ofExpr (.mkBinary .subAssign (.ofVar ⟨0⟩ .none) (.ofValue (.int 2) .none))
  body := []
  attributes := []
  location := .none

theorem recognize_ownBound : Grammatical longTable ownBound ∧
    ∃ c, recognize longTable ownBound = .ok c ∧ c.Restores ownBound ∧ c.boundOnRight = true := by
  obtain ⟨haccepts, hrestores⟩ := recognize_grammatical longTable ownBound
  have hfacts : ∃ c, recognize longTable ownBound = .ok c := ⟨_, rfl⟩
  obtain ⟨c, hc⟩ := hfacts
  refine ⟨haccepts.mp ⟨c, hc⟩, c, hc, hrestores c hc, ?_⟩
  obtain rfl := Except.ok.inj hc
  rfl

end CanonicalLoop

end KernelTree
