import KernelTree.Proofs.Access.Index
import KernelTree.Proofs.Expr.Closed
import KernelTree.Proofs.Loop.Trace
import KernelTree.Proofs.Pass.Substitute

/-!
# Generated expressions keep their groups

Tiling and flattening, and the two facts that canonical loops tell as expressions, put expressions
of the source under new operators. Operands that might fall apart are bracketed first, so the result
groups as it should if the parts do (`precedenceClosed_generated`).
-/

namespace KernelTree

open KernelTree.Expr

variable {leeway : Leeway}

theorem precedence_of_isOrdering {op : BinaryOp} (h : op.isOrdering) : op.precedence = 7 := by
  cases op <;> first | rfl | cases h

/-- Sums lean to the left, so a sum takes another one on its left. -/
theorem precedenceClosed_sum {op : BinaryOp} (hop : op.precedence = 5) {a b : Expr}
    (ha : a.PrecedenceClosed leeway) (hleft : a.level ≤ 5) (hb : b.PrecedenceClosed leeway)
    (hright : b.level ≤ 2) :
    (mkBinary op a b).PrecedenceClosed leeway ∧ (mkBinary op a b).level ≤ 5 := by
  refine ⟨.mkBinary hop rfl ha hleft hb (by omega), ?_⟩
  rw [level_mkBinary, hop]
  exact Int.le_refl 5

theorem precedenceClosed_ite {b : Bool} {x y : Expr} {n : ℤ}
    (hx : x.PrecedenceClosed leeway ∧ x.level ≤ n) (hy : y.PrecedenceClosed leeway ∧ y.level ≤ n) :
    (if b then x else y).PrecedenceClosed leeway ∧ (if b then x else y).level ≤ n := by
  split
  · exact hx
  · exact hy

/-! ### Loops -/

namespace CanonicalLoop

variable {c : CanonicalLoop} {bound : Expr}

/-- A comparison of the variable of a loop with a bound fits if the bound is tight enough for its
side. -/
theorem precedenceClosed_comparison (hop : c.checkOp.isOrdering) (use place : Location) :
    (binary (.binary c.checkOp) (if c.boundOnRight then .ofVar c.iterator use else bound)
        (if c.boundOnRight then bound else .ofVar c.iterator use) place).PrecedenceClosed leeway ↔
      bound.PrecedenceClosed leeway ∧
        if c.boundOnRight then bound.level < 7 else bound.level ≤ 7 := by
  have hprec := precedence_of_isOrdering hop
  have hassoc : associativity 7 = .left := rfl
  rw [precedenceClosed_iff, and_comm]
  cases c.boundOnRight <;>
    simp [Fits, children, hassoc, hprec, Operator.precedence, PrecedenceClosed.ofVar]

/-- How often the loop runs. -/
theorem precedenceClosed_iterationCount (hinit : c.init.PrecedenceClosed leeway)
    (hbound : c.bound.PrecedenceClosed leeway)
    (hstep : ∀ step ∈ c.step, step.PrecedenceClosed leeway) :
    c.iterationCount.PrecedenceClosed leeway := by
  have hone : c.one.PrecedenceClosed leeway := .atom rfl
  have hone_level : c.one.level ≤ 2 := by simp [one, ofValue, level]
  have hinit_level := level_wrapped c.init
  have hbound_level := level_wrapped c.bound
  have hdistance := precedenceClosed_ite (b := c.countsUp)
    (precedenceClosed_sum (show BinaryOp.sub.precedence = 5 from rfl) hbound.wrapped (by omega)
      hinit.wrapped hinit_level)
    (precedenceClosed_sum (show BinaryOp.sub.precedence = 5 from rfl) hinit.wrapped (by omega)
      hbound.wrapped hbound_level)
  have htotal := precedenceClosed_ite (b := c.isInclusive)
    (precedenceClosed_sum (show BinaryOp.add.precedence = 5 from rfl) hdistance.1 hdistance.2 hone
      hone_level)
    hdistance
  unfold iterationCount
  cases hc : c.step with
  | none => exact htotal.1
  | some step =>
    have hstep := hstep step hc
    have hstep_level := level_wrapped step
    -- The division rounds up, so its left side is a longer sum that needs brackets.
    have hraised := precedenceClosed_sum (show BinaryOp.add.precedence = 5 from rfl) htotal.1
      htotal.2 hstep.wrapped hstep_level
    have hpadded := precedenceClosed_sum (show BinaryOp.sub.precedence = 5 from rfl) hraised.1
      hraised.2 hone hone_level
    exact .mkBinary (p := 4) rfl rfl hpadded.1.mkParens (by simp) hstep.wrapped (by omega)

/-- Which value the variable has after some steps. -/
theorem precedenceClosed_valueAfter (hinit : c.init.PrecedenceClosed leeway)
    (hstep : ∀ step ∈ c.step, step.PrecedenceClosed leeway) {count : Expr}
    (hcount : count.PrecedenceClosed leeway) : (c.valueAfter count).PrecedenceClosed leeway := by
  have hinit_level := level_wrapped c.init
  have hcount_level := level_wrapped count
  have hprec : (if c.countsUp then BinaryOp.add else .sub).precedence = 5 := by split <;> rfl
  unfold valueAfter
  dsimp only
  cases hc : c.step with
  | none => exact (precedenceClosed_sum hprec hinit.wrapped (by omega) hcount.wrapped
      hcount_level).1
  | some step =>
    have hstep_level := level_wrapped step
    have hoffset : (mkBinary .mul step.wrapped count.wrapped).PrecedenceClosed leeway :=
      .mkBinary (p := 4) rfl rfl (hstep step hc).wrapped (by omega) hcount.wrapped (by omega)
    exact (precedenceClosed_sum hprec hinit.wrapped (by omega) hoffset.mkParens (by simp)).1

end CanonicalLoop

/-- The expressions that the statement itself holds keep their groups. -/
def Statement.PrecedenceClosed (leeway : Leeway) (s : Statement) : Prop :=
  ∀ e ∈ s.exprs, e.PrecedenceClosed leeway

namespace Tile

variable {o : TileOptions} {t : SymbolTable} {l : Loop} {a : Attribute} {c : CanonicalLoop}
  {size bound : Expr}

theorem compare_eq (c : CanonicalLoop) (bound : Expr) (place : Location) : ∃ place',
    compare c bound place = binary (.binary c.checkOp)
      (if c.boundOnRight then .ofVar c.iterator place else bound)
      (if c.boundOnRight then bound else .ofVar c.iterator place) place' := by
  unfold compare
  cases c.boundOnRight
  · exact ⟨bound.location, rfl⟩
  · exact ⟨place, rfl⟩

/-- Another bound may stand in the check if it is as tight as the one that stands there. -/
theorem precedenceClosed_compare (hop : c.checkOp.isOrdering) (place : Location) :
    (compare c bound place).PrecedenceClosed leeway ↔ bound.PrecedenceClosed leeway ∧
      if c.boundOnRight then bound.level < 7 else bound.level ≤ 7 := by
  obtain ⟨place', heq⟩ := compare_eq c bound place
  rw [heq]
  exact CanonicalLoop.precedenceClosed_comparison hop place place'

/-- A block reaches as far as an operand of a product, or a group. -/
theorem precedenceClosed_extent (hsize : size.PrecedenceClosed leeway)
    (hstep : ∀ step ∈ c.step, step.PrecedenceClosed leeway) :
    (extent c size).PrecedenceClosed leeway ∧ (extent c size).level ≤ 2 := by
  unfold extent
  split
  case h_1 step hc =>
    have hsize_level := level_wrapped size
    have hproduct : (mkBinary .mul size.wrapped step.mkParens).PrecedenceClosed leeway :=
      .mkBinary (p := 4) rfl rfl hsize.wrapped (by omega) (hstep step hc).mkParens (by simp)
    exact ⟨hproduct.mkParens, by simp⟩
  case h_2 => exact ⟨hsize.wrapped, level_wrapped size⟩

/-! ### The two headers -/

/-- The header of the block loop is that of the loop, its update an assignment. -/
theorem precedenceClosed_blockLoop (hd : c.Describes l) (hinit : c.init.PrecedenceClosed leeway)
    (hcheck : l.check.PrecedenceClosed leeway)
    (hreach : (extent c size).PrecedenceClosed leeway ∧ (extent c size).level ≤ 2)
    (blockVar : VarId) (blockScope : ScopeId) (body : List Statement) :
    let block := blockLoop l a c (extent c size) blockVar blockScope body
    block.init.PrecedenceClosed leeway ∧ block.check.PrecedenceClosed leeway ∧
      block.update.PrecedenceClosed leeway := by
  obtain ⟨_, hi⟩ := hd.init
  obtain ⟨use, place, place', hc⟩ := hd.check
  have hprec : (if c.countsUp then BinaryOp.addAssign else .subAssign).precedence = 15 := by
    split <;> rfl
  have hsource : (Substitution.mk (.variable c.iterator) (.variable blockVar)).source
      = .variable c.iterator := rfl
  have hreach_level := hreach.2
  refine ⟨?_, ?_, ?_⟩
  · simp only [blockLoop, hi, Statement.substitute_declare hsource]
    exact List.forall_mem_singleton.mpr (hinit.substitute _ _)
  · rw [hc] at hcheck
    simp only [blockLoop, hc, Statement.substitute_expression hsource]
    exact List.forall_mem_singleton.mpr
      ((List.forall_mem_singleton.mp hcheck).substitute _ _)
  · exact List.forall_mem_singleton.mpr
      (.mkAssign hprec rfl (.ofVar _ _) (by simp) hreach.1 (by omega))

/-- The inner loop starts with a variable and stops at a group. -/
theorem precedenceClosed_innerLoop (hd : c.Describes l)
    (hreach : (extent c size).PrecedenceClosed leeway ∧ (extent c size).level ≤ 2)
    (blockVar : VarId) (body : List Statement) :
    let inner := innerLoop l a c (extent c size) blockVar body
    inner.init.PrecedenceClosed leeway ∧ inner.check.PrecedenceClosed leeway := by
  have hprec : (if c.countsUp then BinaryOp.add else .sub).precedence = 5 := by split <;> rfl
  refine ⟨List.forall_mem_singleton.mpr (.ofVar _ _), List.forall_mem_singleton.mpr ?_⟩
  have hstop := (precedenceClosed_sum hprec (.ofVar blockVar l.check.location) (by simp) hreach.1
    hreach.2).1
  rw [precedenceClosed_compare hd.ordering]
  exact ⟨hstop.mkParens, by split <;> simp⟩

/-- The statements that the two headers are made of. -/
theorem precedenceClosed_headers (hd : c.Describes l) (hinit : c.init.PrecedenceClosed leeway)
    (hcheck : l.check.PrecedenceClosed leeway)
    (hreach : (extent c size).PrecedenceClosed leeway ∧ (extent c size).level ≤ 2)
    (blockVar : VarId) (blockScope : ScopeId) (outer body : List Statement) :
    let block := blockLoop l a c (extent c size) blockVar blockScope outer
    let inner := innerLoop l a c (extent c size) blockVar body
    ∀ part ∈ [block.init, block.check, block.update, inner.init, inner.check],
      part.PrecedenceClosed leeway := by
  obtain ⟨hi, hk, hu⟩ :=
    precedenceClosed_blockLoop (a := a) hd hinit hcheck hreach blockVar blockScope outer
  obtain ⟨hi', hk'⟩ := precedenceClosed_innerLoop (a := a) hd hreach blockVar body
  simp only [List.forall_mem_cons]
  exact ⟨hi, hk, hu, hi', hk', List.forall_mem_nil _⟩

/-- The guard compares the variable with the bound once more. -/
theorem precedenceClosed_guard (hd : c.Describes l) (hcheck : l.check.PrecedenceClosed leeway)
    (place : Location) : (compare c c.bound place).PrecedenceClosed leeway := by
  obtain ⟨use, place', place'', hc⟩ := hd.check
  rw [hc] at hcheck
  rw [precedenceClosed_compare hd.ordering,
    ← CanonicalLoop.precedenceClosed_comparison hd.ordering use place']
  exact List.forall_mem_singleton.mp hcheck

end Tile

/-! ### Flattened calls -/

namespace Flatten

/-- The index of expressions that keep their groups. -/
theorem precedenceClosed_index (place : Location) {pairs : List (Expr × Expr)} (hne : pairs ≠ [])
    (h : ∀ p ∈ pairs, p.1.PrecedenceClosed leeway ∧ p.2.PrecedenceClosed leeway) :
    (index place pairs).PrecedenceClosed leeway := by
  induction pairs with
  | nil => exact absurd rfl hne
  | cons p rest ih =>
    obtain ⟨⟨hindex, hextent⟩, hrest⟩ := List.forall_mem_cons.mp h
    cases rest with
    | nil => exact hindex
    | cons p' rest =>
      have hslow := ih (List.cons_ne_nil p' rest) hrest
      have hextent_level := level_wrapped p.2
      have hslow_level := level_wrapped (index place (p' :: rest))
      have hproduct : (mkBinary .mul p.2.wrapped
          (index place (p' :: rest)).wrapped).PrecedenceClosed leeway :=
        .mkBinary (p := 4) rfl rfl hextent.wrapped (by omega) hslow.wrapped (by omega)
      have hindex_level := level_wrapped p.1
      exact (precedenceClosed_sum rfl hindex.wrapped (by omega) hproduct.mkParens (by simp)).1

/-- Names are resolved in the parts of an index. -/
theorem resolve_index (t : SymbolTable) (scope : ScopeId) (place : Location)
    (pairs : List (Expr × Expr)) :
    t.resolve scope (index place pairs)
      = index place (pairs.map fun p => (t.resolve scope p.1, t.resolve scope p.2)) := by
  induction pairs with
  | nil => simp [index, SymbolTable.resolve]
  | cons p rest ih =>
    cases rest with
    | nil => rfl
    | cons p' rest =>
      have hcons : ∀ (p p' : Expr × Expr) rest, index place (p :: p' :: rest)
          = .mkBinary .add p.1.wrapped (mkBinary .mul p.2.wrapped
            (index place (p' :: rest)).wrapped).mkParens := fun _ _ _ => rfl
      simp only [List.map_cons] at ih
      simp only [List.map_cons, hcons, ← ih]
      simp only [SymbolTable.resolve, mapAtoms_mkBinary, mapAtoms_mkParens, mapAtoms_wrapped]

/-- The extents of the axes of a variable. -/
def extents (v : VariableDef) : List Expr :=
  ((v.attributes.find? dimName).map fun dim => dim.args.map Argument.value).getD []

/-- What a call has become keeps its groups if its arguments and the extents do. -/
theorem precedenceClosed_flat {t : SymbolTable} {scope : ScopeId} {id : VarId} {l place : Location}
    {args : List Expr} {d d' : Diagnostics} {flat : Expr}
    (h : visit t scope (.call (.ofVar id l) args place) d = (.ok (.replace flat), d'))
    (hparts : ∀ e ∈ args ++ extents (t.var id), e.PrecedenceClosed leeway ∧
      ∀ x ∈ e.atoms, ¬ t.NamesType scope x) :
    flat.PrecedenceClosed leeway := by
  obtain ⟨n, id', l', place', dim, indices, exts, p, hn, hcall, hdim, hexts, rfl⟩ :=
    visit_replace h
  obtain ⟨⟨⟨rfl⟩, -⟩, rfl, -⟩ :
      (id = id' ∧ l = l') ∧ args = List.ofFn indices ∧ place = place' := by
    simpa [ofVar] using hcall
  have hextents : extents (t.var id) = List.ofFn exts := by
    simp [extents, hdim, hexts]
  rw [hextents] at hparts
  refine .subscript (.ofVar id l') rfl ?_
  -- Names in the index are resolved, which keeps its groups since none is a type.
  rw [resolve_index]
  apply precedenceClosed_index
  · obtain ⟨n, rfl⟩ : ∃ k, n = k + 1 := ⟨n - 1, by omega⟩
    simp [List.ofFn_succ]
  · intro q hq
    obtain ⟨pair, hpair, rfl⟩ := List.mem_map.mp hq
    obtain ⟨j, rfl⟩ := List.mem_ofFn.mp hpair
    obtain ⟨hindex, hindex_names⟩ := hparts (indices (p j)) (by simp)
    obtain ⟨hextent, hextent_names⟩ := hparts (exts (p j)) (by simp)
    exact ⟨hindex.resolve hindex_names, hextent.resolve hextent_names⟩

end Flatten

/-! ### Everything that is generated -/

/-- **Generated expressions keep their groups.** If the parts of a canonical loop do, so do the
headers of the two loops that tile it, the guard of the body, how often the loop runs and the value
of its variable after some steps; and what a call becomes by flattening does if the arguments and
the extents do and name no type. -/
theorem precedenceClosed_generated (leeway : Leeway) :
    (∀ (o : TileOptions) (t : SymbolTable) (l : Loop) (a : Attribute) (size count : Expr)
        (c : CanonicalLoop) (scope : ScopeId), CanonicalLoop.recognize t l = .ok c →
      l.check.PrecedenceClosed leeway →
      (∀ e ∈ [c.init, c.bound, size, count] ++ c.step.toList, e.PrecedenceClosed leeway) →
      ∃ inner : Loop,
        (Tile.tile o t l a size c scope).1.body = [inner.toStatement] ∧
        (∀ part ∈ [(Tile.tile o t l a size c scope).1.init,
            (Tile.tile o t l a size c scope).1.check, (Tile.tile o t l a size c scope).1.update,
            inner.init, inner.check], part.PrecedenceClosed leeway) ∧
        inner.update = l.update ∧
        (if Tile.wantsGuard o a then ∃ branchScope condition place,
            inner.body = [.branch branchScope condition l.body none place] ∧
              condition.PrecedenceClosed leeway
          else inner.body = l.body) ∧
        c.iterationCount.PrecedenceClosed leeway ∧
        (c.valueAfter count).PrecedenceClosed leeway) ∧
    ∀ (t : SymbolTable) (scope : ScopeId) (id : VarId) (l place : Location) (args : List Expr)
        (d d' : Diagnostics) (flat : Expr),
      Flatten.visit t scope (.call (.ofVar id l) args place) d = (.ok (.replace flat), d') →
      (∀ e ∈ args ++ Flatten.extents (t.var id), e.PrecedenceClosed leeway ∧
        ∀ x ∈ e.atoms, ¬ t.NamesType scope x) →
      flat.PrecedenceClosed leeway := by
  constructor
  · intro o t l a size count c scope hc hcheck hparts
    have hd := CanonicalLoop.describes_of_recognize hc
    simp only [List.forall_mem_append, List.forall_mem_cons, Option.mem_toList] at hparts
    obtain ⟨⟨hinit, hbound, hsize, hcount, -⟩, hstep⟩ := hparts
    have hreach := Tile.precedenceClosed_extent hsize hstep
    have hcounts := CanonicalLoop.precedenceClosed_iterationCount hinit hbound hstep
    have hvalue := CanonicalLoop.precedenceClosed_valueAfter hinit hstep hcount
    have hguard := Tile.precedenceClosed_guard hd hcheck l.check.location
    have hheaders := fun blockScope => Tile.precedenceClosed_headers (a := a) hd hinit hcheck hreach
      t.nextVar blockScope
    by_cases hwants : Tile.wantsGuard o a
    · obtain ⟨blockScope, branchScope, htile⟩ := Tile.tile_of_guard t l size c scope hwants
      rw [htile]
      refine ⟨_, rfl, hheaders blockScope _ _, rfl, ?_, hcounts, hvalue⟩
      rw [if_pos hwants]
      exact ⟨_, _, _, rfl, List.forall_mem_singleton.mpr hguard⟩
    · obtain ⟨blockScope, htile⟩ := Tile.tile_of_not_guard t l size c scope hwants
      rw [htile]
      refine ⟨_, rfl, hheaders blockScope _ _, rfl, ?_, hcounts, hvalue⟩
      rw [if_neg hwants]
      rfl
  · intro t scope id l place args d d' flat h hparts
    exact Flatten.precedenceClosed_flat h hparts

/-- The sum `1 + 1`. -/
def sampleSum : Expr := mkBinary .add (Flatten.numeral 1) (Flatten.numeral 1)

/-- The only name in `A(1 + 1, 2)` and in the extents of `A` is that of a variable. -/
theorem not_namesType_sampleSum {e : Expr} {x : Atom}
    (he : e ∈ [sampleSum, Flatten.numeral 2] ++ Flatten.extents (Flatten.sampleTable.var ⟨0⟩))
    (hx : x ∈ e.atoms) : ¬ Flatten.sampleTable.NamesType .global x := by
  -- The names are computed once for all the parts together.
  have hatoms : ([sampleSum, Flatten.numeral 2]
      ++ Flatten.extents (Flatten.sampleTable.var ⟨0⟩)).flatMap Expr.atoms
      = [.value (.int 1), .value (.int 1), .value (.int 2), .value (.int 2), .identifier "W"] := by
    cbv
  have hmem := List.mem_flatMap_of_mem he hx
  rw [hatoms] at hmem
  rintro ⟨name, id, rfl, hlookup⟩
  obtain rfl : name = "W" := by simpa using hmem
  have hwidth : Flatten.sampleTable.lookup .global "W" = some (.variable ⟨1⟩) := by decide
  cases hwidth.symm.trans hlookup

/-- A sum as the number of steps of `for (int i = 0; i < 3; ++i; @tile(2))` and as an argument of
`A(1 + 1, 2)`, where no place may be empty and no value of a subscript loose. -/
theorem precedenceClosed_sampleSum :
    CanonicalLoop.recognize Tile.counterTable (Tile.counterLoop .less 3)
        = .ok (Tile.counterFacts .less 3) ∧
      ((Tile.counterFacts .less 3).valueAfter sampleSum).PrecedenceClosed ⟨False, False⟩ ∧
      ∃ flat, Flatten.visit Flatten.sampleTable .global
          (.call (.ofVar ⟨0⟩ .none) [sampleSum, Flatten.numeral 2] .none) (.empty none)
          = (.ok (.replace flat), .empty none) ∧
        flat.PrecedenceClosed ⟨False, False⟩ := by
  have hnumeral (x : Int32) : (ofValue (.int x) .none).PrecedenceClosed ⟨False, False⟩ :=
    .atom rfl
  have hsum : sampleSum.PrecedenceClosed ⟨False, False⟩ :=
    .mkBinary (p := 5) rfl rfl (hnumeral 1) (by decide) (hnumeral 1) (by decide)
  have hcheck : (Tile.counterLoop .less 3).check.PrecedenceClosed ⟨False, False⟩ :=
    List.forall_mem_singleton.mpr
      (.mkBinary (p := 7) rfl rfl (.ofVar _ _) (by decide) (hnumeral 3) (by decide))
  have hc := Tile.recognize_counterLoop .less rfl 3
  obtain ⟨htile, hflat⟩ := precedenceClosed_generated ⟨False, False⟩
  obtain ⟨inner, -, -, -, -, -, hvalue⟩ := htile .standard Tile.counterTable
    (Tile.counterLoop .less 3) Tile.tileByTwo (Flatten.numeral 2) sampleSum _ .global hc hcheck
    (by simp [Tile.counterFacts, Flatten.numeral, hsum, hnumeral])
  refine ⟨hc, hvalue, _, rfl, hflat Flatten.sampleTable .global ⟨0⟩ .none .none
    [sampleSum, Flatten.numeral 2] (.empty none) (.empty none) _ rfl ?_⟩
  intro e he
  refine ⟨?_, fun x hx => not_namesType_sampleSum he hx⟩
  have hparts : [sampleSum, Flatten.numeral 2] ++ Flatten.extents (Flatten.sampleTable.var ⟨0⟩)
      = [sampleSum, Flatten.numeral 2, Flatten.numeral 2, .atom (.identifier "W") .none] := rfl
  rw [hparts] at he
  simp only [List.mem_cons, List.not_mem_nil, or_false] at he
  obtain rfl | rfl | rfl | rfl := he
  · exact hsum
  · exact hnumeral 2
  · exact hnumeral 2
  · exact .atom rfl

end KernelTree
