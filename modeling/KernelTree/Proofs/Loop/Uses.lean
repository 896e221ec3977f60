import KernelTree.Proofs.Loop.Canonical

/-!
# Where the variable of a tiled loop is used

Init and check of the block loop are those of the loop with the block variable in them, and in its
update stands the extent of a block, with the step as it was. So outside of the inner loop, which
declares it, nothing refers to the variable of the loop but the step (`Statement.tile_hides`).
-/

namespace KernelTree

variable {o : TileOptions} {t : SymbolTable} {l : Loop} {a : Attribute} {c : CanonicalLoop}
  {size : Expr} {k : ScopeId} {x : Symbol}

namespace Tile

/-- The block loop has the inner loop, which declares the variable, for its body, and its init and
its check do not refer to the variable. Its update does where the step does, and without that all
uses of the variable are inside the inner loop. -/
structure Hides (c : CanonicalLoop) (block inner : Loop) : Prop where
  body : block.body = [inner.toStatement]
  declares : ∃ value place, inner.init = .declare c.iterator value place
  init : ¬ block.init.Refers (.variable c.iterator)
  check : ¬ block.check.Refers (.variable c.iterator)
  update : block.update.Refers (.variable c.iterator) ↔
    ∃ step, c.step = some step ∧ step.Refers (.variable c.iterator)
  confined : (∀ part ∈ block.toStatement.parts, part.Refers (.variable c.iterator) →
    part = inner.toStatement) ↔
      ∀ step, c.step = some step → ¬ step.Refers (.variable c.iterator)

theorem refers_extent_iff (c : CanonicalLoop) (size : Expr) :
    (extent c size).Refers x ↔ size.Refers x ∨ ∃ step, c.step = some step ∧ step.Refers x := by
  unfold extent
  cases c.step <;> simp

theorem ne_nextVar (hiterator : c.iterator.index < t.vars.size) : c.iterator ≠ t.nextVar := by
  intro h
  rw [h] at hiterator
  exact Nat.lt_irrefl _ hiterator

theorem refers_update_blockLoop_iff (hiterator : c.iterator.index < t.vars.size)
    (hsize : ¬ size.Refers (.variable c.iterator)) (scope : ScopeId) (body : List Statement) :
    (blockLoop l a c (extent c size) t.nextVar scope body).update.Refers (.variable c.iterator) ↔
      ∃ step, c.step = some step ∧ step.Refers (.variable c.iterator) := by
  have hne : Symbol.variable c.iterator ≠ .variable t.nextVar :=
    fun h => ne_nextVar hiterator (Symbol.variable.inj h)
  simp only [blockLoop, Statement.ofExpr, Statement.refers_expression_iff,
    Expr.refers_mkBinary_iff, Expr.refers_ofVar_iff, refers_extent_iff, hne, hsize, false_or]

theorem forall_parts_iff {block inner : Loop} (hbody : block.body = [inner.toStatement])
    {P : Statement → Prop} : (∀ part ∈ block.toStatement.parts, P part) ↔
      P block.init ∧ P block.check ∧ P block.update ∧ P inner.toStatement := by
  have hparts : block.toStatement.parts
      = [block.init, block.check, block.update, inner.toStatement] := by
    rw [Loop.toStatement, Statement.parts, hbody]
  simp [hparts]

theorem hides_blockLoop (hiterator : c.iterator.index < t.vars.size)
    (hsize : ¬ size.Refers (.variable c.iterator)) (scope : ScopeId) (body : List Statement) :
    Hides c (blockLoop l a c (extent c size) t.nextVar scope
        [(innerLoop l a c (extent c size) t.nextVar body).toStatement])
      (innerLoop l a c (extent c size) t.nextVar body) := by
  let inner := innerLoop l a c (extent c size) t.nextVar body
  have halike := Symbol.Alike.variable c.iterator t.nextVar
  have hne : Symbol.variable c.iterator ≠ .variable t.nextVar :=
    fun h => ne_nextVar hiterator (Symbol.variable.inj h)
  have hinit := Statement.not_refers_substitute halike hne l.init
  have hcheck := Statement.not_refers_substitute halike hne l.check
  have hupdate := refers_update_blockLoop_iff (l := l) (a := a) hiterator hsize scope
    [inner.toStatement]
  refine ⟨rfl, ⟨_, _, rfl⟩, hinit, hcheck, hupdate, (forall_parts_iff rfl).trans ⟨?_, ?_⟩⟩
  · rintro ⟨-, -, hall, -⟩ step hstep hrefers
    -- Else the update would be the inner loop.
    have hsame := hall (hupdate.mpr ⟨step, hstep, hrefers⟩)
    cases hsame
  · intro hstep
    refine ⟨fun h => absurd h hinit, fun h => absurd h hcheck, fun h => ?_, fun _ => rfl⟩
    obtain ⟨step, hsome, hrefers⟩ := hupdate.mp h
    exact absurd hrefers (hstep step hsome)

theorem exists_hides (o : TileOptions) (a : Attribute) (l : Loop) (k : ScopeId)
    (hiterator : c.iterator.index < t.vars.size)
    (hsize : ¬ size.Refers (.variable c.iterator)) :
    ∃ inner, Hides c (tile o t l a size c k).1 inner := by
  by_cases hguard : wantsGuard o a
  · obtain ⟨blockScope, branchScope, htile⟩ := tile_of_guard t l size c k hguard
    exact ⟨_, htile ▸ hides_blockLoop hiterator hsize _ _⟩
  · obtain ⟨blockScope, htile⟩ := tile_of_not_guard t l size c k hguard
    exact ⟨_, htile ▸ hides_blockLoop hiterator hsize _ _⟩

end Tile

namespace Statement

variable {s : Statement} {st st' : Tile.State}

section

variable (hattr : l.attributes.find? Tile.attributeName = some a) (hsize : Tile.size? a = some size)
  (hc : CanonicalLoop.recognize st.table l = .ok c)

include hattr hsize hc

/-- A canonical loop with nothing to tile in its body becomes two loops around this body. -/
theorem tile_of_untiled_body (hbody : ∀ s ∈ l.body, s.Everywhere Untiled) :
    l.toStatement.tile o k st = ((Tile.tile o st.table l a size c k).1.toStatement,
      ⟨{ st with table := (Tile.tile o st.table l a size c k).2 }, none⟩) := by
  obtain ⟨hinit, hcheck, hupdate⟩ :=
    Tile.everywhere_untiled_header (CanonicalLoop.describes_of_recognize hc)
  exact tile_of_untiled_parts (List.forall_mem_cons.mpr ⟨hinit, List.forall_mem_cons.mpr
    ⟨hcheck, List.forall_mem_cons.mpr ⟨hupdate, hbody⟩⟩⟩) (Tile.visit_eq o st k hattr hsize hc)

/-- Any canonical loop becomes two loops around what its body has become, if the run succeeds. -/
theorem exists_tile_of_run (hiterator : c.iterator.index < st.table.vars.size)
    (hrun : l.toStatement.tile o k st = (s, ⟨st', none⟩)) :
    ∃ body t, st.table.Extends t ∧
      s = (Tile.tile o t (l.withBody body) a size c k).1.toStatement := by
  have hd := CanonicalLoop.describes_of_recognize hc
  obtain ⟨body, v, st₁, hext, hvisit, rfl⟩ :=
    exists_visit_of_tile (plainHeader_of_describes hd) hrun
  obtain ⟨place, hinit⟩ := hd.init
  have hc₁ : CanonicalLoop.recognize st₁.table (l.withBody body) = .ok c :=
    (CanonicalLoop.recognize_withBody hext (Loop.declaresKnown_of_declare hinit hiterator)
      body).trans hc
  have hvisit₁ := Tile.visit_eq o st₁ k (l := l.withBody body) hattr hsize hc₁
  obtain ⟨hanswer, -⟩ := Prod.mk.inj (hvisit.symm.trans hvisit₁)
  obtain rfl := Except.ok.inj hanswer
  exact ⟨body, st₁.table, hext, rfl⟩

end

/-- **Only a step brings the variable of the loop into the block loop.** Where the step does not use
it, all uses of the variable are inside the inner loop, and where the step does, the update of the
block loop does too, before the inner loop has declared the variable. This holds of a visit,
whatever the body is, and of every run that succeeds. -/
theorem tile_hides {a : Attribute} {size : Expr} (o : TileOptions) (k : ScopeId) (st : Tile.State)
    (hattr : l.attributes.find? Tile.attributeName = some a) (hsize : Tile.size? a = some size)
    (hc : CanonicalLoop.recognize st.table l = .ok c)
    (hiterator : c.iterator.index < st.table.vars.size)
    (hfree : ¬ size.Refers (.variable c.iterator)) :
    (∃ block inner st', Tile.visit o l.toStatement k st = (.ok (.replace block.toStatement), st') ∧
      Tile.Hides c block inner ∧
      ((∀ s ∈ l.body, s.Everywhere Untiled) →
        l.toStatement.tile o k st = (block.toStatement, ⟨st', none⟩))) ∧
    ∀ s st', l.toStatement.tile o k st = (s, ⟨st', none⟩) → ∃ block inner,
      s = block.toStatement ∧ Tile.Hides c block inner := by
  refine ⟨?_, fun s st' hrun => ?_⟩
  · obtain ⟨inner, hhides⟩ := Tile.exists_hides o a l k hiterator hfree
    exact ⟨_, inner, _, Tile.visit_eq o st k hattr hsize hc, hhides,
      tile_of_untiled_body hattr hsize hc⟩
  · obtain ⟨body, t, hext, rfl⟩ := exists_tile_of_run hattr hsize hc hiterator hrun
    obtain ⟨inner, hhides⟩ :=
      Tile.exists_hides o a (l.withBody body) k (hext.var _ hiterator).1 hfree
    exact ⟨_, inner, rfl, hhides⟩

/-- The variable is in the bound of the loop, and still in no part of the block loop but the inner
loop. -/
theorem tile_hides_mirroredLoop : ∃ (block : Loop) (inner : Statement) (st' : Tile.State),
    mirroredLoop.toStatement.tile .standard .global Tile.counterState
        = (block.toStatement, ⟨st', none⟩) ∧
      ∀ part ∈ block.toStatement.parts, part.Refers (.variable ⟨0⟩) → part = inner := by
  obtain ⟨⟨block, inner, st', -, hhides, hrun⟩, -⟩ :=
    tile_hides (c := mirroredFacts) .standard .global Tile.counterState
      (show mirroredLoop.attributes.find? Tile.attributeName = some Tile.tileByTwo from rfl) rfl rfl
      Nat.zero_lt_one (by simp)
  refine ⟨block, inner.toStatement, st', hrun (List.forall_mem_nil _), hhides.confined.mpr ?_⟩
  rintro step hstep
  obtain rfl := Option.some.inj hstep
  simp

/-- The loop `for (int i = 1; i < 8; i += i; @tile(2)) {}`, which has its variable for its step. -/
def growingLoop : Loop where
  scope := .global
  init := .declare ⟨0⟩ (some (.ofValue (.int 1) .none)) .none
  check := .ofExpr (.mkBinary .less (.ofVar ⟨0⟩ .none) (.ofValue (.int 8) .none))
  update := .ofExpr (.mkBinary .addAssign (.ofVar ⟨0⟩ .none) (.ofVar ⟨0⟩ .none))
  body := []
  attributes := [Tile.tileByTwo]
  location := .none

/-- What is recognized of it. -/
def growingFacts : CanonicalLoop where
  iterator := ⟨0⟩
  init := .ofValue (.int 1) .none
  checkOp := .less
  bound := .ofValue (.int 8) .none
  boundOnRight := true
  updateOp := .binary .addAssign
  step := some (.ofVar ⟨0⟩ .none)
  countsUp := true
  location := .none

/-- Its variable is used in the update of the block loop. -/
theorem growingLoop_escapes :
    CanonicalLoop.recognize Tile.counterTable growingLoop = .ok growingFacts ∧
      Tile.size? Tile.tileByTwo = some (.ofValue (.int 2) .none) ∧
      ¬ (Expr.ofValue (.int 2) .none).Refers (.variable growingFacts.iterator) ∧
      ∃ (block : Loop) (st' : Tile.State),
        growingLoop.toStatement.tile .standard .global Tile.counterState
          = (block.toStatement, ⟨st', none⟩) ∧
        block.update.Refers (.variable growingFacts.iterator) := by
  have hc : CanonicalLoop.recognize Tile.counterTable growingLoop = .ok growingFacts := rfl
  have hattr : growingLoop.attributes.find? Tile.attributeName = some Tile.tileByTwo := rfl
  have hrun : growingLoop.toStatement.tile .standard .global Tile.counterState = _ :=
    tile_of_untiled_body hattr rfl hc (List.forall_mem_nil _)
  refine ⟨hc, rfl, by simp, _, _, hrun, ?_⟩
  exact (Tile.refers_update_blockLoop_iff Nat.zero_lt_one (by simp) _ _).mpr
    ⟨_, rfl, by simp [growingFacts]⟩

end Statement

end KernelTree
