import KernelTree.Proofs.Loop.Tile

/-!
# Traces of tiled loops

A loop with a strict check runs its body for the same values before and after tiling, and without
the guard for those that fill up the last block (`Tile.visits_strict`). With a check that includes
the bound, the inner loop runs through the first value of the next block too, so a loop of more
rounds than a block has runs some of its values twice (`Tile.visits_inclusive`).
-/

namespace KernelTree.Tile

variable {μ : Type} {M : Machine μ} {o : TileOptions} {t : SymbolTable} {l : Loop} {a : Attribute}
  {c : CanonicalLoop} {size : Expr} {s : Store μ} {vs : List Int}

/-! ### The shape of the result -/

/-- A canonical loop with a size is answered by its two loops. -/
theorem visit_eq (o : TileOptions) (st : State) (scope : ScopeId)
    (hattr : l.attributes.find? attributeName = some a) (hsize : size? a = some size)
    (hc : CanonicalLoop.recognize st.table l = .ok c) :
    visit o l.toStatement scope st
      = (.ok (.replace (tile o st.table l a size c scope).1.toStatement),
          { st with table := (tile o st.table l a size c scope).2 }) := by
  have hl : l.toStatement.loop? = some l := rfl
  simp only [visit, hl, hattr, hsize, hc]

/-- With a guard the inner loop has a branch for its body. -/
theorem tile_of_guard (t : SymbolTable) (l : Loop) (size : Expr) (c : CanonicalLoop)
    (scope : ScopeId) (hguard : wantsGuard o a) : ∃ blockScope branchScope,
    (tile o t l a size c scope).1
      = blockLoop l a c (extent c size) t.nextVar blockScope
          [(innerLoop l a c (extent c size) t.nextVar
            [.branch branchScope (.ofExpr (compare c c.bound l.check.location)) l.body none
              l.check.location]).toStatement] := by
  simp only [tile, hguard, if_true]
  exact ⟨_, _, rfl⟩

/-- Without a guard the inner loop has the body of the loop. -/
theorem tile_of_not_guard (t : SymbolTable) (l : Loop) (size : Expr) (c : CanonicalLoop)
    (scope : ScopeId) (hguard : ¬ wantsGuard o a) : ∃ blockScope,
    (tile o t l a size c scope).1
      = blockLoop l a c (extent c size) t.nextVar blockScope
          [(innerLoop l a c (extent c size) t.nextVar l.body).toStatement] := by
  simp only [tile, hguard]
  exact ⟨_, rfl⟩

/-! ### Guarded and unguarded blocks -/

/-- With the guard, no block runs the body past the last value of the loop. -/
theorem visits_guarded (scope : ScopeId) (h : Steady M t l c size) (hd : c.Describes l)
    (hguard : wantsGuard o a) {count n : Nat} (hcount : M.value s size = count) (hpos : 0 < count)
    (hstops : Stops M c s n) :
    Visits M l.body c.iterator (tile o t l a size c scope).1.toStatement s
      ((List.range (blockCount n count)).flatMap fun j =>
        progression (M.value s c.init) (c.stride M s) (j * count)
          (min (c.roundsUpTo count) (n - j * count))) := by
  obtain ⟨blockScope, branchScope, htile⟩ := tile_of_guard t l size c scope hguard
  rw [htile]
  refine visits_block n h hd (wraps_guard hd branchScope l.check.location) (by simp; omega)
    hcount hpos hstops (fun j hj i hi => ?_) blockScope
  have hn : 0 < n := Nat.lt_of_le_of_lt (Nat.zero_le _) (mul_lt_of_lt_blockCount hpos hj)
  simp only [hstops.admits_iff hn]

/-- Without the guard, a loop with a strict check fills up the last block. -/
theorem visits_unguarded (scope : ScopeId) (h : Steady M t l c size) (hd : c.Describes l)
    (hguard : ¬ wantsGuard o a) (hstrict : c.isInclusive = false) {count n : Nat}
    (hcount : M.value s size = count) (hpos : 0 < count) (hstops : Stops M c s n) :
    Visits M l.body c.iterator (tile o t l a size c scope).1.toStatement s
      (progression (M.value s c.init) (c.stride M s) 0 (blockCount n count * count)) := by
  obtain ⟨blockScope, htile⟩ := tile_of_not_guard t l size c scope hguard
  have hrounds : c.roundsUpTo count = count := by simp [CanonicalLoop.roundsUpTo, hstrict]
  rw [htile]
  have hvisits := visits_block (a := a) (blockCount n count * count) h hd wraps_self
    (Nat.le_refl _) hcount hpos hstops (fun j hj i hi => ?_) blockScope
  · rw [hrounds, flatMap_blocks, Nat.min_self] at hvisits
    exact hvisits
  · have hle : (j + 1) * count ≤ blockCount n count * count := Nat.mul_le_mul_right count hj
    rw [Nat.succ_mul] at hle
    rw [hrounds] at hi
    rw [if_pos (by omega)]

/-- A loop of several rounds moves its variable. -/
theorem nodup_of_stops {n : Nat} (hstops : Stops M c s n) :
    (progression (M.value s c.init) (c.stride M s) 0 n).Nodup := by
  rcases Nat.eq_zero_or_pos n with rfl | hn
  · exact List.nodup_nil
  · refine nodup_progression (fun hzero => ?_) 0 n
    have hpos := hstops.toward_pos hn
    simp [hzero, CanonicalLoop.toward] at hpos

/-! ### Strict checks -/

/-- **Tiling a loop with a strict check keeps its trace**: with the guard the body is run for the
same values in the same order, each once; without it they are followed by the values that the last
block lacks. -/
theorem visits_strict (o : TileOptions) (st : State) (scope : ScopeId)
    (hattr : l.attributes.find? attributeName = some a) (hsize : size? a = some size)
    (hc : CanonicalLoop.recognize st.table l = .ok c) (hstrict : c.isInclusive = false)
    (h : Steady M st.table l c size) (hpos : 1 ≤ M.value s size)
    (hrun : Visits M l.body c.iterator l.toStatement s vs) :
    ∃ tiled st', visit o l.toStatement scope st = (.ok (.replace tiled), st') ∧
      vs = progression (M.value s c.init) (c.stride M s) 0 vs.length ∧ vs.Nodup ∧
      ∀ ws, Visits M l.body c.iterator tiled s ws ↔
        ws = if wantsGuard o a then vs else
          vs ++ progression (M.value s c.init) (c.stride M s) vs.length
            (-(vs.length : Int) % M.value s size).toNat := by
  have hd := CanonicalLoop.describes_of_recognize hc
  obtain ⟨hstops, hvs⟩ := exists_stops h hd hrun
  obtain ⟨count, hcount⟩ := Int.eq_ofNat_of_zero_le (show 0 ≤ M.value s size by omega)
  have hcount_pos : 0 < count := by omega
  have hnodup := nodup_of_stops hstops
  rw [← hvs] at hnodup
  -- A nest has one trace, so it is enough to find it.
  refine ⟨_, _, visit_eq o st scope hattr hsize hc, hvs, hnodup, fun ws => ?_⟩
  have hvisits : Visits M l.body c.iterator (tile o st.table l a size c scope).1.toStatement s
      (if wantsGuard o a then vs else vs ++ progression (M.value s c.init) (c.stride M s) vs.length
        (-(vs.length : Int) % M.value s size).toNat) := by
    split
    case isTrue hguard =>
      have hrounds : c.roundsUpTo count = count := by simp [CanonicalLoop.roundsUpTo, hstrict]
      have hvisits := visits_guarded scope h hd hguard hcount hcount_pos hstops
      rw [hrounds, flatMap_blocks, blockCount_mul _ hcount_pos,
        Nat.min_eq_right (Nat.le_add_right _ _), ← hvs] at hvisits
      exact hvisits
    case isFalse hguard =>
      have hvisits := visits_unguarded scope h hd hguard hstrict hcount hcount_pos hstops
      rw [blockCount_mul _ hcount_pos, ← progression_append, Nat.zero_add, ← hvs,
        ← hcount] at hvisits
      exact hvisits
  exact ⟨fun hws => hws.unique hvisits, fun hws => hws ▸ hvisits⟩

/-- A machine that knows literals only. -/
def literals : Machine Unit where
  other _ e := match e with
    | .atom (.value (.int n)) _ => n.toInt
    | _ => 0
  run _ s := s
  other_set _ _ _ := rfl

/-- A table of one variable, `int i`. -/
def counterTable : SymbolTable :=
  ⟨#[⟨"int", .int⟩], #[⟨"i", .plain ⟨0⟩, [], .none⟩], #[], #[⟨none, []⟩]⟩

/-- The attribute `@tile(2)`. -/
def tileByTwo : Attribute :=
  ⟨attributeName, [⟨.ofValue (.int 2) .none, []⟩], [], .none⟩

/-- The loop `for (int i = 0; i op bound; ++i; @tile(2)) { i; }`. -/
def counterLoop (op : BinaryOp) (bound : Int32) : Loop where
  scope := .global
  init := .declare ⟨0⟩ (some (.ofValue (.int 0) .none)) .none
  check := .ofExpr (.mkBinary op (.ofVar ⟨0⟩ .none) (.ofValue (.int bound) .none))
  update := .ofExpr (.mkPrefixed (.pre .increment) (.ofVar ⟨0⟩ .none))
  body := [.ofExpr (.ofVar ⟨0⟩ .none)]
  attributes := [tileByTwo]
  location := .none

/-- What is recognized of it. -/
def counterFacts (op : BinaryOp) (bound : Int32) : CanonicalLoop where
  iterator := ⟨0⟩
  init := .ofValue (.int 0) .none
  checkOp := op
  bound := .ofValue (.int bound) .none
  boundOnRight := true
  updateOp := .pre .increment
  step := none
  countsUp := true
  location := .none

/-- The loop is canonical, whichever comparison by size it checks. -/
theorem recognize_counterLoop (op : BinaryOp) (hop : op.isOrdering) (bound : Int32) :
    CanonicalLoop.recognize counterTable (counterLoop op bound) = .ok (counterFacts op bound) := by
  cases op <;> first | rfl | cases hop

/-- A constant mentions no variable. -/
theorem not_mentions_ofValue (x : Value) (place : Location) (v : VarId) :
    ¬ (Expr.ofValue x place).Mentions v := by
  intro h
  cases h with
  | child hc => cases hc

/-- Nothing that the header needs changes while the loop runs. -/
theorem steady_counterLoop (op : BinaryOp) (bound : Int32) :
    Steady literals counterTable (counterLoop op bound) (counterFacts op bound)
      (.ofValue (.int 2) .none) := by
  have hliteral : ∀ e ∈ (counterFacts op bound).header (.ofValue (.int 2) .none), ∀ v,
      ¬ e.Mentions v := by
    simp [CanonicalLoop.header, counterFacts, not_mentions_ofValue]
  exact
    { iterator_known := Nat.zero_lt_one
      header_known := fun e he v hm => absurd hm (hliteral e he v)
      header_free := fun e he => hliteral e he _
      body_header := fun _ _ _ => rfl
      body_iterator := fun _ => rfl
      body_known := fun _ _ _ => rfl }

/-- All variables zero. -/
def zeroStore : Store Unit := ⟨fun _ => 0, ()⟩

/-- The loop stops after three rounds. -/
theorem stops_less_three : Stops literals (counterFacts .less 3) zeroStore 3 where
  admits := by decide
  refuses := by decide

/-- Options that leave the guard out, and a table with the variable of the loop. -/
def unguarded : TileOptions := { TileOptions.standard with guards := false }

/-- The table of the loop, and nothing reported. -/
def counterState : State := ⟨counterTable, .empty none⟩

/-- A last block that is not full runs past the end without a guard: the loop visits 0 to 2, the two
loops 0 to 3. -/
theorem visits_counterLoop_less :
    Steady literals counterTable (counterLoop .less 3) (counterFacts .less 3)
        (.ofValue (.int 2) .none) ∧
      Visits literals (counterLoop .less 3).body ⟨0⟩ (counterLoop .less 3).toStatement zeroStore
        [0, 1, 2] ∧
      ∃ tiled st', visit unguarded (counterLoop .less 3).toStatement .global counterState
          = (.ok (.replace tiled), st') ∧
        ∀ ws, Visits literals (counterLoop .less 3).body ⟨0⟩ tiled zeroStore ws ↔
          ws = [0, 1, 2, 3] := by
  have hc := recognize_counterLoop .less rfl 3
  have hsteady := steady_counterLoop .less 3
  have hrun := visits_of_stops hsteady (CanonicalLoop.describes_of_recognize hc) stops_less_three
  obtain ⟨tiled, st', hvisit, -, -, hws⟩ :=
    visits_strict unguarded counterState .global rfl rfl hc rfl hsteady (by decide) hrun
  exact ⟨hsteady, hrun, tiled, st', hvisit, hws⟩

/-! ### Checks that include the bound -/

/-- With the guard, each block reaches one value into the next. -/
theorem visits_overlapping (scope : ScopeId) (h : Steady M t l c size) (hd : c.Describes l)
    (hinclusive : c.isInclusive) (hguard : wantsGuard o a) {count n : Nat}
    (hcount : M.value s size = count) (hpos : 0 < count) (hstops : Stops M c s n) :
    Visits M l.body c.iterator (tile o t l a size c scope).1.toStatement s
      (overlapping (M.value s c.init) (c.stride M s) n count) := by
  have hvisits := visits_guarded scope h hd hguard hcount hpos hstops
  have hrounds : c.roundsUpTo count = count + 1 := by simp [CanonicalLoop.roundsUpTo, hinclusive]
  rw [hrounds] at hvisits
  exact hvisits

/-- **Tiling a loop whose check includes the bound repeats values.** Every value of the loop is run
and no other, but each block ends with the first value of the next one, so the trace is kept only
where one block is enough. -/
theorem visits_inclusive (o : TileOptions) (st : State) (scope : ScopeId)
    (hattr : l.attributes.find? attributeName = some a) (hsize : size? a = some size)
    (hc : CanonicalLoop.recognize st.table l = .ok c) (hinclusive : c.isInclusive)
    (hguard : wantsGuard o a) (h : Steady M st.table l c size) (hpos : 1 ≤ M.value s size)
    (hrun : Visits M l.body c.iterator l.toStatement s vs) :
    ∃ tiled st' ws, visit o l.toStatement scope st = (.ok (.replace tiled), st') ∧
      (∀ ws', Visits M l.body c.iterator tiled s ws' ↔ ws' = ws) ∧
      ws = overlapping (M.value s c.init) (c.stride M s) vs.length (M.value s size).toNat ∧
      (∀ x, x ∈ ws ↔ x ∈ vs) ∧ (ws.Nodup ↔ (vs.length : Int) ≤ M.value s size) ∧
      (ws = vs ↔ (vs.length : Int) ≤ M.value s size) := by
  have hd := CanonicalLoop.describes_of_recognize hc
  obtain ⟨hstops, hvs⟩ := exists_stops h hd hrun
  obtain ⟨count, hcount⟩ := Int.eq_ofNat_of_zero_le (show 0 ≤ M.value s size by omega)
  have hcount_pos : 0 < count := by omega
  -- The loop itself runs no value twice, and a trace is kept where one block holds it.
  have hnodup := nodup_of_stops hstops
  rw [← hvs] at hnodup
  have hvisits := visits_overlapping scope h hd hinclusive hguard hcount hcount_pos hstops
  rw [hcount, Int.toNat_natCast]
  have hkept : vs.length ≤ count →
      overlapping (M.value s c.init) (c.stride M s) vs.length count = vs :=
    fun hle => (overlapping_of_le hcount_pos hle).trans hvs.symm
  have honce : (overlapping (M.value s c.init) (c.stride M s) vs.length count).Nodup →
      vs.length ≤ count :=
    fun hws => Nat.le_of_not_lt fun hlt => not_nodup_overlapping hcount_pos hlt hws
  refine ⟨_, _, overlapping (M.value s c.init) (c.stride M s) vs.length count,
    visit_eq o st scope hattr hsize hc, fun ws' => ⟨fun hws => hws.unique hvisits, ?_⟩, rfl,
    fun x => ?_, ⟨fun hws => ?_, fun hle => ?_⟩, ⟨fun hws => ?_, fun hle => hkept (by omega)⟩⟩
  · rintro rfl
    exact hvisits
  · rw [mem_overlapping hcount_pos, ← hvs]
  · have := honce hws
    omega
  · rw [hkept (by omega)]
    exact hnodup
  · rw [← hws] at hnodup
    have := honce hnodup
    omega

/-- With its bound let in, the loop stops after three rounds as well. -/
theorem stops_lessEq_two : Stops literals (counterFacts .lessEq 2) zeroStore 3 where
  admits := by decide
  refuses := by decide

/-- The bound of each block is let in too, so that the first value of the next block is visited
twice. -/
theorem visits_counterLoop_lessEq :
    Steady literals counterTable (counterLoop .lessEq 2) (counterFacts .lessEq 2)
        (.ofValue (.int 2) .none) ∧
      ∃ tiled st' ws, visit .standard (counterLoop .lessEq 2).toStatement .global counterState
          = (.ok (.replace tiled), st') ∧
        (∀ ws', Visits literals (counterLoop .lessEq 2).body ⟨0⟩ tiled zeroStore ws' ↔ ws' = ws) ∧
        ws = [0, 1, 2, 2] ∧ ¬ ws.Nodup := by
  have hc := recognize_counterLoop .lessEq rfl 2
  have hsteady := steady_counterLoop .lessEq 2
  have hrun := visits_of_stops hsteady (CanonicalLoop.describes_of_recognize hc) stops_lessEq_two
  obtain ⟨tiled, st', ws, hvisit, hvisits, hws, -, hnodup, -⟩ :=
    visits_inclusive .standard counterState .global rfl rfl hc rfl rfl hsteady (by decide) hrun
  refine ⟨hsteady, tiled, st', ws, hvisit, hvisits, hws, ?_⟩
  rw [hnodup]
  decide

/-- The loop `for (int i = 0; i <= 2; ++i)` has three rounds, and four when it is tiled by two. -/
theorem counterLoop_lessEq_repeats :
    Visits literals (counterLoop .lessEq 2).body ⟨0⟩ (counterLoop .lessEq 2).toStatement zeroStore
        [0, 1, 2] ∧
      ∃ tiled st', visit .standard (counterLoop .lessEq 2).toStatement .global counterState
          = (.ok (.replace tiled), st') ∧
        Visits literals (counterLoop .lessEq 2).body ⟨0⟩ tiled zeroStore [0, 1, 2, 2] ∧
        ¬ Visits literals (counterLoop .lessEq 2).body ⟨0⟩ tiled zeroStore [0, 1, 2] := by
  have hc := recognize_counterLoop .lessEq rfl 2
  have hd := CanonicalLoop.describes_of_recognize hc
  have hsteady := steady_counterLoop .lessEq 2
  have hsize : literals.value zeroStore (.ofValue (.int 2) .none) = (2 : Nat) := rfl
  have htiled := visits_overlapping (o := .standard) (a := tileByTwo) .global hsteady hd rfl rfl
    hsize (by decide) stops_lessEq_two
  refine ⟨visits_of_stops hsteady hd stops_lessEq_two, _, _,
    visit_eq .standard counterState .global rfl rfl hc, htiled, fun hwrong => ?_⟩
  have := htiled.unique hwrong
  revert this
  decide

end KernelTree.Tile
