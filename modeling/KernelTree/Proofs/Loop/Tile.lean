import KernelTree.Proofs.Loop.Header
import KernelTree.Proofs.Loop.Progression
import KernelTree.Proofs.Loop.Rounds

/-!
# What tiled loops run

Where the header of a loop stays as it is while the loop runs (`Tile.Steady`), the inner loop runs
the body for one block of the progression that the loop runs through, and the block loop does so for
one block after the other (`Tile.executes_block`).
-/

namespace KernelTree

variable {μ : Type} {M : Machine μ} {o : TileOptions} {t : SymbolTable} {l : Loop} {a : Attribute}
  {c : CanonicalLoop} {size : Expr} {s s₀ : Store μ}

/-- The handle that the next variable will get. -/
def SymbolTable.nextVar (t : SymbolTable) : VarId := ⟨t.vars.size⟩

/-- The expressions of a header that tiling makes use of. -/
def CanonicalLoop.header (c : CanonicalLoop) (size : Expr) : List Expr :=
  c.init :: c.bound :: size :: c.step.toList

/-- The expressions have the values that they have in `s₀`. -/
def Machine.Agrees (M : Machine μ) (es : List Expr) (s₀ s : Store μ) : Prop :=
  ∀ e ∈ es, M.value s e = M.value s₀ e

namespace CanonicalLoop

/-- The bound keeps its value while the header agrees with how it began. -/
theorem value_bound (h : M.Agrees (c.header size) s₀ s) :
    M.value s c.bound = M.value s₀ c.bound :=
  h _ (by simp [header])

/-- The size of the tiles keeps its value while the header agrees with how it began. -/
theorem value_size (h : M.Agrees (c.header size) s₀ s) : M.value s size = M.value s₀ size :=
  h _ (by simp [header])

/-- The step keeps its value while the header agrees with how it began. -/
theorem stride_eq (h : M.Agrees (c.header size) s₀ s) : c.stride M s = c.stride M s₀ := by
  unfold stride
  cases hstep : c.step with
  | none => rfl
  | some e =>
    have := h e (by simp [header, hstep])
    simp [this]

end CanonicalLoop

namespace Tile

/-- The header and the body of a loop keep out of each other's way: all variables are in the table,
no expression of the header mentions the variable of the loop, and the body changes neither that
variable nor the value of any of those expressions. -/
structure Steady (M : Machine μ) (t : SymbolTable) (l : Loop) (c : CanonicalLoop) (size : Expr) :
    Prop where
  iterator_known : c.iterator.index < t.vars.size
  header_known : ∀ e ∈ c.header size, ∀ v, e.Mentions v → v.index < t.vars.size
  header_free : ∀ e ∈ c.header size, ¬ e.Mentions c.iterator
  body_header : ∀ e ∈ c.header size, ∀ s, M.value (M.run l.body s) e = M.value s e
  body_iterator : ∀ s, (M.run l.body s).vars c.iterator = s.vars c.iterator
  body_known : ∀ s v, t.vars.size ≤ v.index → (M.run l.body s).vars v = s.vars v

namespace Steady

/-- The variable of the block loop is a new one. -/
theorem iterator_ne (h : Steady M t l c size) : c.iterator ≠ t.nextVar := by
  intro heq
  have := h.iterator_known
  rw [heq] at this
  exact Nat.lt_irrefl _ this

/-- Nothing in the header mentions the new variable. -/
theorem not_mentions_nextVar (h : Steady M t l c size) {e : Expr} (he : e ∈ c.header size) :
    ¬ e.Mentions t.nextVar :=
  fun hm => Nat.lt_irrefl _ (h.header_known e he _ hm)

/-- Moving the variable of the loop changes nothing that the header needs. -/
theorem agrees_set_iterator (h : Steady M t l c size) (hs : M.Agrees (c.header size) s₀ s)
    (x : Int) : M.Agrees (c.header size) s₀ (s.set c.iterator x) := fun e he => by
  rw [Machine.value_set (h.header_free e he), hs e he]

/-- Moving the variable of the block loop changes nothing that the header needs. -/
theorem agrees_set_nextVar (h : Steady M t l c size) (hs : M.Agrees (c.header size) s₀ s)
    (x : Int) : M.Agrees (c.header size) s₀ (s.set t.nextVar x) := fun e he => by
  rw [Machine.value_set (h.not_mentions_nextVar he), hs e he]

/-- A visit to the body changes nothing that the header needs. -/
theorem agrees_run (h : Steady M t l c size) (hs : M.Agrees (c.header size) s₀ s) :
    M.Agrees (c.header size) s₀ (M.run l.body s) := fun e he => by
  rw [h.body_header e he, hs e he]

end Steady

/-! ### Headers -/

/-- The update moves the variable by one step. -/
theorem perform_update (hd : c.Describes l) (s : Store μ) :
    M.perform s l.update = s.set c.iterator (s.vars c.iterator + c.stride M s) := by
  obtain ⟨e, place, hupdate, hfacts⟩ := hd.update
  rw [hupdate]
  simp only [Machine.perform, Machine.move?_of_updateOf? (M := M) (s := s) hfacts]
  rfl

/-- The check compares the variable with the bound, from whichever side it is written. -/
theorem holds_check (hd : c.Describes l) (s : Store μ) :
    M.holds s l.check ↔ c.Admits (s.vars c.iterator) (M.value s c.bound) := by
  obtain ⟨use, place, place', hcheck⟩ := hd.check
  rw [hcheck]
  exact CanonicalLoop.holds_comparison hd.ordering _ _ _ _

/-- The check of the loop with another bound compares with that one. -/
theorem holds_compare (hd : c.Describes l) (bound : Expr) (place : Location) (s : Store μ) :
    M.holds s (.ofExpr (compare c bound place))
      ↔ c.Admits (s.vars c.iterator) (M.value s bound) := by
  have hcompare : Statement.ofExpr (compare c bound place)
      = .expression (.binary (.binary c.checkOp)
          (if c.boundOnRight then .ofVar c.iterator place else bound)
          (if c.boundOnRight then bound else .ofVar c.iterator place)
          (compare c bound place).location) (compare c bound place).location := by
    unfold compare
    split <;> rfl
  rw [hcompare]
  exact CanonicalLoop.holds_comparison hd.ordering _ _ _ _

/-- A block reaches as far as its rounds times the step. -/
theorem value_extent (c : CanonicalLoop) (size : Expr) (s : Store μ) :
    M.value s (extent c size) = M.value s size * (c.step.map (M.value s)).getD 1 := by
  unfold extent
  cases c.step with
  | none => simp
  | some step => simp

/-- The signed extent of a block is as many strides as the tile size says. -/
theorem signed_extent (c : CanonicalLoop) (size : Expr) (s : Store μ) :
    (if c.countsUp then M.value s (extent c size) else -M.value s (extent c size))
      = M.value s size * c.stride M s := by
  rw [value_extent, CanonicalLoop.stride]
  split
  · rw [Int.one_mul]
  · rw [Int.neg_mul, Int.one_mul, Int.mul_neg]

/-! ### The inner loop -/

/-- Run behind the check of the inner loop, `body` runs the body of the loop for the values `out`,
and leaves the store as it is or as the body of the loop leaves it. -/
def Wraps (M : Machine μ) (l : Loop) (c : CanonicalLoop) (size : Expr) (s₀ : Store μ)
    (body : List Statement) (out : Int → List Int) : Prop :=
  ∀ s, M.Agrees (c.header size) s₀ s →
    ∃ s', Executes M l.body c.iterator (.statements body) s (out (s.vars c.iterator)) s' ∧
      (s' = s ∨ s' = M.run l.body s)

/-- Without a guard the body is run for every value. -/
theorem wraps_self : Wraps M l c size s₀ l.body fun x => [x] :=
  fun _ _ => ⟨_, .body rfl, .inr rfl⟩

/-- Whether a value passes a check can be computed. -/
instance (x bound : Int) : Decidable (c.Admits x bound) := Int.decLe _ _

/-- A list of one statement is no part of that statement. -/
theorem singleton_ne_of_sizeOf {st : Statement} {body : List Statement}
    (h : sizeOf body < sizeOf st) : [st] ≠ body := by
  rintro rfl
  simp at h
  omega

/-- With a guard the body is run for the values that the check of the loop lets pass. -/
theorem wraps_guard (hd : c.Describes l) (scope : ScopeId) (place : Location) :
    Wraps M l c size s₀ [.branch scope (.ofExpr (compare c c.bound place)) l.body none place]
      fun x => if c.Admits x (M.value s₀ c.bound) then [x] else [] := by
  intro s hs
  have hne : [Statement.branch scope (.ofExpr (compare c c.bound place)) l.body none place]
      ≠ l.body := singleton_ne_of_sizeOf (by simp; omega)
  have hholds := holds_compare hd c.bound place s (M := M)
  rw [CanonicalLoop.value_bound hs] at hholds
  dsimp only
  split
  case isTrue h => exact ⟨_, .taken hne rfl (hholds.mpr h) (.body rfl), .inr rfl⟩
  case isFalse h => exact ⟨s, .skipped hne rfl (mt hholds.mp h), .inl rfl⟩

section

variable {body : List Statement} {out : Int → List Int}

/-- The inner loop starts at the variable of the block, visits the body where the guard lets it, and
stops behind one extent. -/
theorem inner_cycle (h : Steady M t l c size) (hd : c.Describes l)
    (hw : Wraps M l c size s₀ body out) (y : Int) :
    Cycle M l.body c.iterator (innerLoop l a c (extent c size) t.nextVar body) c.iterator
      (fun x => c.Admits x (y + M.value s₀ size * c.stride M s₀)) (c.stride M s₀) out
      (fun s => M.Agrees (c.header size) s₀ s ∧ s.vars t.nextVar = y) where
  check s hs := by
    obtain ⟨hagrees, rfl⟩ := hs
    have hsigned := signed_extent c size s (M := M)
    rw [CanonicalLoop.value_size hagrees, CanonicalLoop.stride_eq hagrees] at hsigned
    rw [← hsigned]
    have hcheck := holds_compare (M := M) hd
      (Expr.mkBinary (if c.countsUp then .add else .sub) (.ofVar t.nextVar l.check.location)
        (extent c size)).mkParens l.check.location s
    refine hcheck.trans ?_
    split <;> simp [Int.sub_eq_add_neg]
  round s hs hP := by
    obtain ⟨hagrees, hy⟩ := hs
    obtain ⟨s', hex, hs'⟩ := hw s hagrees
    -- The update is the same after a round that the guard skips and one that runs the body.
    have hstep (s' : Store μ) (hs' : M.Agrees (c.header size) s₀ s')
        (hnext : s'.vars t.nextVar = y) (hiter : s'.vars c.iterator = s.vars c.iterator) :
        (M.Agrees (c.header size) s₀ (M.perform s' l.update) ∧
          (M.perform s' l.update).vars t.nextVar = y) ∧
          (M.perform s' l.update).vars c.iterator = s.vars c.iterator + c.stride M s₀ := by
      rw [perform_update hd]
      refine ⟨⟨h.agrees_set_iterator hs' _, ?_⟩, ?_⟩
      · rw [Store.vars_set_of_ne _ h.iterator_ne.symm, hnext]
      · rw [Store.vars_set_self, hiter, CanonicalLoop.stride_eq hs']
    refine ⟨s', hex, ?_⟩
    obtain rfl | rfl := hs'
    · exact hstep s' hagrees hy rfl
    · exact hstep _ (h.agrees_run hagrees)
        ((h.body_known s t.nextVar (Nat.le_refl _)).trans hy) (h.body_iterator s)

/-- The inner loop runs for the values from the block variable on. -/
theorem executes_inner (h : Steady M t l c size) (hd : c.Describes l)
    (hw : Wraps M l c size s₀ body out) (hbody : sizeOf l.body ≤ sizeOf body)
    (hpos : 0 < c.toward (c.stride M s₀)) {count : Nat} (hcount : M.value s₀ size = count)
    (hs : M.Agrees (c.header size) s₀ s) :
    ∃ s', Executes M l.body c.iterator
        (.statements [(innerLoop l a c (extent c size) t.nextVar body).toStatement]) s
        ((List.range (c.roundsUpTo count)).flatMap fun i : Nat =>
          out (s.vars t.nextVar + i * c.stride M s₀)) s' ∧
      M.Agrees (c.header size) s₀ s' ∧ s'.vars t.nextVar = s.vars t.nextVar := by
  have hinit : M.perform s (innerLoop l a c (extent c size) t.nextVar body).init
      = s.set c.iterator (s.vars t.nextVar) := rfl
  have hs₁ : M.Agrees (c.header size) s₀ (s.set c.iterator (s.vars t.nextVar)) ∧
      (s.set c.iterator (s.vars t.nextVar)).vars t.nextVar = s.vars t.nextVar :=
    ⟨h.agrees_set_iterator hs _, Store.vars_set_of_ne _ h.iterator_ne.symm _⟩
  have hadmits (i : Nat) :=
    CanonicalLoop.admits_iff_lt_roundsUpTo (x := s.vars t.nextVar) hpos i count
  have hcycle := inner_cycle (a := a) h hd hw (s.vars t.nextVar)
  rw [hcount] at hcycle
  -- The inner loop is larger than the body it holds, so a run of it is not taken for a visit.
  have hne : [(innerLoop l a c (extent c size) t.nextVar body).toStatement] ≠ l.body :=
    singleton_ne_of_sizeOf (by simp [innerLoop, Loop.toStatement]; omega)
  obtain ⟨s', hex, hs'⟩ := hcycle.executes (n := c.roundsUpTo count) hs₁
    (fun i hi => by rwa [Store.vars_set_self, hadmits])
    (by rw [Store.vars_set_self, hadmits]; exact Nat.lt_irrefl _)
  rw [Store.vars_set_self] at hex
  exact ⟨s', .loop hne rfl (hinit ▸ hex), hs'⟩

/-! ### The block loop -/

/-- The block variable for the variable of the loop. -/
def blockSubstitution (t : SymbolTable) (c : CanonicalLoop) : Substitution :=
  ⟨.variable c.iterator, .variable t.nextVar⟩

/-- In the block loop the new variable stands for the old one. -/
theorem atom_iterator (t : SymbolTable) (c : CanonicalLoop) (place : Location) :
    (Expr.ofVar c.iterator place).mapAtoms (blockSubstitution t c).atom
      = .ofVar t.nextVar place := by
  simp [Expr.ofVar, blockSubstitution, Substitution.atom, Substitution.var]

/-- Nothing else in the header is replaced. -/
theorem mapAtoms_header (h : Steady M t l c size) {e : Expr} (he : e ∈ c.header size) :
    e.mapAtoms (blockSubstitution t c).atom = e :=
  Expr.mapAtoms_of_not_mentions (fun _ ha => Expr.atom_of_source rfl ha) (h.header_free e he)

/-- The block loop starts where the loop did. -/
theorem substitute_init (h : Steady M t l c size) (hd : c.Describes l) :
    ∃ place,
      l.init.substitute (blockSubstitution t c) = .declare t.nextVar (some c.init) place := by
  obtain ⟨place, hinit⟩ := hd.init
  refine ⟨place, ?_⟩
  rw [hinit, Statement.substitute_declare rfl, mapAtoms_header h (by simp [CanonicalLoop.header])]
  simp [blockSubstitution, Substitution.var]

/-- The block loop stops where the loop did. -/
theorem holds_substitute_check (h : Steady M t l c size) (hd : c.Describes l) (s : Store μ) :
    M.holds s (l.check.substitute (blockSubstitution t c))
      ↔ c.Admits (s.vars t.nextVar) (M.value s c.bound) := by
  obtain ⟨use, place, place', hcheck⟩ := hd.check
  have hbound : c.bound.mapAtoms (blockSubstitution t c).atom = c.bound :=
    mapAtoms_header h (by simp [CanonicalLoop.header])
  rw [hcheck, Statement.substitute_expression rfl, Expr.mapAtoms_binary,
    apply_ite (Expr.mapAtoms _), apply_ite (Expr.mapAtoms _), hbound, atom_iterator]
  exact CanonicalLoop.holds_comparison hd.ordering _ _ _ _

/-- The block loop moves by one extent and visits all that the inner loop visits from there. -/
theorem block_cycle (h : Steady M t l c size) (hd : c.Describes l)
    (hw : Wraps M l c size s₀ body out) (hbody : sizeOf l.body ≤ sizeOf body)
    (hpos : 0 < c.toward (c.stride M s₀)) {count : Nat} (hcount : M.value s₀ size = count)
    (scope : ScopeId) :
    Cycle M l.body c.iterator
      (blockLoop l a c (extent c size) t.nextVar scope
        [(innerLoop l a c (extent c size) t.nextVar body).toStatement])
      t.nextVar (fun y => c.Admits y (M.value s₀ c.bound)) (count * c.stride M s₀)
      (fun y => (List.range (c.roundsUpTo count)).flatMap fun i : Nat =>
        out (y + i * c.stride M s₀))
      (M.Agrees (c.header size) s₀) where
  check s hs := by
    have hcheck := holds_substitute_check h hd s
    rw [CanonicalLoop.value_bound hs] at hcheck
    exact hcheck
  round s hs hP := by
    obtain ⟨s', hex, hs', hnext⟩ := executes_inner (a := a) h hd hw hbody hpos hcount hs
    -- The update adds or takes away the extent, which is the size times the size of a step.
    have hmove : M.perform s' (blockLoop l a c (extent c size) t.nextVar scope
        [(innerLoop l a c (extent c size) t.nextVar body).toStatement]).update
        = s'.set t.nextVar (s'.vars t.nextVar + count * c.stride M s₀) := by
      have hsigned := signed_extent c size s' (M := M)
      rw [CanonicalLoop.value_size hs', CanonicalLoop.stride_eq hs', hcount] at hsigned
      rw [← hsigned]
      cases hup : c.countsUp <;>
        simp [blockLoop, hup, Statement.ofExpr, Expr.mkBinary, Expr.ofVar, Machine.perform,
          Machine.move?]
    refine ⟨s', hex, ?_, ?_⟩
    · rw [hmove]
      exact h.agrees_set_nextVar hs' _
    · rw [hmove, Store.vars_set_self, hnext]

end

/-! ### The loop itself -/

/-- The loop itself visits each of its values once. -/
theorem loop_cycle (h : Steady M t l c size) (hd : c.Describes l) :
    Cycle M l.body c.iterator l c.iterator (fun x => c.Admits x (M.value s₀ c.bound))
      (c.stride M s₀) (fun x => [x]) (M.Agrees (c.header size) s₀) where
  check s hs := by
    rw [holds_check hd, CanonicalLoop.value_bound hs]
  round s hs _ := by
    refine ⟨_, .body rfl, ?_, ?_⟩
    · rw [perform_update hd]
      exact h.agrees_set_iterator (h.agrees_run hs) _
    · rw [perform_update hd, Store.vars_set_self, h.body_iterator,
        CanonicalLoop.stride_eq (h.agrees_run hs)]

/-- What a run of a loop that ends says about its header: the loop stops after `n` rounds. -/
structure Stops (M : Machine μ) (c : CanonicalLoop) (s : Store μ) (n : Nat) : Prop where
  admits : ∀ k < n, c.Admits (M.value s c.init + (k : Nat) * c.stride M s) (M.value s c.bound)
  refuses : ¬ c.Admits (M.value s c.init + n * c.stride M s) (M.value s c.bound)

/-- A loop that makes a round and stops moves towards its bound. -/
theorem Stops.toward_pos {n : Nat} (h : Stops M c s n) (hn : 0 < n) :
    0 < c.toward (c.stride M s) := by
  obtain ⟨n, rfl⟩ := Nat.exists_eq_add_one_of_ne_zero (Nat.ne_of_gt hn)
  refine CanonicalLoop.toward_pos (h.admits n (Nat.lt_succ_self n)) ?_
  have hstep := add_stride (M.value s c.init) (c.stride M s) n
  have hrefuses := h.refuses
  rw [← hstep] at hrefuses
  rwa [Int.add_right_comm] at hrefuses

/-- The values that the loop runs through are the first that its check admits. -/
theorem Stops.admits_iff {n : Nat} (h : Stops M c s n) (hn : 0 < n) (k : Nat) :
    c.Admits (M.value s c.init + k * c.stride M s) (M.value s c.bound) ↔ k < n :=
  CanonicalLoop.admits_iff_lt (h.toward_pos hn) h.admits h.refuses k

/-- A loop is not what its body is. -/
theorem toStatement_ne : [l.toStatement] ≠ l.body :=
  singleton_ne_of_sizeOf (by simp [Loop.toStatement]; omega)

/-- A loop that stops runs through an arithmetic progression. -/
theorem visits_of_stops (h : Steady M t l c size) (hd : c.Describes l) {n : Nat}
    (hstops : Stops M c s n) :
    Visits M l.body c.iterator l.toStatement s
      (progression (M.value s c.init) (c.stride M s) 0 n) := by
  obtain ⟨place, hinit⟩ := hd.init
  have hstart : M.Agrees (c.header size) s (s.set c.iterator (M.value s c.init)) :=
    h.agrees_set_iterator (fun _ _ => rfl) _
  obtain ⟨s', hex, -⟩ := (loop_cycle h hd).executes (n := n) hstart
    (by rw [Store.vars_set_self]; exact hstops.admits)
    (by rw [Store.vars_set_self]; exact hstops.refuses)
  rw [Store.vars_set_self, ← List.map_eq_flatMap, List.range_eq_range'] at hex
  refine ⟨s', (executes_loop_iff toStatement_ne).mpr ?_⟩
  rw [hinit]
  exact hex

/-- A loop whose run ends has stopped. -/
theorem exists_stops (h : Steady M t l c size) (hd : c.Describes l) {vs : List Int}
    (hrun : Visits M l.body c.iterator l.toStatement s vs) :
    Stops M c s vs.length ∧
      vs = progression (M.value s c.init) (c.stride M s) 0 vs.length := by
  obtain ⟨s', hex⟩ := hrun
  obtain ⟨place, hinit⟩ := hd.init
  have hstart : M.Agrees (c.header size) s (s.set c.iterator (M.value s c.init)) :=
    h.agrees_set_iterator (fun _ _ => rfl) _
  have hrounds := (executes_loop_iff toStatement_ne).mp hex
  rw [hinit] at hrounds
  obtain ⟨n, hadmits, hrefuses⟩ := (loop_cycle h hd).exists_count hstart hrounds
  rw [Store.vars_set_self] at hadmits hrefuses
  have hstops : Stops M c s n := ⟨hadmits, hrefuses⟩
  have hvs := Visits.unique ⟨s', hex⟩ (visits_of_stops h hd hstops)
  rw [hvs, length_progression]
  exact ⟨hstops, rfl⟩

/-! ### Both loops -/

/-- The place of a value of a block in the whole progression. -/
theorem add_block (x d : Int) (j count i : Nat) :
    x + j * (count * d) + i * d = x + (j * count + i : Nat) * d := by
  rw [Int.natCast_add, Int.natCast_mul, Int.add_mul, Int.mul_assoc]
  omega

/-- The two loops run the body block by block; `limit` is the number from which on the values of the
progression are kept from the body. -/
theorem visits_block {body : List Statement} {out : Int → List Int} (limit : Nat)
    (h : Steady M t l c size) (hd : c.Describes l) (hw : Wraps M l c size s body out)
    (hbody : sizeOf l.body ≤ sizeOf body) {count n : Nat} (hcount : M.value s size = count)
    (hpos : 0 < count) (hstops : Stops M c s n)
    (hout : ∀ j < blockCount n count, ∀ i < c.roundsUpTo count,
      out (M.value s c.init + (j * count + i : Nat) * c.stride M s)
        = if j * count + i < limit then [M.value s c.init + (j * count + i : Nat) * c.stride M s]
          else [])
    (scope : ScopeId) :
    Visits M l.body c.iterator
      (blockLoop l a c (extent c size) t.nextVar scope
        [(innerLoop l a c (extent c size) t.nextVar body).toStatement]).toStatement s
      ((List.range (blockCount n count)).flatMap fun j =>
        progression (M.value s c.init) (c.stride M s) (j * count)
          (min (c.roundsUpTo count) (limit - j * count))) := by
  have hne : [(blockLoop l a c (extent c size) t.nextVar scope
      [(innerLoop l a c (extent c size) t.nextVar body).toStatement]).toStatement] ≠ l.body :=
    singleton_ne_of_sizeOf (by simp [blockLoop, innerLoop, Loop.toStatement]; omega)
  obtain ⟨place, hinit⟩ := substitute_init h hd
  have hstart : M.Agrees (c.header size) s (s.set t.nextVar (M.value s c.init)) :=
    h.agrees_set_nextVar (fun _ _ => rfl) _
  unfold Visits
  simp only [executes_loop_iff hne]
  rw [show (blockLoop l a c (extent c size) t.nextVar scope
    [(innerLoop l a c (extent c size) t.nextVar body).toStatement]).init
    = l.init.substitute (blockSubstitution t c) from rfl, hinit]
  -- A loop without rounds says nothing about its stride, which may then lead nowhere.
  rcases Nat.eq_zero_or_pos n with rfl | hn
  · have hzero : blockCount 0 count = 0 := Nat.div_eq_of_lt (by omega)
    have hcheck := holds_substitute_check h hd (s.set t.nextVar (M.value s c.init))
    rw [Store.vars_set_self, CanonicalLoop.value_bound hstart] at hcheck
    have hrefuses := hstops.refuses
    rw [Int.natCast_zero, Int.zero_mul, Int.add_zero, ← hcheck] at hrefuses
    rw [hzero]
    exact ⟨_, .done hrefuses⟩
  · have hcycle := block_cycle (a := a) h hd hw hbody (hstops.toward_pos hn) hcount scope
    have hadmits (j : Nat) : c.Admits (M.value s c.init + j * (count * c.stride M s))
        (M.value s c.bound) ↔ j * count < n := by
      rw [← hstops.admits_iff hn, Int.natCast_mul, Int.mul_assoc]
    have henough : n ≤ blockCount n count * count := by
      rw [blockCount_mul n hpos]
      exact Nat.le_add_right _ _
    obtain ⟨s', hex, -⟩ := hcycle.executes hstart
      (fun j hj => by
        rw [Store.vars_set_self, hadmits]
        exact mul_lt_of_lt_blockCount hpos hj)
      (by
        rw [Store.vars_set_self, hadmits]
        exact Nat.not_lt.mpr henough)
    refine ⟨s', ?_⟩
    have hvalues : ((List.range (blockCount n count)).map fun j : Nat =>
        (List.range (c.roundsUpTo count)).flatMap fun i : Nat =>
          out (M.value s c.init + j * (count * c.stride M s) + i * c.stride M s))
        = (List.range (blockCount n count)).map fun j =>
          progression (M.value s c.init) (c.stride M s) (j * count)
            (min (c.roundsUpTo count) (limit - j * count)) := by
      refine List.map_congr_left fun j hj => ?_
      simp only [add_block]
      exact flatMap_range_lt (hout j (List.mem_range.mp hj))
    rw [Store.vars_set_self, List.flatMap_def, hvalues] at hex
    exact hex

end Tile

end KernelTree
