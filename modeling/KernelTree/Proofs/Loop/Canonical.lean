import KernelTree.Proofs.Loop.Faults
import KernelTree.Proofs.Loop.Grammar

/-!
# Tiled loops are canonical

Tiling a canonical loop gives two canonical loops around the same body (`Tile.Splits`): one of the
block variable with the header of the loop, and one of the variable of the loop over one block. So
tiling never leaves the grammar that it asks of a loop (`Statement.tile_splits`).
-/

namespace KernelTree

variable {o : TileOptions} {t t' : SymbolTable} {l : Loop} {a : Attribute} {c : CanonicalLoop}
  {size : Expr} {k : ScopeId}

namespace Tile

open CanonicalLoop

/-- What is to be recognized of the block loop. -/
def blockFacts (t : SymbolTable) (c : CanonicalLoop) (size : Expr) : CanonicalLoop where
  iterator := t.nextVar
  init := c.init.mapAtoms (blockSubstitution t c).atom
  checkOp := c.checkOp
  bound := c.bound.mapAtoms (blockSubstitution t c).atom
  boundOnRight := c.boundOnRight
  updateOp := .binary (if c.countsUp then .addAssign else .subAssign)
  step := some (extent c size)
  countsUp := c.countsUp
  location := c.location

/-- What is to be recognized of the inner loop. -/
def innerFacts (t : SymbolTable) (l : Loop) (c : CanonicalLoop) (size : Expr) : CanonicalLoop :=
  { c with
    init := .ofVar t.nextVar l.init.location
    bound := (Expr.mkBinary (if c.countsUp then .add else .sub)
      (.ofVar t.nextVar l.check.location) (extent c size)).mkParens }

/-! ### The two headers -/

/-- A variable of the type of a declared one may be declared where that one is. -/
theorem declares_of_type {v w : VarId} {value value' : Expr} {init : Statement}
    (h : Declares t v value init) (htypes : t'.types = t.types)
    (hvar : (t'.var w).type = (t.var v).type) (place : Location) :
    Declares t' w value' (.declare w (some value') place) := by
  obtain ⟨hkind, hpointer⟩ := h
  refine .declaration ?_ ?_
  · rwa [hvar, SymbolTable.typeDef, htypes]
  · rwa [hvar]

theorem declares_block {init : Statement} {value : Expr}
    (h : Declares t c.iterator value init) (htypes : t'.types = t.types)
    (hvar : (t'.var t.nextVar).type = (t.var c.iterator).type) :
    Declares t' t.nextVar (value.mapAtoms (blockSubstitution t c).atom)
      (init.substitute (blockSubstitution t c)) := by
  have hblock (place : Location) : Declares t' t.nextVar
      (value.mapAtoms (blockSubstitution t c).atom) (.declare t.nextVar
        (some (value.mapAtoms (blockSubstitution t c).atom)) place) :=
    declares_of_type h htypes hvar place
  cases h with
  | @declaration place =>
    have hinit : (Statement.declare c.iterator (some value) place).substitute
        (blockSubstitution t c)
          = .declare t.nextVar (some (value.mapAtoms (blockSubstitution t c).atom)) place := by
      rw [Statement.substitute_declare rfl]
      simp [blockSubstitution, Substitution.var]
    exact hinit ▸ hblock place

/-- A bound is the block variable only where it was the variable of the loop. -/
theorem eq_ofVar_of_mapAtoms {bound : Expr} {use : Location}
    (hknown : ∀ v place, bound = .ofVar v place → v.index < t.vars.size)
    (h : bound.mapAtoms (blockSubstitution t c).atom = .ofVar t.nextVar use) :
    bound = .ofVar c.iterator use := by
  obtain ⟨leaf, rfl, hleaf⟩ := Expr.mapAtoms_eq_atom.mp h
  cases leaf with
  | «variable» v =>
    by_cases hv : v = c.iterator
    · rw [hv]
      rfl
    · have hsame : v = t.nextVar := by
        simpa [blockSubstitution, Substitution.atom, Substitution.var, hv] using hleaf
      have hlt := hknown v use rfl
      rw [hsame] at hlt
      exact absurd hlt (Nat.lt_irrefl _)
  | _ => simp [blockSubstitution, Substitution.atom] at hleaf

theorem compares_block {check : Statement} {op : BinaryOp} {bound : Expr} {boundOnRight : Bool}
    (hknown : ∀ v place, bound = .ofVar v place → v.index < t.vars.size)
    (h : Compares c.iterator op bound boundOnRight check) :
    Compares t.nextVar op (bound.mapAtoms (blockSubstitution t c).atom) boundOnRight
      (check.substitute (blockSubstitution t c)) := by
  cases h with
  | left hop =>
    rw [Statement.substitute_expression rfl, Expr.mapAtoms_binary, atom_iterator]
    exact .left hop
  | right hop hbound =>
    rw [Statement.substitute_expression rfl, Expr.mapAtoms_binary, atom_iterator]
    exact .right hop fun use h => hbound use (eq_ofVar_of_mapAtoms hknown h)

theorem recognize_blockLoop (hc : recognize t l = .ok c) (htypes : t'.types = t.types)
    (hvar : (t'.var t.nextVar).type = (t.var c.iterator).type)
    (hknown : ∀ v place, c.bound = .ofVar v place → v.index < t.vars.size) (scope : ScopeId)
    (body : List Statement) :
    recognize t' (blockLoop l a c (extent c size) t.nextVar scope body)
      = .ok (blockFacts t c size) := by
  obtain ⟨hinit, hcheck, -, hplace⟩ := recognize_eq_ok_iff.mp hc
  exact recognize_eq_ok_iff.mpr ⟨declares_block hinit htypes hvar, compares_block hknown hcheck,
    .assigned ((symbol_eq_assign_iff _ _).mpr rfl), hplace⟩

/-- A check of the same kind against a bound that is no variable. -/
theorem compares_compare {bound : Expr} (hop : c.checkOp.isOrdering)
    (hbound : ∀ v place, bound ≠ .ofVar v place) (place : Location) :
    Compares c.iterator c.checkOp bound c.boundOnRight (.ofExpr (compare c bound place)) := by
  have hmem := (isOrdering_iff _).mp hop
  unfold compare
  cases c.boundOnRight with
  | true => exact .left hmem
  | false => exact .right hmem fun _ => hbound _ _

theorem recognize_innerLoop (hc : recognize t l = .ok c) (hext : t.Extends t')
    (hknown : c.iterator.index < t.vars.size) (body : List Statement) :
    recognize t' (innerLoop l a c (extent c size) t.nextVar body)
      = .ok (innerFacts t l c size) := by
  obtain ⟨hinit, -, hupdate, hplace⟩ := recognize_eq_ok_iff.mp hc
  have htype : (t'.var c.iterator).type = (t.var c.iterator).type :=
    congrArg VariableDef.type (hext.var c.iterator hknown).2
  have hop := (describes_of_recognize hc).ordering
  exact recognize_eq_ok_iff.mpr ⟨declares_of_type hinit hext.types htype _,
    compares_compare (c := innerFacts t l c size) hop (fun _ _ h => by cases h) _, hupdate, hplace⟩

/-! ### The two loops -/

/-- The type of the block variable is that of the variable of the loop. -/
theorem type_nextVar_tile (o : TileOptions) (t : SymbolTable) (l : Loop) (a : Attribute)
    (size : Expr) (c : CanonicalLoop) (k : ScopeId) :
    ((tile o t l a size c k).2.var t.nextVar).type = (t.var c.iterator).type := by
  obtain ⟨scopes, htable⟩ := exists_table_tile o t l a size c k
  simp [htable, SymbolTable.var, SymbolTable.nextVar, blockVariable]

/-- The loop, accepted with the facts `c`, has been made into two canonical loops around its body:
`block`, of a new variable, and `inner`, which runs through one block and has the update that the
loop had. -/
structure Splits (t t' : SymbolTable) (l : Loop) (c : CanonicalLoop) (size : Expr)
    (block inner : Loop) : Prop where
  table : t.Extends t'
  fresh : t.nextVar.index < t'.vars.size
  recognize_block : recognize t' block = .ok (blockFacts t c size)
  block_body : block.body = [inner.toStatement]
  recognize_inner : recognize t' inner = .ok (innerFacts t l c size)
  inner_update : inner.update = l.update
  inner_body : inner.body = l.body ∨ ∃ scope place,
    inner.body = [.branch scope (.ofExpr (compare c c.bound place)) l.body none place]

theorem exists_splits (o : TileOptions) (a : Attribute) (size : Expr) (k : ScopeId)
    (hc : recognize t l = .ok c) (hiterator : c.iterator.index < t.vars.size)
    (hbound : ∀ v place, c.bound = .ofVar v place → v.index < t.vars.size) :
    ∃ inner, Splits t (tile o t l a size c k).2 l c size (tile o t l a size c k).1 inner := by
  have hext := extends_tile o t l a size c k
  have hfresh : t.nextVar.index < (tile o t l a size c k).2.vars.size := by
    rw [vars_size_tile]
    exact Nat.lt_succ_self _
  have htype := type_nextVar_tile o t l a size c k
  by_cases hguard : wantsGuard o a
  · obtain ⟨blockScope, branchScope, htile⟩ := tile_of_guard t l size c k hguard
    refine ⟨_, hext, hfresh, ?_, by rw [htile]; rfl, recognize_innerLoop hc hext hiterator _, rfl,
      .inr ⟨branchScope, _, rfl⟩⟩
    rw [htile]
    exact recognize_blockLoop hc hext.types htype hbound _ _
  · obtain ⟨blockScope, htile⟩ := tile_of_not_guard t l size c k hguard
    refine ⟨_, hext, hfresh, ?_, by rw [htile]; rfl, recognize_innerLoop hc hext hiterator _, rfl,
      .inl rfl⟩
    rw [htile]
    exact recognize_blockLoop hc hext.types htype hbound _ _

end Tile

/-! ### A loop that is tiled last -/

namespace Shape

variable {ι κ α σ ε : Type} [SizeOf α] {S : Shape ι κ α} {pass : Visitor ι κ α σ ε}
  {f : Place → Verdict α}

/-- A conversation about two rows of nodes that does not fail is one about the first row and then
one about the second. -/
theorem Conversation.split {xs ys : List (Site κ α)} {st st' : σ}
    (h : S.Conversation pass f (xs ++ ys) st ⟨st', none⟩) :
    ∃ st₁, S.Conversation pass f xs st ⟨st₁, none⟩ ∧ S.Conversation pass f ys st₁ ⟨st', none⟩ := by
  induction xs generalizing st with
  | nil => exact ⟨st, .finished st, h⟩
  | cons site xs ih =>
    cases h with
    | answered hvisit hrest =>
      obtain ⟨st₁, hxs, hys⟩ := ih hrest
      exact ⟨st₁, .answered hvisit hxs, hys⟩

end Shape

namespace Tile

variable {f : Place → Verdict Statement} {sites : List (Site ScopeId Statement)} {st : State}
  {p : Progress State PassError}

theorem extends_of_conversation (h : Statement.shape.Conversation (pass o).visitor f sites st p) :
    st.table.Extends p.state.table := by
  have hvisit {s : Statement} {k : ScopeId} {st st' : State} {r : Except PassError _}
      (h : visit o s k st = (r, st')) : st.table.Extends st'.table := by
    rcases visit_cases h with ⟨htable, -⟩ | ⟨l, a, size, c, -, -, -, -, htable⟩
    · rw [htable]
      exact .refl _
    · rw [htable]
      exact extends_tile o st.table l a size c k
  induction h with
  | finished => exact .refl _
  | failed h => exact hvisit h
  | answered h _ ih => exact (hvisit h).trans ih

end Tile

namespace Statement

variable {s : Statement} {f : Place → Verdict Statement} {st st' : Tile.State}

/-- The answer about a statement itself does not matter for what is below it. -/
theorem rewriteBelow_of_keep_below
    (h : ∀ site ∈ shape.sites k s, site.place ≠ [] → f site.place = .keep) :
    shape.rewriteBelow f s = s := by
  have hkeep := rewriteBelow_of_keep (s := s) (k := k)
    (f := fun place => if place = [] then .keep else f place) fun site hsite => by
      by_cases hplace : site.place = []
      · simp [hplace]
      · simp [hplace, h site hsite hplace]
  rw [shape.rewriteBelow_eq] at hkeep ⊢
  simpa using hkeep

/-- The statements inside a statement all come before it. -/
theorem exists_sites_eq (k : ScopeId) (s : Statement) : ∃ below,
    shape.sites k s = below ++ [⟨[], k, s⟩] ∧ ∀ site ∈ below, site.place ≠ [] := by
  refine ⟨_, shape.sites_eq k s, fun site hsite => ?_⟩
  obtain ⟨part, hpart, hsite⟩ := List.mem_flatten.mp hsite
  obtain ⟨i, hi, rfl⟩ := List.mem_mapIdx.mp hpart
  obtain ⟨inner, -, rfl⟩ := List.mem_map.mp hsite
  exact List.cons_ne_nil _ _

theorem forall_sites_below {P : Statement → Prop} (h : ∀ c ∈ s.parts, c.Everywhere P)
    {site : Site ScopeId Statement} (hsite : site ∈ shape.sites k s) (hplace : site.place ≠ []) :
    P site.node := by
  cases shape.mem_sites.mp hsite with
  | root => exact absurd rfl hplace
  | @part _ _ c i inner hc hstands =>
    have hpart : c.Everywhere P := h c (List.mem_of_getElem? hc)
    have hinner : inner ∈ shape.sites (shape.inside s k) c := shape.mem_sites.mpr hstands
    exact (everywhere_iff_sites _).mp hpart inner hinner

/-- A loop comes after the loops inside it. -/
theorem exists_loops_eq (k : ScopeId) (l : Loop) : ∃ below,
    l.toStatement.loops k = below ++ [⟨[], k, l.toStatement⟩] ∧
      ∀ site, site ∈ below ↔ site ∈ l.toStatement.loops k ∧ site.place ≠ [] := by
  obtain ⟨below, hsites, hbelow⟩ := exists_sites_eq k l.toStatement
  refine ⟨below.filter fun site => decide (site.node.kind = .loop), ?_, fun site => ?_⟩
  · rw [loops, hsites, List.filter_append, List.filter_cons_of_pos (by rfl), List.filter_nil]
  · rw [mem_loops, hsites, List.mem_append, List.mem_filter, decide_eq_true_iff,
      List.mem_singleton]
    constructor
    · rintro ⟨hmem, hkind⟩
      exact ⟨⟨.inl hmem, hkind⟩, hbelow site hmem⟩
    · rintro ⟨⟨hmem | rfl, hkind⟩, hplace⟩
      · exact ⟨hmem, hkind⟩
      · exact absurd rfl hplace

/-- A loop with nothing to tile in it is asked about as it is. -/
theorem tile_of_untiled_parts (hparts : ∀ c ∈ l.toStatement.parts, c.Everywhere Untiled)
    {v : Verdict Statement} (hvisit : Tile.visit o l.toStatement k st = (.ok v, st')) :
    l.toStatement.tile o k st = (inSlot (v, l.toStatement), ⟨st', none⟩) := by
  obtain ⟨f, p, htile, hothers, hvisits⟩ := exists_answers_tile o k l.toStatement st
  obtain ⟨below, hloops, hbelow⟩ := exists_loops_eq k l
  rw [hloops] at hvisits
  obtain ⟨hlast, hkeeps⟩ := Tile.conversation_of_untiled (fun site hsite => by
    obtain ⟨hmem, hplace⟩ := (hbelow site).mp hsite
    exact forall_sites_below hparts (mem_loops.mp hmem).1 hplace) hvisits
  -- Nothing below is answered but by being kept, so the loop is asked about as it stands.
  have hkeep : shape.rewriteBelow f l.toStatement = l.toStatement := by
    refine rewriteBelow_of_keep_below (k := k) fun site hsite hplace => ?_
    by_cases hkind : site.node.kind = .loop
    · exact hkeeps site ((hbelow site).mpr ⟨mem_loops.mpr ⟨hsite, hkind⟩, hplace⟩)
    · exact hothers site hsite hkind
  have hpresented : shape.presented f ⟨[], k, l.toStatement⟩ = l.toStatement := hkeep
  rw [htile, hkeep]
  cases hlast with
  | failed herror _ =>
    rw [hpresented] at herror
    cases hvisit.symm.trans herror
  | answered hanswered hrest =>
    rw [hpresented] at hanswered
    obtain ⟨hanswer, rfl⟩ := Prod.mk.inj (hvisit.symm.trans hanswered)
    obtain rfl := Except.ok.inj hanswer
    cases hrest
    rfl

/-- A loop with a plain header is visited last, with the header that it has. -/
theorem exists_visit_of_tile (hplain : l.toStatement.PlainHeader)
    (hrun : l.toStatement.tile o k st = (s, ⟨st', none⟩)) :
    ∃ body v st₁, st.table.Extends st₁.table ∧
      Tile.visit o (l.withBody body).toStatement k st₁ = (.ok v, st') ∧
      s = inSlot (v, (l.withBody body).toStatement) := by
  obtain ⟨f, p, htile, hothers, hvisits⟩ := exists_answers_tile o k l.toStatement st
  obtain ⟨rfl, rfl⟩ := Prod.mk.inj (hrun.symm.trans htile)
  have hroot : (⟨[], k, l.toStatement⟩ : Site ScopeId Statement) ∈ shape.sites k l.toStatement :=
    shape.mem_sites.mpr (.root _ _)
  obtain ⟨body, hbody⟩ := presented_loop hothers hroot rfl hplain
  have hbody' : shape.rewriteBelow f l.toStatement = (l.withBody body).toStatement := hbody
  obtain ⟨below, hloops, -⟩ := exists_loops_eq k l
  rw [hloops] at hvisits
  obtain ⟨st₁, hfirst, hlast⟩ := hvisits.split
  refine ⟨body, f [], st₁, Tile.extends_of_conversation hfirst, ?_, by rw [hbody']⟩
  -- Being the last loop of the walk, it is the only one that is left to ask about.
  cases hlast with
  | answered hvisit hrest =>
    cases hrest
    rw [hbody] at hvisit
    exact hvisit

/-! ### Tiling a canonical loop -/

/-- The header of a canonical loop has no loops in it. -/
theorem plainHeader_of_describes (hd : c.Describes l) : l.toStatement.PlainHeader := by
  obtain ⟨_, hinit⟩ := hd.init
  obtain ⟨_, _, _, hcheck⟩ := hd.check
  obtain ⟨_, _, hupdate, -⟩ := hd.update
  have hleaf {s : Statement} (hparts : s.parts = []) (hs : s.kind ≠ .loop) :
      s.Everywhere (·.kind ≠ .loop) := (everywhere_of_parts_eq_nil hparts).mpr hs
  rw [plainHeader_toStatement, hinit, hcheck, hupdate]
  simp only [List.forall_mem_cons]
  exact ⟨hleaf rfl (by simp [declare, kind]), hleaf rfl (by simp [kind]),
    hleaf rfl (by simp [kind]), List.forall_mem_nil _⟩

/-- **Tiling a canonical loop gives two canonical loops around its body.** This holds of a visit,
whatever the body is, and of a whole run: where the body has nothing to tile the run comes to the
same two loops, and else they stand around what the run has made of the body. -/
theorem tile_splits {a : Attribute} {size : Expr} (o : TileOptions) (k : ScopeId) (st : Tile.State)
    (hattr : l.attributes.find? Tile.attributeName = some a) (hsize : Tile.size? a = some size)
    (hc : CanonicalLoop.recognize st.table l = .ok c)
    (hiterator : c.iterator.index < st.table.vars.size)
    (hbound : ∀ v place, c.bound = .ofVar v place → v.index < st.table.vars.size) :
    (∃ block inner st', Tile.visit o l.toStatement k st = (.ok (.replace block.toStatement), st') ∧
      Tile.Splits st.table st'.table l c size block inner ∧
      ((∀ c ∈ l.body, c.Everywhere Untiled) →
        l.toStatement.tile o k st = (block.toStatement, ⟨st', none⟩))) ∧
    ∀ s st', l.toStatement.tile o k st = (s, ⟨st', none⟩) → ∃ body t block inner,
      st.table.Extends t ∧ s = block.toStatement ∧
        Tile.Splits t st'.table (l.withBody body) c size block inner := by
  have hd := CanonicalLoop.describes_of_recognize hc
  refine ⟨?_, fun s st' hrun => ?_⟩
  · obtain ⟨inner, hsplits⟩ := Tile.exists_splits o a size k hc hiterator hbound
    have hvisit := Tile.visit_eq o st k hattr hsize hc
    refine ⟨_, inner, _, hvisit, hsplits, fun hbody => ?_⟩
    obtain ⟨hinit, hcheck, hupdate⟩ := Tile.everywhere_untiled_header hd
    exact tile_of_untiled_parts (List.forall_mem_cons.mpr ⟨hinit, List.forall_mem_cons.mpr
      ⟨hcheck, List.forall_mem_cons.mpr ⟨hupdate, hbody⟩⟩⟩) hvisit
  · obtain ⟨body, v, st₁, hext, hvisit, rfl⟩ :=
      exists_visit_of_tile (plainHeader_of_describes hd) hrun
    obtain ⟨place, hinit⟩ := hd.init
    have hc₁ : CanonicalLoop.recognize st₁.table (l.withBody body) = .ok c :=
      (CanonicalLoop.recognize_withBody hext (Loop.declaresKnown_of_declare hinit hiterator)
        body).trans hc
    obtain ⟨inner, hsplits⟩ := Tile.exists_splits o a size k hc₁ (hext.var _ hiterator).1
      fun v place hv => (hext.var v (hbound v place hv)).1
    have hvisit₁ := Tile.visit_eq o st₁ k (l := l.withBody body) hattr hsize hc₁
    obtain ⟨hanswer, rfl⟩ := Prod.mk.inj (hvisit.symm.trans hvisit₁)
    obtain rfl := Except.ok.inj hanswer
    exact ⟨body, st₁.table, _, inner, hext, rfl, hsplits⟩

/-- The loop `for (int i = 8; 4 - i < i; i -= 1; @tile(2)) {}`, with the variable in its bound. -/
def mirroredLoop : Loop where
  scope := .global
  init := .declare ⟨0⟩ (some (.ofValue (.int 8) .none)) .none
  check := .ofExpr (.mkBinary .less
    (.mkBinary .sub (.ofValue (.int 4) .none) (.ofVar ⟨0⟩ .none)) (.ofVar ⟨0⟩ .none))
  update := .ofExpr (.mkBinary .subAssign (.ofVar ⟨0⟩ .none) (.ofValue (.int 1) .none))
  body := []
  attributes := [Tile.tileByTwo]
  location := .none

/-- What is recognized of it. -/
def mirroredFacts : CanonicalLoop where
  iterator := ⟨0⟩
  init := .ofValue (.int 8) .none
  checkOp := .less
  bound := .mkBinary .sub (.ofValue (.int 4) .none) (.ofVar ⟨0⟩ .none)
  boundOnRight := false
  updateOp := .binary .subAssign
  step := some (.ofValue (.int 1) .none)
  countsUp := false
  location := .none

/-- Two loops that count down, with the bound on the left of both checks. -/
theorem tile_splits_mirroredLoop : ∃ block inner st',
    mirroredLoop.toStatement.tile .standard .global Tile.counterState
        = (block.toStatement, ⟨st', none⟩) ∧
      Tile.Splits Tile.counterTable st'.table mirroredLoop mirroredFacts (.ofValue (.int 2) .none)
        block inner := by
  obtain ⟨⟨block, inner, st', -, hsplits, hrun⟩, -⟩ :=
    tile_splits (c := mirroredFacts) .standard .global Tile.counterState
      (show mirroredLoop.attributes.find? Tile.attributeName = some Tile.tileByTwo from rfl) rfl rfl
      Nat.zero_lt_one (fun _ _ h => by cases h)
  exact ⟨block, inner, st', hrun (List.forall_mem_nil _), hsplits⟩

end Statement

end KernelTree
