import Mathlib
import KernelTree.Loop.Tile
import KernelTree.Proofs.Loop.Recognize
import KernelTree.Proofs.Pass.Substitute
import KernelTree.Proofs.Statement.Nest
import KernelTree.Proofs.Statement.Rewrite

/-!
# Scopes of tiled loops

Tiling a loop puts one new scope around the scope of the loop and, if the body is guarded, another
one around the scopes of the body (`Tile.keeps_tile`). Taken from the innermost loop outwards these
steps keep the scopes of the whole statement aligned with the table, and no name but those of the
block variables changes its meaning (`Statement.aligned_tile`).
-/

namespace KernelTree

namespace Tile

variable {o : TileOptions} {t : SymbolTable} {l : Loop} {a : Attribute} {c : CanonicalLoop}
  {size : Expr} {k : ScopeId} {F : Nest} {declared : String → Prop}

/-! ### New scopes -/

/-- The scope of the block loop is put between that of the loop and the one around it. -/
theorem inserts_declareBlock (o : TileOptions) (v : VarId) (hscope : t.parent? l.scope = some k)
    (hk : t.Has k) : t.Inserts (declareBlock o t l v k).2.2 k [l.scope] fun name =>
      name = o.iteratorMark ++ (t.var v).name := by
  let t₁ := (t.cloneVariable v (o.iteratorMark ++ (t.var v).name)).2
  have hparent : t₁.parent? l.scope = some k := hscope
  have hnew := (SymbolTable.inserts_newScope (t := t₁) (p := k) hk).declare
    (o.iteratorMark ++ (t.var v).name) (.variable ⟨t.vars.size⟩)
  have hadopt := hnew.adopt hparent
  simp only [false_or, List.nil_append] at hadopt
  have hblock : (declareBlock o t l v k).2.2
      = ((t₁.newScope ((t₁.parent? l.scope).getD k)).2.declare t₁.nextScope
        (o.iteratorMark ++ (t.var v).name) (.variable ⟨t.vars.size⟩)).setParent l.scope
          (some t₁.nextScope) := rfl
  rw [hparent, Option.getD_some] at hblock
  rw [hblock]
  exact hadopt.of_scopes_eq rfl

/-- The scope of the branch is put around those of the body. -/
theorem inserts_guard {body : List Statement} (hscope : t.Has k)
    (hbody : ∀ x ∈ body.filterMap Statement.scope?, t.parent? x = some k) (place : Location) :
    t.Inserts (guard t c k body place).2 k (body.filterMap Statement.scope?) fun _ => False := by
  have hadopt := (SymbolTable.inserts_newScope hscope).adoptAll hbody
  rw [List.nil_append] at hadopt
  exact hadopt

/-- Declaring the block variable leaves the definitions of the others as they were. -/
theorem var_declareBlock (o : TileOptions) (t : SymbolTable) (l : Loop) (v : VarId) (k : ScopeId)
    {w : VarId} (hw : w.index < t.vars.size) :
    w.index < (declareBlock o t l v k).2.2.vars.size ∧
      (declareBlock o t l v k).2.2.var w = t.var w := by
  have hvars : (declareBlock o t l v k).2.2.vars
      = t.vars.push { t.var v with name := o.iteratorMark ++ (t.var v).name } := rfl
  constructor
  · rw [hvars, Array.size_push]
    omega
  · have hne : w.index ≠ t.vars.size := by omega
    simp [SymbolTable.var, hvars, Array.getElem?_push, hne]

/-- The guard brings a scope, no variable. -/
theorem vars_guard (t : SymbolTable) (c : CanonicalLoop) (k : ScopeId) (body : List Statement)
    (place : Location) : (guard t c k body place).2.vars = t.vars := by
  have hadopt : ∀ (scopes : List ScopeId) (t' : SymbolTable) (p : ScopeId),
      (scopes.foldl (fun t' x => t'.setParent x (some p)) t').vars = t'.vars := by
    intro scopes
    induction scopes with
    | nil => exact fun _ _ => rfl
    | cons x scopes ih => exact fun t' p => ih _ p
  exact hadopt _ _ _

/-! ### Nested scopes -/

/-- The scopes of a loop are its own and those of its body if its header brings none. -/
theorem nest_loop {l : Loop} (hinit : l.init.scope? = none) (hcheck : l.check.scope? = none)
    (hupdate : l.update.scope? = none) :
    l.toStatement.nest = .node l.scope (Statement.nestAll l.body) .nil := by
  rw [Statement.nest_of_scope? (show l.toStatement.scope? = some l.scope from rfl)]
  show Nest.node _ (Statement.nestAll (l.init :: l.check :: l.update :: l.body)) _ = _
  simp only [Statement.nestAll_cons, Statement.nest_of_scope?_eq_none hinit,
    Statement.nest_of_scope?_eq_none hcheck, Statement.nest_of_scope?_eq_none hupdate,
    Nest.nil_append]

/-- The guard puts its scope around those of the body. -/
theorem nest_guard (t : SymbolTable) (c : CanonicalLoop) (k : ScopeId) (body : List Statement)
    (place : Location) :
    (guard t c k body place).1.nest = .node t.nextScope (Statement.nestAll body) .nil := by
  rw [Statement.nest_of_scope?
    (show (guard t c k body place).1.scope? = some t.nextScope from rfl)]
  show Nest.node _ (Statement.nestAll (.ofExpr _ :: body)) _ = _
  rw [Statement.nestAll_cons, Statement.nest_of_scope?_eq_none rfl, Nest.nil_append]

/-- The header of a canonical loop opens no scopes. -/
theorem nest_of_describes (hd : c.Describes l) :
    l.toStatement.nest = .node l.scope (Statement.nestAll l.body) .nil := by
  obtain ⟨_, hinit⟩ := hd.init
  obtain ⟨_, _, _, hcheck⟩ := hd.check
  obtain ⟨_, _, hupdate, -⟩ := hd.update
  exact nest_loop (by rw [hinit]; rfl) (by rw [hcheck]; rfl) (by rw [hupdate]; rfl)

/-- The inner loop keeps the scope of the loop that was tiled. -/
theorem nest_innerLoop (hd : c.Describes l) (reach : Expr) (blockVar : VarId)
    (body : List Statement) : (innerLoop l a c reach blockVar body).toStatement.nest
      = .node l.scope (Statement.nestAll body) .nil := by
  obtain ⟨_, _, hupdate, -⟩ := hd.update
  exact nest_loop rfl rfl (show l.update.scope? = none by rw [hupdate]; rfl)

/-- The block loop has the new scope, and what is inside it is in that scope. -/
theorem nest_blockLoop (hd : c.Describes l) (reach : Expr) (blockVar : VarId)
    (blockScope : ScopeId) (body : List Statement) :
    (blockLoop l a c reach blockVar blockScope body).toStatement.nest
      = .node blockScope (Statement.nestAll body) .nil := by
  obtain ⟨_, hinit⟩ := hd.init
  obtain ⟨_, _, _, hcheck⟩ := hd.check
  have hsource : (Substitution.mk (.variable c.iterator) (.variable blockVar)).source
      = .variable c.iterator := rfl
  refine nest_loop ?_ ?_ rfl
  · show (l.init.substitute _).scope? = none
    rw [hinit, Statement.substitute_declare hsource]
    rfl
  · show (l.check.substitute _).scope? = none
    rw [hcheck, Statement.substitute_expression hsource]
    rfl

/-- The first scope that tiling puts in. -/
theorem keeps_declareBlock (h : (Nest.node l.scope F .nil).Aligned t k) {v : VarId}
    (hname : declared (o.iteratorMark ++ (t.var v).name)) :
    Nest.Keeps declared t (declareBlock o t l v k).2.2 k (.node l.scope F .nil)
      (.node t.nextScope (.node l.scope F .nil) .nil) := by
  have hscope : t.parent? l.scope = some k := h.hangs.1
  refine .wrap (inserts_declareBlock o v hscope (h.forest.closed hscope)) h ?_
    fun w hw => var_declareBlock o t l v k hw
  rintro name rfl
  exact hname

/-- The second scope that tiling puts in. -/
theorem keeps_guard {body : List Statement} (h : (Statement.nestAll body).Aligned t k)
    (hk : t.Has k) (c : CanonicalLoop) (place : Location) :
    Nest.Keeps declared t (guard t c k body place).2 k (Statement.nestAll body)
      (.node t.nextScope (Statement.nestAll body) .nil) := by
  have htops : ∀ x ∈ body.filterMap Statement.scope?, t.parent? x = some k := by
    intro x hx
    rw [← Statement.tops_nestAll] at hx
    exact h.hangs.parent?_of_mem_tops hx
  have hinserts := inserts_guard (c := c) hk htops place
  rw [← Statement.tops_nestAll] at hinserts
  refine .wrap hinserts h (fun _ hmade => hmade.elim) fun w hw => ?_
  rw [SymbolTable.var, vars_guard]
  exact ⟨hw, rfl⟩

/-- Tiling a loop keeps its scopes aligned, and all names but that of the block variable. -/
theorem keeps_tile (hd : c.Describes l) (h : l.toStatement.nest.Aligned t k)
    (hname : declared (o.iteratorMark ++ (t.var c.iterator).name)) :
    Nest.Keeps declared t (tile o t l a size c k).2 k l.toStatement.nest
      (tile o t l a size c k).1.toStatement.nest := by
  let t₁ := (declareBlock o t l c.iterator k).2.2
  rw [nest_of_describes hd] at h ⊢
  have hblock : Nest.Keeps declared t t₁ k _ _ := keeps_declareBlock h hname
  by_cases hguard : wantsGuard o a
  · have htile : tile o t l a size c k
        = (blockLoop l a c (extent c size) ⟨t.vars.size⟩ t.nextScope
            [(innerLoop l a c (extent c size) ⟨t.vars.size⟩
              [(guard t₁ c l.scope l.body l.check.location).1]).toStatement],
          (guard t₁ c l.scope l.body l.check.location).2) := by
      simp only [tile, hguard, if_true]
      rfl
    rw [htile]
    simp only [nest_blockLoop hd, nest_innerLoop hd, nest_guard, Statement.nestAll_cons,
      Statement.nestAll_nil, Nest.append_nil]
    -- The second scope is put in below the first.
    have hinner := hblock.aligned.inside
    have hbranch : Nest.Keeps declared t₁ _ l.scope _ _ :=
      keeps_guard hinner.inside (SymbolTable.has_of_parent? hinner.hangs.1) c l.check.location
    exact hblock.trans ((hbranch.node hinner).node hblock.aligned)
  · have htile : tile o t l a size c k
        = (blockLoop l a c (extent c size) ⟨t.vars.size⟩ t.nextScope
            [(innerLoop l a c (extent c size) ⟨t.vars.size⟩ l.body).toStatement], t₁) := by
      simp only [tile, hguard]
      rfl
    rw [htile]
    simp only [nest_blockLoop hd, nest_innerLoop hd, Statement.nestAll_cons,
      Statement.nestAll_nil, Nest.append_nil]
    exact hblock

/-! ### One visit -/

/-- A visit leaves the table alone or tiles the statement. -/
theorem visit_cases {s : Statement} {st st' : State} {r : Except PassError (Verdict Statement)}
    (h : visit o s k st = (r, st')) :
    (st'.table = st.table ∧ (r = .ok .keep ∨ ∃ e, r = .error e)) ∨
      ∃ l a size c, s = l.toStatement ∧ l.attributes.find? attributeName = some a ∧
        c.Describes l ∧ r = .ok (.replace (tile o st.table l a size c k).1.toStatement) ∧
        st'.table = (tile o st.table l a size c k).2 := by
  unfold visit at h
  split at h
  · obtain ⟨rfl, rfl⟩ := Prod.mk.inj h
    exact .inl ⟨rfl, .inl rfl⟩
  case h_2 l hl =>
    have hs : s = l.toStatement := by
      cases s <;> cases hl
      rfl
    split at h
    · obtain ⟨rfl, rfl⟩ := Prod.mk.inj h
      exact .inl ⟨rfl, .inl rfl⟩
    case h_2 a hattr =>
      split at h
      · obtain ⟨rfl, rfl⟩ := Prod.mk.inj h
        exact .inl ⟨rfl, .inr ⟨_, rfl⟩⟩
      case h_2 size hsize =>
        split at h
        · obtain ⟨rfl, rfl⟩ := Prod.mk.inj h
          refine .inl ⟨?_, .inr ⟨_, rfl⟩⟩
          split <;> rfl
        case h_2 c hc =>
          obtain ⟨rfl, rfl⟩ := Prod.mk.inj h
          exact .inr ⟨l, a, size, c, hs, hattr, CanonicalLoop.describes_of_recognize hc, rfl, rfl⟩

/-- What is answered about a statement: to keep it, or to put two loops in its place. -/
theorem answer_cases {s : Statement} {p p' : Progress State PassError} {v : Verdict Statement}
    (h : (Statement.shape.answer (pass o).visitor k s).run p = (v, p')) :
    (v = .keep ∧ p'.state.table = p.state.table) ∨
      ∃ l a size c, s = l.toStatement ∧ l.attributes.find? attributeName = some a ∧
        c.Describes l ∧ v = .replace (tile o p.state.table l a size c k).1.toStatement ∧
        p'.state.table = (tile o p.state.table l a size c k).2 := by
  obtain ⟨st, failure⟩ := p
  unfold Shape.answer at h
  split at h
  · cases failure with
    | some e =>
      obtain ⟨rfl, rfl⟩ := Prod.mk.inj h
      exact .inl ⟨rfl, rfl⟩
    | none =>
      cases hvisit : visit o s k st with
      | mk r st' =>
        rcases visit_cases hvisit with
          ⟨htable, rfl | ⟨e, rfl⟩⟩ | ⟨l, a, size, c, hs, ha, hd, rfl, ht⟩
        · obtain ⟨rfl, rfl⟩ := Prod.mk.inj ((Shape.ask_of_ok hvisit .keep).symm.trans h)
          exact .inl ⟨rfl, htable⟩
        · obtain ⟨rfl, rfl⟩ := Prod.mk.inj ((Shape.ask_of_error hvisit .keep).symm.trans h)
          exact .inl ⟨rfl, htable⟩
        · obtain ⟨rfl, rfl⟩ := Prod.mk.inj ((Shape.ask_of_ok hvisit .keep).symm.trans h)
          exact .inr ⟨l, a, size, c, hs, ha, hd, rfl, ht⟩
  · obtain ⟨rfl, rfl⟩ := Prod.mk.inj h
    exact .inl ⟨rfl, rfl⟩

end Tile

namespace Statement

/-! ### The whole statement -/

/-- A loop in the statement asks for tiling and declares the variable. -/
inductive Tiles : Statement → VarId → Prop
  | loop {l : Loop} {v : VarId} {value : Option Expr} {place : Location}
      (hattr : (l.attributes.find? Tile.attributeName).isSome)
      (hinit : l.init = .declare v value place) : Tiles l.toStatement v
  | part {s c : Statement} {v : VarId} (hc : c ∈ s.parts) (h : Tiles c v) : Tiles s v

/-- The variables of the loops that ask for tiling are known, and the names of their block
variables are `declared`. -/
def DeclaresBlocks (o : TileOptions) (declared : String → Prop) (t : SymbolTable) (s : Statement) :
    Prop :=
  ∀ v, s.Tiles v → v.index < t.vars.size ∧ declared (o.iteratorMark ++ (t.var v).name)

/-- A statement is still there after the answer about it, and a declaration is as it was. -/
structure Settles (s : Statement) (answer : Verdict Statement × Statement) : Prop where
  kept : answer.1 ≠ .remove
  declaration : ∀ ds l, inSlot answer = .declaration ds l → s = .declaration ds l

variable {o : TileOptions} {declared : String → Prop} {k : ScopeId}

/-- What is declared for the loops to come is not disturbed by the loops tiled so far. -/
theorem DeclaresBlocks.evolves {t t' : SymbolTable} {touched : List ScopeId} {s : Statement}
    (h : s.DeclaresBlocks o declared t) (ht : t.Evolves t' touched declared) :
    s.DeclaresBlocks o declared t' := by
  intro v hv
  obtain ⟨hknown, hname⟩ := h v hv
  obtain ⟨hknown', hvar⟩ := ht.var v hknown
  exact ⟨hknown', hvar ▸ hname⟩

/-- No answer removes a statement. -/
theorem kept_of_settles {l : List Statement} {answers : List (Verdict Statement × Statement)}
    (h : List.Forall₂ Settles l answers) : ∀ a ∈ answers, a.1 ≠ .remove := by
  induction h with
  | nil => exact List.forall_mem_nil _
  | cons hs _ ih => exact List.forall_mem_cons.mpr ⟨hs.kept, ih⟩

/-- A declaration has not been put together from anything else. -/
theorem eq_of_rebuild_eq_declaration {s : Statement}
    {answers : List (Verdict Statement × Statement)} {ds : List Declarator} {l : Location}
    (h : s.rebuild answers = .declaration ds l) : s = .declaration ds l := by
  have hkind := kind_rebuild s answers
  rw [h] at hkind
  cases s with
  | declaration => exact h
  | _ => cases hkind

/-- The loop that a tiled loop was before the walk went through it. -/
theorem tiles_of_rebuild {s : Statement} {answers : List (Verdict Statement × Statement)}
    {l : Loop} {v : VarId} {value : Option Expr} {place : Location}
    (hs : s.rebuild answers = l.toStatement) (h : List.Forall₂ Settles s.parts answers)
    (hattr : (l.attributes.find? Tile.attributeName).isSome)
    (hinit : l.init = .declare v value place) : s.Tiles v := by
  have hkind := kind_rebuild s answers
  rw [hs] at hkind
  cases s with
  | loop scope init check update body attributes l' =>
    obtain _ | ⟨hsettles, _ | ⟨-, _ | ⟨-, -⟩⟩⟩ := h
    simp only [rebuild, Loop.toStatement, loop.injEq] at hs
    obtain ⟨-, hslot, -, -, -, rfl, -⟩ := hs
    have hsame := hsettles.declaration _ _ (hslot.trans hinit)
    exact .loop (l := ⟨scope, init, check, update, body, _, l'⟩) hattr hsame
  | _ => cases hkind

/-- One node: the answer about it after those about its parts. -/
theorem keeps_answer {s : Statement} {answers : List (Verdict Statement × Statement)}
    {t : SymbolTable} {p p' : Progress Tile.State PassError} {v : Verdict Statement}
    (hs : s.nest.Aligned t k) (hnames : s.DeclaresBlocks o declared t)
    (hparts : Nest.Keeps declared t p.state.table (s.scope?.getD k) (nestAll s.parts)
      (nestAll (answers.map inSlot)))
    (hsettles : List.Forall₂ Settles s.parts answers)
    (h : (shape.answer (Tile.pass o).visitor k (s.rebuild answers)).run p = (v, p')) :
    Nest.Keeps declared t p'.state.table k s.nest (inSlot (v, s.rebuild answers)).nest ∧
      Settles s (v, s.rebuild answers) := by
  have hrebuilt : (s.rebuild answers).parts = answers.map inSlot :=
    parts_rebuild_of_kept hsettles.length_eq.symm (kept_of_settles hsettles)
  have hscope := scope?_rebuild s answers
  have hbelow : Nest.Keeps declared t p.state.table k s.nest (s.rebuild answers).nest := by
    -- A statement that opens no scope has nothing inside.
    cases hs' : s.scope? with
    | none =>
      rw [hs'] at hparts hscope
      rw [nest_of_scope?_eq_none hs', nest_of_scope?_eq_none hscope]
      rw [← hrebuilt, parts_eq_nil hs', parts_eq_nil hscope] at hparts
      exact hparts
    | some x =>
      rw [hs'] at hparts hscope
      rw [nest_of_scope? hs'] at hs ⊢
      rw [nest_of_scope? hscope, hrebuilt]
      exact hparts.node hs
  rcases Tile.answer_cases h with ⟨rfl, htable⟩ | ⟨l, a, size, c, hl, ha, hd, rfl, htable⟩
  · rw [htable]
    exact ⟨hbelow, nofun, fun ds place heq => eq_of_rebuild_eq_declaration heq⟩
  · refine ⟨?_, nofun, nofun⟩
    obtain ⟨place, hinit⟩ := hd.init
    have htiles := tiles_of_rebuild hl hsettles (Option.isSome_iff_exists.mpr ⟨a, ha⟩) hinit
    obtain ⟨-, hname⟩ := (hnames.evolves hbelow.evolves) _ htiles
    rw [hl] at hbelow
    rw [htable]
    exact hbelow.trans (Tile.keeps_tile hd hbelow.aligned hname)

/-- A walk over the statement keeps its scopes aligned. -/
def KeepsScopes (o : TileOptions) (declared : String → Prop) (s : Statement) : Prop :=
  ∀ (k : ScopeId) (p p' : Progress Tile.State PassError) (answer : Verdict Statement × Statement),
    s.nest.Aligned p.state.table k → s.DeclaresBlocks o declared p.state.table →
    (shape.walk (Tile.pass o).visitor k s).run p = (answer, p') →
    Nest.Keeps declared p.state.table p'.state.table k s.nest (inSlot answer).nest ∧
      Settles s answer

/-- Every statement keeps its scopes aligned, whatever becomes of it. -/
theorem keepsScopes (o : TileOptions) (declared : String → Prop) (s : Statement) :
    s.KeepsScopes o declared := by
  intro k p p' answer hs hnames hrun
  have hwalk : s.nest.Aligned p.state.table k → s.DeclaresBlocks o declared p.state.table →
      Nest.Keeps declared p.state.table
          ((shape.walk (Tile.pass o).visitor k s).run p).2.state.table k s.nest
          (inSlot ((shape.walk (Tile.pass o).visitor k s).run p).1).nest ∧
        Settles s ((shape.walk (Tile.pass o).visitor k s).run p).1 := by
    refine shape.run_induction
      (P := fun k s p answer p' => s.nest.Aligned p.state.table k →
        s.DeclaresBlocks o declared p.state.table →
        Nest.Keeps declared p.state.table p'.state.table k s.nest (inSlot answer).nest ∧
          Settles s answer)
      (Q := fun k l p answers p' => (nestAll l).Aligned p.state.table k →
        (∀ s ∈ l, s.DeclaresBlocks o declared p.state.table) →
        Nest.Keeps declared p.state.table p'.state.table k (nestAll l)
            (nestAll (answers.map inSlot)) ∧ List.Forall₂ Settles l answers) ?_ ?_ ?_ k s p
    · intro k p hl _
      exact ⟨.refl hl, .nil⟩
    · intro k s l p answer p₁ answers p₂ hfirst hrest hl hnames
      obtain ⟨hsnames, hrestnames⟩ := List.forall_mem_cons.mp hnames
      rw [nestAll_cons] at hl
      obtain ⟨hkeeps, hsettles⟩ := hfirst hl.left hsnames
      obtain ⟨hkeeps', hsettles'⟩ := hrest (hkeeps.rest hl)
        fun c hc => (hrestnames c hc).evolves hkeeps.evolves
      exact ⟨hkeeps.append hkeeps' hl, .cons hsettles hsettles'⟩
    · intro k s p answers p₁ v p₂ hparts hanswer hs hnames
      -- The parts are aligned in the scope of the statement if it has one, and around it if not.
      have haligned : (nestAll s.parts).Aligned p.state.table (s.scope?.getD k) := by
        cases hs' : s.scope? with
        | none =>
          rw [nest_of_scope?_eq_none hs'] at hs
          rw [parts_eq_nil hs']
          exact hs
        | some x =>
          rw [nest_of_scope? hs'] at hs
          exact hs.inside
      obtain ⟨hkeeps, hsettles⟩ := hparts haligned fun c hc v hv => hnames v (.part hc hv)
      exact keeps_answer hs hnames hkeeps hsettles hanswer
  rw [hrun] at hwalk
  exact hwalk hs hnames

/-- **Tiling keeps scopes and names.** If the scopes of a statement are aligned with the table,
those of the tiled statement are aligned with the table that tiling leaves, whether all its loops
could be tiled or not; and in every scope that was there before, every name means what it meant,
apart from the names of the block variables. -/
theorem aligned_tile (o : TileOptions) (s : Statement) (k : ScopeId) (st : Tile.State)
    (h : s.Aligned st.table k) (hvars : ∀ v, s.Tiles v → v.index < st.table.vars.size) :
    (s.tile o k st).1.Aligned (s.tile o k st).2.state.table k ∧
      ∀ x name, st.table.Has x →
        (∀ v, s.Tiles v → name ≠ o.iteratorMark ++ (st.table.var v).name) →
        (s.tile o k st).2.state.table.lookup x name = st.table.lookup x name := by
  let declared (name : String) : Prop :=
    ∃ v, s.Tiles v ∧ name = o.iteratorMark ++ (st.table.var v).name
  have hnames : s.DeclaresBlocks o declared st.table := fun v hv => ⟨hvars v hv, v, hv, rfl⟩
  obtain ⟨⟨answer, p'⟩, hrun⟩ :
      ∃ r, (shape.walk (Tile.pass o).visitor k s).start st = r := ⟨_, rfl⟩
  have htile : s.tile o k st = (inSlot answer, p') := by
    rw [Statement.tile, walk_eq, Walk.start_map, hrun]
  obtain ⟨hkeeps, -⟩ := keepsScopes o declared s k _ _ _ (aligned_iff.mp h) hnames hrun
  rw [htile]
  refine ⟨aligned_iff.mpr hkeeps.aligned, fun x name hx hname => ?_⟩
  refine hkeeps.evolves.lookup x name hx ?_
  rintro ⟨v, hv, heq⟩
  exact hname v hv heq

/-- The loop `for (int v = 0; v < 4; ++v; @tile(2)) { body }`. -/
def tiledLoop (scope : ScopeId) (v : VarId) (body : List Statement) : Loop where
  scope
  init := .declare v (some (.ofValue (.int 0) .none)) .none
  check := .ofExpr (.mkBinary .less (.ofVar v .none) (.ofValue (.int 4) .none))
  update := .ofExpr (.mkPrefixed (.pre .increment) (.ofVar v .none))
  body
  attributes := [⟨Tile.attributeName, [⟨.ofValue (.int 2) .none, []⟩], [], .none⟩]
  location := .none

/-- Two such loops, one inside the other. -/
def nestedLoops : Statement :=
  (tiledLoop ⟨1⟩ ⟨0⟩ [(tiledLoop ⟨2⟩ ⟨1⟩ []).toStatement]).toStatement

/-- The scopes of the two loops, each with its variable, inside the outermost one. -/
def nestedTable : SymbolTable :=
  ⟨#[⟨"int", .int⟩], #[⟨"i", .plain ⟨0⟩, [], .none⟩, ⟨"j", .plain ⟨0⟩, [], .none⟩], #[],
    #[⟨none, []⟩, ⟨some ⟨0⟩, [("i", .variable ⟨0⟩)]⟩, ⟨some ⟨1⟩, [("j", .variable ⟨1⟩)]⟩]⟩

theorem not_tiles_of_scope?_eq_none {s : Statement} {v : VarId} (h : s.scope? = none) :
    ¬ s.Tiles v := by
  intro hv
  cases hv with
  | loop => cases h
  | part hc =>
    rw [parts_eq_nil h] at hc
    cases hc

theorem tiles_tiledLoop {scope : ScopeId} {v w : VarId} {body : List Statement}
    (h : (tiledLoop scope v body).toStatement.Tiles w) : w = v ∨ ∃ s ∈ body, s.Tiles w := by
  generalize hs : (tiledLoop scope v body).toStatement = s at h
  cases h with
  | @loop l w value place hattr hinit =>
    left
    obtain rfl : tiledLoop scope v body = l := Option.some.inj (congrArg loop? hs)
    simp only [tiledLoop, declare, declaration.injEq, List.cons.injEq, Declarator.mk.injEq] at hinit
    exact hinit.1.1.1.symm
  | @part s c w hc h =>
    right
    subst hs
    have hc : c ∈ (tiledLoop scope v body).init :: (tiledLoop scope v body).check ::
      (tiledLoop scope v body).update :: body := hc
    simp only [List.mem_cons] at hc
    rcases hc with rfl | rfl | rfl | hc
    · exact absurd h (not_tiles_of_scope?_eq_none rfl)
    · exact absurd h (not_tiles_of_scope?_eq_none rfl)
    · exact absurd h (not_tiles_of_scope?_eq_none rfl)
    · exact ⟨c, hc, h⟩

/-- The two variables that the sample nest tiles. -/
theorem tiles_nestedLoops {v : VarId} (h : nestedLoops.Tiles v) : v = ⟨0⟩ ∨ v = ⟨1⟩ := by
  obtain rfl | ⟨s, hs, h⟩ := tiles_tiledLoop h
  · exact .inl rfl
  · obtain rfl := List.mem_singleton.mp hs
    obtain rfl | ⟨s, hs, -⟩ := tiles_tiledLoop h
    · exact .inr rfl
    · cases hs

/-- The scopes of the sample hang in a row below the global one. -/
theorem isForest_nestedTable : nestedTable.IsForest := by
  have hlinks : ∀ {s p : ScopeId}, nestedTable.parent? s = some p →
      nestedTable.Has p ∧ p.index < s.index := by
    intro s p h
    obtain ⟨i⟩ := s
    have hi : i < 3 := SymbolTable.has_of_parent? h
    obtain rfl | rfl | rfl : i = 0 ∨ i = 1 ∨ i = 2 := by omega
    · cases h
    · obtain rfl := Option.some.inj h
      exact ⟨show 0 < 3 by omega, Nat.zero_lt_one⟩
    · obtain rfl := Option.some.inj h
      exact ⟨show 1 < 3 by omega, Nat.one_lt_two⟩
  exact SymbolTable.isForest_of_rank ScopeId.index (fun h => (hlinks h).1) fun h => (hlinks h).2

/-- The blocks of the sample stand in the scopes that its table says. -/
theorem aligned_nestedLoops : nestedLoops.Aligned nestedTable .global := by
  have hnest : nestedLoops.nest = .node ⟨1⟩ (.node ⟨2⟩ .nil .nil) .nil := by
    rw [nestedLoops, Tile.nest_loop rfl rfl rfl, tiledLoop, nestAll_cons,
      Tile.nest_loop rfl rfl rfl]
    rfl
  rw [aligned_iff, hnest]
  exact ⟨⟨rfl, ⟨rfl, trivial, trivial⟩, trivial⟩, by decide, isForest_nestedTable⟩

/-- Both loops are tiled, and the variable of the outer one is still found from inside the inner
one. -/
theorem aligned_tile_nestedLoops :
    nestedLoops.Aligned nestedTable .global ∧
      ∃ s st, nestedLoops.tile .standard .global ⟨nestedTable, .empty none⟩ = (s, ⟨st, none⟩) ∧
        s.Aligned st.table .global ∧ st.table.lookup ⟨2⟩ "i" = some (.variable ⟨0⟩) := by
  obtain ⟨⟨s, ⟨st, failure⟩⟩, hrun⟩ :
      ∃ r, nestedLoops.tile .standard .global ⟨nestedTable, .empty none⟩ = r := ⟨_, rfl⟩
  have hfailure : (nestedLoops.tile .standard .global ⟨nestedTable, .empty none⟩).2.failure
      = none := by
    cbv
  obtain ⟨haligned, hlookup⟩ := aligned_tile .standard nestedLoops .global
    ⟨nestedTable, .empty none⟩ aligned_nestedLoops fun v hv => by
      obtain rfl | rfl := tiles_nestedLoops hv <;> decide
  have hname := hlookup ⟨2⟩ "i" (show 2 < 3 by omega) fun v hv => by
    obtain rfl | rfl := tiles_nestedLoops hv <;> decide
  rw [hrun] at haligned hname hfailure
  obtain rfl : failure = none := hfailure
  exact ⟨aligned_nestedLoops, s, st, hrun, haligned, hname.trans (by decide)⟩

end Statement

end KernelTree
