import KernelTree.Proofs.Loop.Scopes
import KernelTree.Proofs.Loop.Trace
import KernelTree.Proofs.Statement.Rewrite

/-!
# Tiling what has been tiled

Tiling takes the attribute off a loop before it hands the attributes of its second and third
argument on to the two new loops. If one of these is a tile attribute again, a loop of the result
asks for tiling and a second run is not without effect; in all other cases it is
(`Statement.tile_tile`).
-/

namespace KernelTree

/-! ### Sets of attributes -/

namespace Attributes

variable {name : String}

theorem find?_insert_eq_none {a : Attribute} {attributes : Attributes} :
    find? (ByName.insert Attribute.name a attributes) name = none ↔
      a.name ≠ name ∧ find? attributes name = none := by
  by_cases hname : a.name = name
  · subst hname
    simp [find?, ByName.find?_insert_self]
  · simp [find?, ByName.find?_insert_of_ne Attribute.name hname, hname]

/-- The names of a merged set are those of both sets. -/
theorem find?_merge_eq_none {attributes new : Attributes} :
    (attributes.merge new).find? name = none ↔
      attributes.find? name = none ∧ ∀ a ∈ new, a.name ≠ name := by
  induction new generalizing attributes with
  | nil => exact (and_iff_left (List.forall_mem_nil _)).symm
  | cons a new ih =>
    have hcons : attributes.merge (a :: new)
        = merge (ByName.insert Attribute.name a attributes) new := rfl
    rw [hcons, ih, find?_insert_eq_none, List.forall_mem_cons]
    tauto

theorem find?_erase (attributes : Attributes) (name : String) :
    (attributes.erase name).find? name = none := by
  simp [find?, ByName.find?, erase]

end Attributes

namespace Statement

/-! ### Loops that ask for tiling -/

/-- The attribute by which a loop asks for tiling. -/
def tileAttribute? (s : Statement) : Option Attribute :=
  s.loop?.bind fun l => l.attributes.find? Tile.attributeName

/-- The statement is no loop that asks for tiling. -/
def Untiled (s : Statement) : Prop := s.tileAttribute? = none

/-- The statement is no loop that has one of the new loops ask for tiling again. -/
def TilesOnce (s : Statement) : Prop :=
  ∀ a, s.tileAttribute? = some a →
    ∀ b ∈ a.argAttributes 1 ++ a.argAttributes 2, b.name ≠ Tile.attributeName

variable {s : Statement}

theorem tileAttribute?_of_kind (h : s.kind ≠ .loop) : s.tileAttribute? = none := by
  cases s with
  | loop => exact absurd rfl h
  | _ => rfl

theorem everywhere_of_parts_eq_nil {P : Statement → Prop} (h : s.parts = []) :
    s.Everywhere P ↔ P s := by
  rw [everywhere_iff, h, and_iff_right (List.forall_mem_nil _)]

theorem everywhere_untiled_expression (e : Expr) (place : Location) :
    (Statement.expression e place).Everywhere Untiled :=
  (everywhere_of_parts_eq_nil rfl).mpr rfl

theorem everywhere_untiled_declaration (ds : List Declarator) (place : Location) :
    (Statement.declaration ds place).Everywhere Untiled :=
  (everywhere_of_parts_eq_nil rfl).mpr rfl

theorem tileAttribute?_rebuild (s : Statement) (answers : List (Verdict Statement × Statement)) :
    (s.rebuild answers).tileAttribute? = s.tileAttribute? := by
  unfold rebuild
  split <;> rfl

theorem tileAttribute?_presented (f : Place → Verdict Statement) (site : Site ScopeId Statement) :
    (shape.presented f site).tileAttribute? = site.node.tileAttribute? := by
  rw [Shape.presented, shape.rewriteBelow_eq]
  exact tileAttribute?_rebuild _ _

/-- A loop whose header has no loop in it asks for tiling where its body does or itself. -/
theorem everywhere_untiled_toStatement {l : Loop} (hinit : l.init.Everywhere Untiled)
    (hcheck : l.check.Everywhere Untiled) (hupdate : l.update.Everywhere Untiled) :
    l.toStatement.Everywhere Untiled ↔
      (∀ c ∈ l.body, c.Everywhere Untiled) ∧ l.attributes.find? Tile.attributeName = none := by
  rw [everywhere_iff]
  show (∀ c ∈ l.init :: l.check :: l.update :: l.body, _) ∧ _ ↔ _
  simp only [List.forall_mem_cons, hinit, hcheck, hupdate, true_and]
  rfl

end Statement

namespace Tile

open KernelTree.Statement

variable {o : TileOptions} {t : SymbolTable} {l : Loop} {a : Attribute} {c : CanonicalLoop}
  {size : Expr} {k : ScopeId}

/-- The header of a canonical loop has no loops in it. -/
theorem everywhere_untiled_header (hd : c.Describes l) : l.init.Everywhere Untiled ∧
    l.check.Everywhere Untiled ∧ l.update.Everywhere Untiled := by
  obtain ⟨_, hinit⟩ := hd.init
  obtain ⟨_, _, _, hcheck⟩ := hd.check
  obtain ⟨_, _, hupdate, -⟩ := hd.update
  rw [hinit, hcheck, hupdate]
  exact ⟨everywhere_untiled_declaration _ _, everywhere_untiled_expression _ _,
    everywhere_untiled_expression _ _⟩

theorem everywhere_untiled_blockLoop (hd : c.Describes l) (reach : Expr) (blockVar : VarId)
    (blockScope : ScopeId) (body : List Statement) :
    (blockLoop l a c reach blockVar blockScope body).toStatement.Everywhere Untiled ↔
      (∀ s ∈ body, s.Everywhere Untiled) ∧ ∀ b ∈ a.argAttributes 1, b.name ≠ attributeName := by
  have hsource : (Substitution.mk (.variable c.iterator) (.variable blockVar)).source
      = .variable c.iterator := rfl
  obtain ⟨_, hi⟩ := hd.init
  obtain ⟨_, _, _, hc⟩ := hd.check
  have hinit : (l.init.substitute ⟨.variable c.iterator, .variable blockVar⟩).Everywhere
      Untiled := by
    rw [hi, substitute_declare hsource]
    exact everywhere_untiled_declaration _ _
  have hcheck : (l.check.substitute ⟨.variable c.iterator, .variable blockVar⟩).Everywhere
      Untiled := by
    rw [hc, substitute_expression hsource]
    exact everywhere_untiled_expression _ _
  refine (everywhere_untiled_toStatement hinit hcheck
    (everywhere_untiled_expression _ _)).trans (and_congr_right' ?_)
  exact Attributes.find?_merge_eq_none.trans (and_iff_right rfl)

theorem everywhere_untiled_innerLoop (hd : c.Describes l) (reach : Expr) (blockVar : VarId)
    (body : List Statement) :
    (innerLoop l a c reach blockVar body).toStatement.Everywhere Untiled ↔
      (∀ s ∈ body, s.Everywhere Untiled) ∧ ∀ b ∈ a.argAttributes 2, b.name ≠ attributeName := by
  have hinit : (innerLoop l a c reach blockVar body).init.Everywhere Untiled :=
    everywhere_untiled_declaration _ _
  have hcheck : (innerLoop l a c reach blockVar body).check.Everywhere Untiled :=
    everywhere_untiled_expression _ _
  refine (everywhere_untiled_toStatement hinit hcheck (everywhere_untiled_header hd).2.2).trans
    (and_congr_right' ?_)
  exact Attributes.find?_merge_eq_none.trans
    (and_iff_right (Attributes.find?_erase l.attributes attributeName))

/-- The two loops ask for tiling just if the arguments of the attribute or the body do. -/
theorem everywhere_untiled_tile (hd : c.Describes l) :
    (tile o t l a size c k).1.toStatement.Everywhere Untiled ↔
      (∀ s ∈ l.body, s.Everywhere Untiled) ∧
        ∀ b ∈ a.argAttributes 1 ++ a.argAttributes 2, b.name ≠ attributeName := by
  by_cases hguard : wantsGuard o a
  · obtain ⟨blockScope, branchScope, htile⟩ := tile_of_guard t l size c k hguard
    have hbranch : ∀ e, (Statement.branch branchScope (.ofExpr e) l.body none
        l.check.location).Everywhere Untiled ↔ ∀ s ∈ l.body, s.Everywhere Untiled := by
      intro e
      have hself : Untiled (.branch branchScope (.ofExpr e) l.body none l.check.location) := rfl
      rw [everywhere_iff, and_iff_left hself]
      show (∀ s ∈ Statement.ofExpr e :: l.body, _) ↔ _
      rw [List.forall_mem_cons]
      exact and_iff_right (everywhere_untiled_expression _ _)
    rw [htile, everywhere_untiled_blockLoop hd, List.forall_mem_singleton,
      everywhere_untiled_innerLoop hd, List.forall_mem_singleton, hbranch, List.forall_mem_append]
    tauto
  · obtain ⟨blockScope, htile⟩ := tile_of_not_guard t l size c k hguard
    rw [htile, everywhere_untiled_blockLoop hd, List.forall_mem_singleton,
      everywhere_untiled_innerLoop hd, List.forall_mem_append]
    tauto

/-- A loop that is tiled gets a variable for its blocks. -/
theorem vars_size_tile : (tile o t l a size c k).2.vars.size = t.vars.size + 1 := by
  have hblock : (declareBlock o t l c.iterator k).2.2.vars.size = t.vars.size + 1 :=
    Array.size_push _
  by_cases hguard : wantsGuard o a
  · simp only [tile, hguard, if_true]
    exact (congrArg Array.size (vars_guard _ c l.scope l.body l.check.location)).trans hblock
  · simp only [tile, hguard]
    exact hblock

/-! ### Visits -/

/-- A statement that does not ask for tiling is kept. -/
theorem visit_of_untiled {s : Statement} (h : s.Untiled) (st : State) :
    visit o s k st = (.ok .keep, st) := by
  unfold visit
  cases hloop : s.loop? with
  | none => rfl
  | some l =>
    rw [Untiled, tileAttribute?, hloop] at h
    have hnone : l.attributes.find? attributeName = none := h
    simp only [hnone]

/-- Only such statements are kept. -/
theorem untiled_of_visit {s : Statement} {st st' : State}
    (h : visit o s k st = (.ok .keep, st')) : s.Untiled := by
  rw [Untiled, tileAttribute?]
  unfold visit at h
  cases hloop : s.loop? with
  | none => rfl
  | some l =>
    simp only [hloop] at h
    cases hattr : l.attributes.find? attributeName with
    | none => exact hattr
    | some a =>
      simp only [hattr] at h
      split at h
      · cases h
      · split at h <;> cases h

/-- A run over statements that does not fail adds a variable for every one that asks for tiling. -/
theorem vars_size_of_conversation {f : Place → Verdict Statement}
    {sites : List (Site ScopeId Statement)} {st : State} {p : Progress State PassError}
    (h : shape.Conversation (pass o).visitor f sites st p) (hok : p.failure = none) :
    p.state.table.vars.size
      = st.table.vars.size + sites.countP fun site => site.node.tileAttribute?.isSome := by
  induction h with
  | finished => rfl
  | failed => cases hok
  | @answered site rest st st' p hvisit _ ih =>
    rw [ih hok]
    -- Kept: nothing is declared. Failed: not in such a run. Tiled: the block variable is new.
    rcases visit_cases hvisit with ⟨htable, hv | ⟨e, he⟩⟩ | ⟨l, a, size, c, hl, ha, -, -, htable⟩
    · have huntiled : site.node.tileAttribute? = none := by
        rw [← tileAttribute?_presented f]
        exact untiled_of_visit (hvisit.trans (congrArg (·, st') hv))
      rw [htable, List.countP_cons, huntiled]
      rfl
    · cases he
    · have hasks : site.node.tileAttribute?.isSome := by
        rw [← tileAttribute?_presented f, hl]
        exact Option.isSome_iff_exists.mpr ⟨a, ha⟩
      rw [htable, vars_size_tile, List.countP_cons, if_pos hasks]
      omega

/-- A run over statements the first of which do not ask for tiling keeps those and goes on as it
began. -/
theorem conversation_of_untiled {f : Place → Verdict Statement}
    {first rest : List (Site ScopeId Statement)} {st : State} {p : Progress State PassError}
    (hfirst : ∀ site ∈ first, site.node.Untiled)
    (h : shape.Conversation (pass o).visitor f (first ++ rest) st p) :
    shape.Conversation (pass o).visitor f rest st p ∧ ∀ site ∈ first, f site.place = .keep := by
  induction first with
  | nil => exact ⟨h, List.forall_mem_nil _⟩
  | cons site first ih =>
    obtain ⟨hsite, hfirst⟩ := List.forall_mem_cons.mp hfirst
    have hvisit : (pass o).visitor.visit (shape.presented f site) site.around st
        = (.ok .keep, st) :=
      visit_of_untiled ((tileAttribute?_presented f site).trans hsite) st
    cases h with
    | failed herror => cases hvisit.symm.trans herror
    | answered hanswered hrest =>
      obtain ⟨hanswer, rfl⟩ := Prod.mk.inj (hvisit.symm.trans hanswered)
      obtain ⟨hgoes, hkeeps⟩ := ih hfirst hrest
      exact ⟨hgoes, List.forall_mem_cons.mpr ⟨(Except.ok.inj hanswer).symm, hkeeps⟩⟩

/-- A run over statements none of which asks for tiling keeps them all and changes nothing. -/
theorem keeps_of_conversation {f : Place → Verdict Statement}
    {sites : List (Site ScopeId Statement)} {st : State} {p : Progress State PassError}
    (hsites : ∀ site ∈ sites, site.node.Untiled)
    (h : shape.Conversation (pass o).visitor f sites st p) :
    p = ⟨st, none⟩ ∧ ∀ site ∈ sites, f site.place = .keep := by
  rw [← List.append_nil sites] at h
  obtain ⟨hdone, hkeeps⟩ := conversation_of_untiled hsites h
  cases hdone with
  | finished => exact ⟨rfl, hkeeps⟩

end Tile

namespace Statement

variable {o : TileOptions} {k : ScopeId} {s s' : Statement} {st st' : Tile.State}

/-! ### One run -/

/-- The loops of a statement, in the order of the walk. -/
def loops (k : ScopeId) (s : Statement) : List (Site ScopeId Statement) :=
  (shape.sites k s).filter fun site => site.node.kind = .loop

theorem mem_loops {site : Site ScopeId Statement} :
    site ∈ s.loops k ↔ site ∈ shape.sites k s ∧ site.node.kind = .loop := by
  rw [loops, List.mem_filter, decide_eq_true_iff]

/-- What tiling answers about the statements inside a statement. -/
theorem exists_answers_tile (o : TileOptions) (k : ScopeId) (s : Statement) (st : Tile.State) :
    ∃ f p, s.tile o k st = (inSlot (f [], shape.rewriteBelow f s), p) ∧
      (∀ site ∈ shape.sites k s, site.node.kind ≠ .loop → f site.place = .keep) ∧
      shape.Conversation (Tile.pass o).visitor f (s.loops k) st p := by
  obtain ⟨f, p, hwalk, hrewrites⟩ := shape.exists_rewrites (Tile.pass o).visitor k s st
  refine ⟨f, p, ?_, fun site hsite hkind => hrewrites.others site hsite ?_, hrewrites.visits⟩
  · rw [Statement.tile, walk_eq, Walk.start_map, hwalk]
  · exact fun hasked => hkind (of_decide_eq_true hasked)

/-- A statement that is kept asks for no tiling, so that only its parts matter. -/
theorem everywhere_untiled_of_kept (hs : s.Untiled) (hs' : s'.Untiled)
    (hparts : List.Forall₂ (fun c c' => c'.Everywhere Untiled ↔ c.Everywhere TilesOnce)
      s.parts s'.parts) : s'.Everywhere Untiled ↔ s.Everywhere TilesOnce := by
  have honce : s.TilesOnce := by
    intro a ha
    rw [Untiled, ha] at hs
    cases hs
  rw [everywhere_iff, everywhere_iff, forall_mem_congr hparts, and_iff_left hs',
    and_iff_left honce]

/-- A loop that is tiled asks again where its parts or its attribute do. -/
theorem everywhere_untiled_of_tiled {t : SymbolTable} {l : Loop} {a : Attribute} {size : Expr}
    {c : CanonicalLoop} (hs : s.tileAttribute? = some a) (hd : c.Describes l)
    (hparts : List.Forall₂ (fun c c' => c'.Everywhere Untiled ↔ c.Everywhere TilesOnce)
      s.parts l.toStatement.parts) :
    (Tile.tile o t l a size c k).1.toStatement.Everywhere Untiled ↔ s.Everywhere TilesOnce := by
  obtain ⟨hinit, hcheck, hupdate⟩ := Tile.everywhere_untiled_header hd
  have hbody : (∀ c ∈ l.toStatement.parts, c.Everywhere Untiled) ↔
      ∀ c ∈ l.body, c.Everywhere Untiled := by
    show (∀ c ∈ l.init :: l.check :: l.update :: l.body, _) ↔ _
    simp only [List.forall_mem_cons, hinit, hcheck, hupdate, true_and]
  -- The attributes of both new loops come from the arguments, where `tile` may stand again.
  have honce : s.TilesOnce ↔
      ∀ b ∈ a.argAttributes 1 ++ a.argAttributes 2, b.name ≠ Tile.attributeName := by
    rw [TilesOnce, hs]
    exact ⟨fun h => h a rfl, fun h a' ha' => Option.some.inj ha' ▸ h⟩
  rw [Tile.everywhere_untiled_tile hd, everywhere_iff (P := TilesOnce), ← forall_mem_congr hparts,
    hbody, honce]

/-- What a run that succeeds answers: loops that ask for tiling are tiled, all else is kept. -/
theorem exists_answers_of_tile (hok : s.tile o k st = (s', ⟨st', none⟩)) :
    ∃ f : Place → Verdict Statement, s' = inSlot (f [], shape.rewriteBelow f s) ∧
      ∀ site ∈ shape.sites k s, f site.place = .keep ∧ site.node.Untiled ∨
        ∃ t l a size c, shape.presented f site = l.toStatement ∧
          site.node.tileAttribute? = some a ∧ CanonicalLoop.Describes c l ∧
          f site.place = .replace (Tile.tile o t l a size c site.around).1.toStatement := by
  obtain ⟨f, p, hrun, hothers, hvisits⟩ := exists_answers_tile o k s st
  obtain ⟨rfl, rfl⟩ := Prod.mk.inj (hok.symm.trans hrun)
  refine ⟨f, rfl, fun site hsite => ?_⟩
  by_cases hkind : site.node.kind = .loop
  · obtain ⟨st, st', hvisit⟩ := hvisits.exists_visit rfl site (mem_loops.mpr ⟨hsite, hkind⟩)
    rw [Untiled, ← tileAttribute?_presented f]
    rcases Tile.visit_cases hvisit with ⟨-, hv | ⟨e, he⟩⟩ | ⟨l, a, size, c, hl, ha, hd, hv, -⟩
    · have huntiled := Tile.untiled_of_visit (hvisit.trans (congrArg (·, st') hv))
      exact .inl ⟨Except.ok.inj hv, huntiled⟩
    · cases he
    · exact .inr ⟨_, l, a, size, c, hl, by rw [hl]; exact ha, hd, Except.ok.inj hv⟩
  · exact .inl ⟨hothers site hsite hkind, tileAttribute?_of_kind hkind⟩

/-- A run that succeeds leaves loops that ask for tiling just where attributes bring new ones. -/
theorem everywhere_untiled_of_tile (hok : s.tile o k st = (s', ⟨st', none⟩)) :
    s'.Everywhere Untiled ↔ s.Everywhere TilesOnce := by
  obtain ⟨f, rfl, hanswer⟩ := exists_answers_of_tile hok
  refine rewrite_induction (M := fun _ s s' => s'.Everywhere Untiled ↔ s.Everywhere TilesOnce)
    (k := k) ?_ ?_
  · intro site hsite hremove
    rcases hanswer site hsite with ⟨hv, -⟩ | ⟨_, _, _, _, _, -, -, -, hv⟩ <;>
      cases hv.symm.trans hremove
  · intro site hsite hparts
    rcases hanswer site hsite with ⟨hv, huntiled⟩ | ⟨t, l, a, size, c, hl, ha, hd, hv⟩
    · rw [hv]
      exact everywhere_untiled_of_kept huntiled
        ((tileAttribute?_presented f site).trans huntiled) hparts
    · rw [hv]
      rw [hl] at hparts
      exact everywhere_untiled_of_tiled ha hd hparts

/-- Tiling is without effect just where no loop asks for it. -/
theorem tile_eq_self_iff : s.tile o k st = (s, ⟨st, none⟩) ↔ s.Everywhere Untiled := by
  obtain ⟨f, p, hrun, hothers, hvisits⟩ := exists_answers_tile o k s st
  rw [everywhere_iff_sites k]
  constructor
  · intro hself
    obtain ⟨-, rfl⟩ := Prod.mk.inj (hself.symm.trans hrun)
    have hsize := Tile.vars_size_of_conversation hvisits rfl
    have hnone := List.countP_eq_zero.mp (Nat.add_eq_left.mp hsize.symm)
    intro site hsite
    by_cases hkind : site.node.kind = .loop
    · exact Option.not_isSome_iff_eq_none.mp (hnone site (mem_loops.mpr ⟨hsite, hkind⟩))
    · exact tileAttribute?_of_kind hkind
  · intro huntiled
    obtain ⟨rfl, hkeeps⟩ := Tile.keeps_of_conversation
      (fun site hsite => huntiled site (mem_loops.mp hsite).1) hvisits
    have hall : ∀ site ∈ shape.sites k s, f site.place = .keep := by
      intro site hsite
      by_cases hkind : site.node.kind = .loop
      · exact hkeeps site (mem_loops.mpr ⟨hsite, hkind⟩)
      · exact hothers site hsite hkind
    have hroot : f [] = .keep := hall ⟨[], k, s⟩ (shape.mem_sites.mpr (.root k s))
    rw [hrun, rewriteBelow_of_keep hall, hroot]
    rfl

/-! ### Two runs -/

/-- **Tiling what has been tiled.** After a run that succeeds no loop asks for tiling, just if no
attribute that asked for it brings a tile attribute for one of the two new loops; and just then
another run succeeds, changes nothing and reports nothing. -/
theorem tile_tile (hok : s.tile o k st = (s', ⟨st', none⟩)) :
    (s'.Everywhere Untiled ↔ s.Everywhere TilesOnce) ∧
      ∀ (o' : TileOptions) (k' : ScopeId) (st'' : Tile.State),
        s'.tile o' k' st'' = (s', ⟨st'', none⟩) ↔ s.Everywhere TilesOnce :=
  ⟨everywhere_untiled_of_tile hok,
    fun _ _ _ => tile_eq_self_iff.trans (everywhere_untiled_of_tile hok)⟩

/-- The attribute of these loops brings no others. -/
theorem everywhere_tilesOnce_tiledLoop {scope : ScopeId} {v : VarId} {body : List Statement}
    (hbody : ∀ s ∈ body, s.Everywhere TilesOnce) :
    (tiledLoop scope v body).toStatement.Everywhere TilesOnce := by
  have hleaf {s : Statement} (hparts : s.parts = []) (hs : s.tileAttribute? = none) :
      s.Everywhere TilesOnce := by
    refine (everywhere_of_parts_eq_nil hparts).mpr fun a ha => ?_
    rw [hs] at ha
    cases ha
  refine everywhere_iff.mpr ⟨?_, fun a ha => ?_⟩
  · show ∀ c ∈ (tiledLoop scope v body).init :: (tiledLoop scope v body).check ::
      (tiledLoop scope v body).update :: body, _
    simp only [List.forall_mem_cons]
    exact ⟨hleaf rfl rfl, hleaf rfl rfl, hleaf rfl rfl, hbody⟩
  · obtain rfl := Option.some.inj ha
    exact List.forall_mem_nil _

theorem everywhere_tilesOnce_nestedLoops : nestedLoops.Everywhere TilesOnce :=
  everywhere_tilesOnce_tiledLoop (List.forall_mem_singleton.mpr
    (everywhere_tilesOnce_tiledLoop (List.forall_mem_nil _)))

theorem tile_tile_nestedLoops :
    ∃ s' st', nestedLoops.tile .standard .global ⟨nestedTable, .empty none⟩ = (s', ⟨st', none⟩) ∧
      s'.Everywhere Untiled ∧
      s'.tile .standard .global st' = (s', ⟨st', none⟩) := by
  have hfailure : (nestedLoops.tile .standard .global ⟨nestedTable, .empty none⟩).2.failure
      = none := by
    cbv
  obtain ⟨s', st', hrun⟩ := Walk.exists_of_failure hfailure
  obtain ⟨huntiled, hagain⟩ := tile_tile hrun
  exact ⟨s', st', hrun, huntiled.mpr everywhere_tilesOnce_nestedLoops,
    (hagain _ _ _).mpr everywhere_tilesOnce_nestedLoops⟩

/-- The attribute `@tile(2, , @tile(2))`. -/
def tileAgain : Attribute :=
  ⟨Tile.attributeName, [⟨.ofValue (.int 2) .none, []⟩, ⟨.empty .none, []⟩,
    ⟨.empty .none, [Tile.tileByTwo]⟩], [], .none⟩

/-- The loop `for (int i = 0; i < 4; ++i; @tile(2, , @tile(2))) { }`. -/
def tiledAgainLoop : Statement :=
  { tiledLoop ⟨1⟩ ⟨0⟩ [] with attributes := [tileAgain] }.toStatement

/-- The inner loop asks for tiling again, and gets it. -/
theorem tiledAgainLoop_tiled_again :
    ∃ s' st', tiledAgainLoop.tile .standard .global ⟨nestedTable, .empty none⟩
        = (s', ⟨st', none⟩) ∧
      ¬ s'.Everywhere Untiled ∧
      s'.tile .standard .global st' ≠ (s', ⟨st', none⟩) := by
  have hfailure : (tiledAgainLoop.tile .standard .global ⟨nestedTable, .empty none⟩).2.failure
      = none := by
    cbv
  obtain ⟨s', st', hrun⟩ := Walk.exists_of_failure hfailure
  have hagain : ¬ tiledAgainLoop.Everywhere TilesOnce := fun h =>
    (everywhere_iff.mp h).2 tileAgain rfl Tile.tileByTwo List.mem_cons_self rfl
  have huntiled := mt (everywhere_untiled_of_tile hrun).mp hagain
  exact ⟨s', st', hrun, huntiled, mt tile_eq_self_iff.mp huntiled⟩

end Statement

end KernelTree
