import KernelTree.Proofs.Loop.Uses
import KernelTree.Proofs.SymbolTable.Redirect

/-!
# Scopes that tiling puts into each other

Tiling puts the scope of a loop into a new one, which lies where that scope lay or, if it lay in
none, in the scope around the loop; and it puts the scopes of a guarded body into a new one that
lies in the scope of the loop. So `Statement.Nests` says which scopes come to lie in which. If none
comes to lie in itself, the scopes form a forest as before when tiling is done, and if nothing
inside of a loop is to be tiled this is needed as well (`Statement.isForest_tile`). A loop that has
the outermost scope for its own, and stands in it, turns the scopes into a circle
(`Statement.counterLoop_circle`).
-/

namespace KernelTree

open Relation

variable {o : TileOptions} {t t' t₀ : SymbolTable} {l : Loop} {a : Attribute} {c : CanonicalLoop}
  {size : Expr} {k x y : ScopeId} {N : ScopeId → ScopeId → Prop} {home : ScopeId → ScopeId}

namespace Tile

/-! ### The two new scopes -/

/-- The scope that the new one of the block loop lies in: the one that the scope of the loop lay in,
or the one around the loop. -/
def blockParent (t : SymbolTable) (l : Loop) (k : ScopeId) : ScopeId := (t.parent? l.scope).getD k

/-- A forest has the scope in which the block variable is declared. -/
theorem has_blockParent (hf : t.IsForest) (hk : t.Has k) : t.Has (blockParent t l k) := by
  unfold blockParent
  cases hp : t.parent? l.scope with
  | none => exact hk
  | some p => exact hf.closed hp

/-- Declaring the block variable moves the scope of the loop below a new one. -/
theorem redirects_declareBlock (o : TileOptions) (v : VarId) (hs : t.Has l.scope)
    (hp : t.Has (blockParent t l k)) :
    t.Redirects (declareBlock o t l v k).2.2 (blockParent t l k) [l.scope] := by
  let t₁ := (t.cloneVariable v (o.iteratorMark ++ (t.var v).name)).2
  have hnew : t₁.Redirects (t₁.newScope (blockParent t l k)).2 _ [] :=
    SymbolTable.redirects_newScope hp
  have hdeclared := hnew.of_parents_eq (SymbolTable.size_declare _ t₁.nextScope
    (o.iteratorMark ++ (t.var v).name) (.variable ⟨t.vars.size⟩))
    (SymbolTable.parent?_declare _ _ _ _)
  have hadopt : t₁.Redirects (declareBlock o t l v k).2.2 _ [l.scope] := hdeclared.adopt hs
  -- The new variable changes nothing about the scopes.
  exact ⟨hadopt.size, hadopt.known, hadopt.new, hadopt.adopted, hadopt.kept⟩

/-- The guard moves the scopes at the top of the body below a new one. -/
theorem redirects_guard {body : List Statement} (hk : t.Has k)
    (hbody : ∀ x ∈ body.filterMap Statement.scope?, t.Has x) (c : CanonicalLoop)
    (place : Location) :
    t.Redirects (guard t c k body place).2 k (body.filterMap Statement.scope?) := by
  have hadopt := (SymbolTable.redirects_newScope hk).adoptAll hbody
  rw [List.nil_append] at hadopt
  exact hadopt

/-- With a guard the table has two new scopes. -/
theorem table_tile_of_guard (hguard : wantsGuard o a) : (tile o t l a size c k).2
    = (guard (declareBlock o t l c.iterator k).2.2 c l.scope l.body l.check.location).2 := by
  simp only [tile, hguard, if_true]

/-- Without a guard the table has one new scope. -/
theorem table_tile_of_not_guard (hguard : ¬ wantsGuard o a) :
    (tile o t l a size c k).2 = (declareBlock o t l c.iterator k).2.2 := by
  simp only [tile, hguard]
  rfl

/-- The block loop has the first new scope. -/
theorem scope_tile : (tile o t l a size c k).1.scope = t.nextScope := by
  by_cases hguard : wantsGuard o a
  · simp only [tile, hguard, if_true]
    rfl
  · simp only [tile, hguard]
    rfl

/-! ### One loop -/

/-- Without a circle nothing that was put into a new scope has been around it. -/
theorem not_reaches_of_isForest_tile (hf : t.IsForest) (hk : t.Has k) (hs : t.Has l.scope)
    (hbody : ∀ x ∈ l.body.filterMap Statement.scope?, t.Has x)
    (hforest : (tile o t l a size c k).2.IsForest) :
    ¬ t.Reaches (blockParent t l k) l.scope ∧
      (wantsGuard o a → ∀ x ∈ l.body.filterMap Statement.scope?,
        x ≠ l.scope ∧ ¬ t.Reaches (blockParent t l k) x) := by
  have hblock := redirects_declareBlock (k := k) o c.iterator hs (has_blockParent hf hk)
  by_cases hguard : wantsGuard o a
  · rw [table_tile_of_guard hguard] at hforest
    have hbranch := redirects_guard (hblock.has hs) (fun x hx => hblock.has (hbody x hx)) c
      l.check.location
    have hclear := hbranch.not_reaches hforest
    have hout : ∀ {x}, SymbolTable.Reaches _ (blockParent t l k) x →
        TransGen (declareBlock o t l c.iterator k).2.2.Inside l.scope x := fun hx =>
      .head (hblock.adopted _ List.mem_cons_self).2 (.head' hblock.new hx)
    have hfree : ¬ t.Reaches (blockParent t l k) l.scope := by
      intro hreaches
      have hcircle : TransGen (declareBlock o t l c.iterator k).2.2.Inside l.scope l.scope := by
        obtain hreaches | ⟨m, hm, hreaches⟩ := hblock.reaches_or hreaches
        · exact hout hreaches
        · exact hout (List.mem_singleton.mp hm ▸ hreaches)
      -- No scope of the body is in this circle, so the second new scope does not break it up.
      exact hforest.acyclic _ (hbranch.transGen hclear hcircle)
    refine ⟨hfree, fun _ x hx => ⟨?_, fun hreaches => ?_⟩⟩
    · rintro rfl
      exact hclear _ hx .refl
    · refine hclear x hx (hout (hblock.reaches (fun m hm => ?_) hreaches)).to_reflTransGen
      rw [List.mem_singleton.mp hm]
      exact hfree
  · rw [table_tile_of_not_guard hguard] at hforest
    exact ⟨hblock.not_reaches hforest _ List.mem_cons_self, fun h => absurd h hguard⟩

/-! ### Homes -/

/-- Every scope of the table is at `home` in one of those that were there first: these are at home
in themselves, and scopes lie in scopes as `N` has it for their homes. -/
structure Homes (t₀ : SymbolTable) (N : ScopeId → ScopeId → Prop) (t : SymbolTable)
    (home : ScopeId → ScopeId) : Prop where
  forest : t.IsForest
  first (x : ScopeId) (hx : t₀.Has x) : t.Has x ∧ home x = x
  nested {x y : ScopeId} (h : t.parent? x = some y) : ReflTransGen N (home x) (home y)
  outermost (x : ScopeId) (hx : t₀.Has x) (h : t.parent? x = none) : t₀.parent? x = none

/-- The homes with one for the scope that is added next. -/
def newHome (t : SymbolTable) (home : ScopeId → ScopeId) (y : ScopeId) :
    ScopeId → ScopeId :=
  Function.update home t.nextScope y

theorem newHome_self (t : SymbolTable) (home : ScopeId → ScopeId) (y : ScopeId) :
    newHome t home y t.nextScope = y := Function.update_self ..

/-- Scopes stay, and stay at home. -/
def KeepsHomes (t : SymbolTable) (home : ScopeId → ScopeId) (t' : SymbolTable)
    (home' : ScopeId → ScopeId) : Prop :=
  ∀ x, t.Has x → t'.Has x ∧ home' x = home x

theorem KeepsHomes.trans {t'' : SymbolTable} {home' home'' : ScopeId → ScopeId}
    (h : KeepsHomes t home t' home') (h' : KeepsHomes t' home' t'' home'') :
    KeepsHomes t home t'' home'' := by
  intro x hx
  obtain ⟨hx', hhome⟩ := h x hx
  obtain ⟨hx'', hhome'⟩ := h' x hx'
  exact ⟨hx'', hhome'.trans hhome⟩

/-- One new scope that takes in others leaves everything else at home. -/
theorem keepsHomes_newHome {p : ScopeId} {moved : List ScopeId} (hr : t.Redirects t' p moved)
    (home : ScopeId → ScopeId) (y : ScopeId) : KeepsHomes t home t' (newHome t home y) :=
  fun _ hx => ⟨hr.has hx, Function.update_of_ne (SymbolTable.ne_nextScope hx) _ _⟩

namespace Homes

/-- What reaches a scope in the table reaches its home in the program. -/
theorem reaches (h : Homes t₀ N t home) (hx : t.Reaches x y) :
    ReflTransGen N (home x) (home y) := by
  induction hx with
  | refl => exact .refl
  | tail _ hlink ih => exact ih.trans (h.nested hlink)

/-- The new scope gets a home between that of the scope it lies in and those of the scopes that are
put into it. -/
theorem redirect {p : ScopeId} {moved : List ScopeId} (h : Homes t₀ N t home)
    (hr : t.Redirects t' p moved) (hclear : ∀ m ∈ moved, ¬ t.Reaches p m)
    (hnew : ReflTransGen N y (home p)) (hmoved : ∀ m ∈ moved, ReflTransGen N (home m) y) :
    Homes t₀ N t' (newHome t home y) := by
  have hkeeps := keepsHomes_newHome hr home y
  refine ⟨hr.isForest hclear h.forest, fun x hx => ?_, fun {x q} hx => ?_, fun x hx hp => ?_⟩
  · obtain ⟨hhas, hhome⟩ := h.first x hx
    exact ⟨hr.has hhas, (hkeeps x hhas).2.trans hhome⟩
  · obtain ⟨rfl, rfl⟩ | ⟨hm, hhas, rfl⟩ | ⟨-, hlink⟩ := hr.parent?_cases hx
    · rw [newHome_self, (hkeeps _ hr.known).2]
      exact hnew
    · rw [newHome_self, (hkeeps x hhas).2]
      exact hmoved x hm
    · rw [(hkeeps x (SymbolTable.has_of_parent? hlink)).2, (hkeeps q (h.forest.closed hlink)).2]
      exact h.nested hlink
  · have hhas := (h.first x hx).1
    by_cases hm : x ∈ moved
    · rw [(hr.adopted x hm).2] at hp
      cases hp
    · rw [hr.kept x hhas hm] at hp
      exact h.outermost x hx hp

variable (hN : ∀ x, ¬ TransGen N x x)

include hN

/-- The scope of the block loop is at home in that of the loop. -/
theorem declareBlock (v : VarId) (h : Homes t₀ N t home) (hk : t₀.Has k) (hs : t₀.Has l.scope)
    (haround : t₀.parent? l.scope = none → N l.scope k) :
    Homes t₀ N (Tile.declareBlock o t l v k).2.2 (newHome t home l.scope) := by
  obtain ⟨hhas, hhome⟩ := h.first _ hs
  obtain ⟨hkhas, hkhome⟩ := h.first _ hk
  have hplace : ReflTransGen N l.scope (home (blockParent t l k)) ∧
      ¬ t.Reaches (blockParent t l k) l.scope := by
    unfold blockParent
    cases hp : t.parent? l.scope with
    | none =>
      -- What lies nowhere now lay nowhere at first, so this is a step of `N`.
      have hout : N l.scope k := haround (h.outermost _ hs hp)
      refine ⟨hkhome.symm ▸ .single hout, fun hreaches => hN l.scope (.head' hout ?_)⟩
      have hhomes := h.reaches hreaches
      rwa [Option.getD_none, hkhome, hhome] at hhomes
    | some p =>
      exact ⟨hhome ▸ h.nested hp, fun hreaches => h.forest.acyclic _ (.head' hp hreaches)⟩
  refine h.redirect (redirects_declareBlock o v hhas (has_blockParent h.forest hkhas))
    (fun m hm => ?_) hplace.1 fun m hm => ?_
  · rw [List.mem_singleton.mp hm]
    exact hplace.2
  · rw [List.mem_singleton.mp hm, hhome]

/-- The scope of the branch is at home in that of the loop. -/
theorem guard {body : List Statement} (h : Homes t₀ N t home) (hk : t₀.Has k)
    (hbody : ∀ x ∈ body.filterMap Statement.scope?, t.Has x ∧ N (home x) k) (c : CanonicalLoop)
    (place : Location) : Homes t₀ N (Tile.guard t c k body place).2 (newHome t home k) := by
  obtain ⟨hkhas, hkhome⟩ := h.first _ hk
  refine h.redirect (redirects_guard hkhas (fun x hx => (hbody x hx).1) c place)
    (fun x hx hreaches => ?_) (hkhome.symm ▸ .refl) fun x hx => .single (hbody x hx).2
  have hhomes := h.reaches hreaches
  rw [hkhome] at hhomes
  exact hN k (.tail' hhomes (hbody x hx).2)

/-- Tiling a loop keeps scopes at home, and the scope of the block loop is at home in that of the
loop. -/
theorem tile (size : Expr) (c : CanonicalLoop) (h : Homes t₀ N t home) (hk : t₀.Has k)
    (hs : t₀.Has l.scope) (haround : t₀.parent? l.scope = none → N l.scope k)
    (hbody : ∀ x ∈ l.body.filterMap Statement.scope?,
      t.Has x ∧ (wantsGuard o a → N (home x) l.scope)) :
    ∃ home', Homes t₀ N (Tile.tile o t l a size c k).2 home' ∧
      KeepsHomes t home (Tile.tile o t l a size c k).2 home' ∧
      (Tile.tile o t l a size c k).2.Has t.nextScope ∧ home' t.nextScope = l.scope := by
  have hhas := (h.first _ hs).1
  have hblock := redirects_declareBlock o c.iterator hhas
    (has_blockParent h.forest (h.first _ hk).1)
  have hfirst := h.declareBlock (o := o) hN c.iterator hk hs haround
  have hkeeps := keepsHomes_newHome hblock home l.scope
  have hnew := newHome_self t home l.scope
  by_cases hguard : wantsGuard o a
  · rw [table_tile_of_guard hguard]
    have hbranch := redirects_guard (hblock.has hhas) (fun x hx => hblock.has (hbody x hx).1) c
      l.check.location
    have hkeeps' := keepsHomes_newHome hbranch (newHome t home l.scope) l.scope
    refine ⟨_, hfirst.guard hN hs (fun x hx => ?_) c l.check.location, hkeeps.trans hkeeps',
      hbranch.has hblock.has_nextScope, (hkeeps' _ hblock.has_nextScope).2.trans hnew⟩
    obtain ⟨hxhas, hnests⟩ := hbody x hx
    exact ⟨hblock.has hxhas, (hkeeps x hxhas).2 ▸ hnests hguard⟩
  · rw [table_tile_of_not_guard hguard]
    exact ⟨_, hfirst, hkeeps, hblock.has_nextScope, hnew⟩

end Homes

end Tile

namespace Statement

/-! ### The whole statement -/

/-- A scope comes to lie in another: it lies there, or it lies nowhere and is that of a tiled loop
in the other one, or it is that of a statement in the guarded body of a tiled loop with the other
one. -/
inductive Nests (o : TileOptions) (t : SymbolTable) (k : ScopeId) (s : Statement) :
    ScopeId → ScopeId → Prop
  | link {x y : ScopeId} (h : t.Inside x y) : Nests o t k s x y
  | around {site : Site ScopeId Statement} {l : Loop} {a : Attribute}
      (hsite : site ∈ shape.sites k s) (hl : site.node = l.toStatement)
      (hattr : l.attributes.find? Tile.attributeName = some a)
      (hroot : t.parent? l.scope = none) : Nests o t k s l.scope site.around
  | body {site : Site ScopeId Statement} {l : Loop} {a : Attribute} {b : Statement} {x : ScopeId}
      (hsite : site ∈ shape.sites k s) (hl : site.node = l.toStatement)
      (hattr : l.attributes.find? Tile.attributeName = some a) (hguard : Tile.wantsGuard o a)
      (hb : b ∈ l.body) (hx : b.scope? = some x) : Nests o t k s x l.scope

/-- The scopes that the statement and all statements inside open are in the table. -/
def ScopesKnown (t : SymbolTable) (s : Statement) : Prop :=
  s.Everywhere fun c => ∀ x, c.scope? = some x → t.Has x

variable {s : Statement}

/-- In a part of a statement no more is nested than in the statement. -/
theorem Nests.of_part {c : Statement} (hc : c ∈ s.parts)
    (h : c.Nests o t (shape.inside s k) x y) : s.Nests o t k x y := by
  obtain ⟨i, hi, rfl⟩ := List.getElem_of_mem hc
  cases h with
  | link h => exact .link h
  | @around site _ _ hsite hl hattr hroot =>
    have hsite' : site.under i ∈ shape.sites k s := mem_sites_part hi hsite
    have haround : s.Nests o t k _ (site.under i).around := .around hsite' hl hattr hroot
    exact haround
  | body hsite hl hattr hguard hb hx => exact .body (mem_sites_part hi hsite) hl hattr hguard hb hx

/-- The statement is in a scope that was there first, opens such scopes only and nests them as `N`
does. -/
structure Fits (o : TileOptions) (t₀ : SymbolTable) (N : ScopeId → ScopeId → Prop) (k : ScopeId)
    (s : Statement) : Prop where
  around : t₀.Has k
  scopes : s.ScopesKnown t₀
  nests (x y : ScopeId) (h : s.Nests o t₀ k x y) : N x y

theorem Fits.part (h : s.Fits o t₀ N k) {c : Statement} (hc : c ∈ s.parts) :
    c.Fits o t₀ N (shape.inside s k) := by
  obtain ⟨hparts, hself⟩ := everywhere_iff.mp h.scopes
  refine ⟨?_, hparts c hc, fun x y hxy => h.nests x y (hxy.of_part hc)⟩
  show t₀.Has (s.scope?.getD k)
  cases hs : s.scope? with
  | none => exact h.around
  | some x => exact hself x hs

/-- A statement is still there after the answer about it, and if it opens a scope now it opened that
where this one is at home. -/
structure Housed (t : SymbolTable) (home : ScopeId → ScopeId) (s : Statement)
    (answer : Verdict Statement × Statement) : Prop where
  kept : answer.1 ≠ .remove
  scope (x : ScopeId) (hx : (inSlot answer).scope? = some x) : t.Has x ∧ s.scope? = some (home x)

theorem Housed.keeps {home' : ScopeId → ScopeId} {answer : Verdict Statement × Statement}
    (h : Housed t home s answer) (hkeeps : Tile.KeepsHomes t home t' home') :
    Housed t' home' s answer := by
  refine ⟨h.kept, fun x hx => ?_⟩
  obtain ⟨hhas, hscope⟩ := h.scope x hx
  obtain ⟨hhas', hhome⟩ := hkeeps x hhas
  exact ⟨hhas', hhome ▸ hscope⟩

/-- What is left of a list of statements is left of its statements. -/
theorem exists_of_mem_inList {R : Statement → Verdict Statement × Statement → Prop}
    {body : List Statement} {answers : List (Verdict Statement × Statement)} {b : Statement}
    (h : List.Forall₂ R body answers) (hb : b ∈ answers.flatMap inList) :
    ∃ b₀ ∈ body, ∃ answer, R b₀ answer ∧ b = inSlot answer := by
  induction h with
  | nil => cases hb
  | @cons b₀ answer _ _ hfirst _ ih =>
    rw [List.flatMap_cons, List.mem_append] at hb
    obtain hb | hb := hb
    · refine ⟨b₀, List.mem_cons_self, answer, hfirst, ?_⟩
      obtain ⟨v, b'⟩ := answer
      cases v with
      | remove => cases hb
      | _ => exact List.mem_singleton.mp hb
    · obtain ⟨b₁, hb₁, hrest⟩ := ih hb
      exact ⟨b₁, List.mem_cons_of_mem _ hb₁, hrest⟩

/-- The loop that a loop was before the walk went through it. -/
theorem exists_loop_of_rebuild {answers : List (Verdict Statement × Statement)}
    (hs : s.rebuild answers = l.toStatement)
    (h : List.Forall₂ (Housed t home) s.parts answers) :
    ∃ l₀ : Loop, s = l₀.toStatement ∧ l₀.scope = l.scope ∧ l₀.attributes = l.attributes ∧
      ∀ b ∈ l.body, ∀ x, b.scope? = some x →
        t.Has x ∧ ∃ b₀ ∈ l₀.body, b₀.scope? = some (home x) := by
  have hkind := kind_rebuild s answers
  rw [hs] at hkind
  cases s with
  | loop scope init check update body attributes place =>
    obtain _ | ⟨hinit, _ | ⟨hcheck, _ | ⟨hupdate, hbody⟩⟩⟩ := h
    simp only [rebuild, Loop.toStatement, loop.injEq] at hs
    obtain ⟨rfl, -, -, -, hl, rfl, -⟩ := hs
    refine ⟨⟨_, init, check, update, body, _, place⟩, rfl, rfl, rfl, fun b hb x hx => ?_⟩
    rw [← hl] at hb
    obtain ⟨b₀, hb₀, answer, hhoused, rfl⟩ := exists_of_mem_inList hbody hb
    obtain ⟨hhas, hscope⟩ := hhoused.scope x hx
    exact ⟨hhas, b₀, hb₀, hscope⟩
  | _ => cases hkind

/-- One node: the answer about it after those about its parts. -/
theorem housed_answer (hN : ∀ x, ¬ TransGen N x x)
    {answers : List (Verdict Statement × Statement)} {p p' : Progress Tile.State PassError}
    {v : Verdict Statement} (hs : s.Fits o t₀ N k) (hhomes : Tile.Homes t₀ N p.state.table home)
    (hparts : List.Forall₂ (Housed p.state.table home) s.parts answers)
    (h : (shape.answer (Tile.pass o).visitor k (s.rebuild answers)).run p = (v, p')) :
    ∃ home', Tile.Homes t₀ N p'.state.table home' ∧
      Tile.KeepsHomes p.state.table home p'.state.table home' ∧
      Housed p'.state.table home' s (v, s.rebuild answers) := by
  rcases Tile.answer_cases h with ⟨rfl, htable⟩ | ⟨l, a, size, c, hl, ha, hd, rfl, htable⟩
  · -- Nothing has happened, and scopes that were there first are at home in themselves.
    rw [htable]
    refine ⟨home, hhomes, fun x hx => ⟨hx, rfl⟩, nofun, fun x hx => ?_⟩
    have hscope : s.scope? = some x := (scope?_rebuild s answers).symm.trans hx
    obtain ⟨hhas, hhome⟩ := hhomes.first x ((everywhere_iff.mp hs.scopes).2 x hscope)
    exact ⟨hhas, hhome.symm ▸ hscope⟩
  · -- The loop in the statement has the same scope and attributes, and another body.
    obtain ⟨l₀, rfl, hscope, hattributes, hbody⟩ := exists_loop_of_rebuild hl hparts
    have hroot : (⟨[], k, l₀.toStatement⟩ : Site ScopeId Statement)
        ∈ shape.sites k l₀.toStatement := shape.mem_sites.mpr (.root _ _)
    have hattr : l₀.attributes.find? Tile.attributeName = some a := hattributes ▸ ha
    have hknown : t₀.Has l.scope := (everywhere_iff.mp hs.scopes).2 _ (congrArg some hscope)
    obtain ⟨home', hhomes', hkeeps, hnew, hhome⟩ :=
      Tile.Homes.tile (o := o) (a := a) hN size c hhomes hs.around hknown
      (fun hnone => hs.nests _ _ (hscope ▸ .around hroot rfl hattr (hscope ▸ hnone)))
      (fun x hx => by
        obtain ⟨b, hb, hbx⟩ := List.mem_filterMap.mp hx
        obtain ⟨hhas, b₀, hb₀, hb₀x⟩ := hbody b hb x hbx
        exact ⟨hhas, fun hguard => hs.nests _ _ (hscope ▸ .body hroot rfl hattr hguard hb₀ hb₀x)⟩)
    rw [htable]
    refine ⟨home', hhomes', hkeeps, nofun, fun x hx => ?_⟩
    obtain rfl : p.state.table.nextScope = x := Option.some.inj (Tile.scope_tile ▸ hx)
    exact ⟨hnew, congrArg some (hscope.trans hhome.symm)⟩

/-- A run over the statement that starts with all scopes at home ends so. -/
def KeepsHoused (o : TileOptions) (t₀ : SymbolTable) (N : ScopeId → ScopeId → Prop) (k : ScopeId)
    (s : Statement) (p : Progress Tile.State PassError) (answer : Verdict Statement × Statement)
    (p' : Progress Tile.State PassError) : Prop :=
  ∀ home, s.Fits o t₀ N k → Tile.Homes t₀ N p.state.table home →
    ∃ home', Tile.Homes t₀ N p'.state.table home' ∧
      Tile.KeepsHomes p.state.table home p'.state.table home' ∧
      Housed p'.state.table home' s answer

/-- Every walk ends with all scopes at home if it starts so. -/
theorem keepsHoused_walk (hN : ∀ x, ¬ TransGen N x x) (k : ScopeId) (s : Statement)
    (p : Progress Tile.State PassError) :
    s.KeepsHoused o t₀ N k p ((shape.walk (Tile.pass o).visitor k s).run p).1
      ((shape.walk (Tile.pass o).visitor k s).run p).2 := by
  refine shape.run_induction (P := fun k s p answer p' => s.KeepsHoused o t₀ N k p answer p')
    (Q := fun k l p answers p' => ∀ home, (∀ s ∈ l, s.Fits o t₀ N k) →
      Tile.Homes t₀ N p.state.table home →
      ∃ home', Tile.Homes t₀ N p'.state.table home' ∧
        Tile.KeepsHomes p.state.table home p'.state.table home' ∧
        List.Forall₂ (Housed p'.state.table home') l answers) ?_ ?_ ?_ k s p
  · intro k p home _ hhomes
    exact ⟨home, hhomes, fun x hx => ⟨hx, rfl⟩, .nil⟩
  · intro k s l p answer p₁ answers p₂ hfirst hrest home hl hhomes
    obtain ⟨hs, hl⟩ := List.forall_mem_cons.mp hl
    obtain ⟨home₁, hhomes₁, hkeeps₁, hhoused⟩ := hfirst home hs hhomes
    obtain ⟨home₂, hhomes₂, hkeeps₂, hall⟩ := hrest home₁ hl hhomes₁
    exact ⟨home₂, hhomes₂, hkeeps₁.trans hkeeps₂, .cons (hhoused.keeps hkeeps₂) hall⟩
  · intro k s p answers p₁ v p₂ hparts hanswer home hs hhomes
    obtain ⟨home₁, hhomes₁, hkeeps₁, hall⟩ := hparts home (fun c hc => hs.part hc) hhomes
    obtain ⟨home₂, hhomes₂, hkeeps₂, hhoused⟩ := housed_answer hN hs hhomes₁ hall hanswer
    exact ⟨home₂, hhomes₂, hkeeps₁.trans hkeeps₂, hhoused⟩

/-- No circle of scopes that come to lie in each other, no circle of scopes. -/
theorem isForest_of_nests (st : Tile.State) (hf : st.table.IsForest) (hk : st.table.Has k)
    (hscopes : s.ScopesKnown st.table) (hN : ∀ x, ¬ TransGen (s.Nests o st.table k) x x) :
    (s.tile o k st).2.state.table.IsForest := by
  have hhomes : Tile.Homes st.table (s.Nests o st.table k) st.table id :=
    ⟨hf, fun x hx => ⟨hx, rfl⟩, fun h => .single (.link h), fun x _ h => h⟩
  obtain ⟨_, hdone, -, -⟩ := keepsHoused_walk hN k s ⟨st, none⟩ id
    ⟨hk, hscopes, fun _ _ h => h⟩ hhomes
  rw [Statement.tile, walk_eq, Walk.start_map]
  exact hdone.forest

/-! ### A loop with nothing to tile in it -/

/-- In such a loop scopes come to lie only in those of the loop and around it. -/
theorem nests_of_untiled (hattr : l.attributes.find? Tile.attributeName = some a)
    (hparts : ∀ c ∈ l.toStatement.parts, c.Everywhere Untiled)
    (h : l.toStatement.Nests o t k x y) :
    t.Inside x y ∨ (x = l.scope ∧ y = Tile.blockParent t l k) ∨
      (Tile.wantsGuard o a ∧ x ∈ l.body.filterMap scope? ∧ y = l.scope) := by
  -- The only loop to be tiled is the statement itself.
  have hroot : ∀ {site : Site ScopeId Statement} {l' : Loop} {a' : Attribute},
      site ∈ shape.sites k l.toStatement → site.node = l'.toStatement →
      l'.attributes.find? Tile.attributeName = some a' → site.place = [] := by
    intro site l' a' hsite hl hattr'
    by_contra hplace
    have huntiled := forall_sites_below hparts hsite hplace
    rw [hl, Untiled, tileAttribute?] at huntiled
    cases hattr'.symm.trans huntiled
  have hsame : ∀ {site : Site ScopeId Statement} {l' : Loop}, site ∈ shape.sites k l.toStatement →
      site.node = l'.toStatement → site.place = [] → site.around = k ∧ l = l' := by
    intro site l' hsite hl hplace
    cases shape.mem_sites.mp hsite with
    | root => exact ⟨rfl, Option.some.inj (congrArg loop? hl)⟩
    | part => cases hplace
  cases h with
  | link h => exact .inl h
  | around hsite hl hattr' hnone =>
    obtain ⟨haround, rfl⟩ := hsame hsite hl (hroot hsite hl hattr')
    exact .inr (.inl ⟨rfl, by rw [Tile.blockParent, haround, hnone, Option.getD_none]⟩)
  | body hsite hl hattr' hguard hb hx =>
    obtain ⟨-, rfl⟩ := hsame hsite hl (hroot hsite hl hattr')
    obtain rfl := Option.some.inj (hattr.symm.trans hattr')
    exact .inr (.inr ⟨hguard, List.mem_filterMap.mpr ⟨_, hb, hx⟩, rfl⟩)

/-- If tiling one loop leaves a forest, no scope of the loop is nested in itself. -/
theorem acyclic_nests_of_isForest_tile (hf : t.IsForest) (hk : t.Has k)
    (hscopes : l.toStatement.ScopesKnown t)
    (hattr : l.attributes.find? Tile.attributeName = some a)
    (hparts : ∀ c ∈ l.toStatement.parts, c.Everywhere Untiled)
    (hforest : (Tile.tile o t l a size c k).2.IsForest) :
    ∀ x, ¬ TransGen (l.toStatement.Nests o t k) x x := by
  obtain ⟨hbelow, hself⟩ := everywhere_iff.mp hscopes
  have hs : t.Has l.scope := hself _ rfl
  have hbody : ∀ x ∈ l.body.filterMap scope?, t.Has x := fun x hx => by
    obtain ⟨b, hb, hbx⟩ := List.mem_filterMap.mp hx
    have hpart : b ∈ l.toStatement.parts :=
      List.mem_cons_of_mem _ (List.mem_cons_of_mem _ (List.mem_cons_of_mem _ hb))
    exact (everywhere_iff.mp (hbelow b hpart)).2 x hbx
  obtain ⟨hfree, hguarded⟩ := Tile.not_reaches_of_isForest_tile hf hk hs hbody hforest
  set p := Tile.blockParent t l k with hp
  have hpne : p ≠ l.scope := fun h => hfree (h ▸ .refl)
  have hhas : t.Has p := Tile.has_blockParent hf hk
  have houtside : t.rank p l.scope p < t.rank p l.scope l.scope :=
    hf.rank_lt_rank_self hhas hpne .refl
  -- All scopes count as inside that of the loop but those that its new scope is put into.
  refine SymbolTable.not_transGen_of_rank (t.rank p l.scope) fun {x y} h => ?_
  obtain hlink | ⟨rfl, rfl⟩ | ⟨hguard, hx, rfl⟩ := nests_of_untiled hattr hparts h
  · by_cases hxs : x = l.scope
    · obtain rfl : p = y := by
        rw [hp, Tile.blockParent, ← hxs, show t.parent? x = some y from hlink, Option.getD_some]
      exact hxs ▸ houtside
    · by_cases hys : y = l.scope
      · rw [hys] at hlink ⊢
        exact SymbolTable.rank_self_lt_rank hxs fun hreaches => hfree (hreaches.tail hlink)
      · exact hf.rank_lt_rank hlink hxs hys
  · exact houtside
  · obtain ⟨hne, hnot⟩ := hguarded hguard x hx
    exact SymbolTable.rank_self_lt_rank hne hnot

/-! ### Scopes in their places -/

/-- The scope of a tiled loop lies in another one, and in it lie those of its body, if that is to be
guarded. -/
def HasPlace (o : TileOptions) (t : SymbolTable) (s : Statement) : Prop :=
  ∀ l a, s = Loop.toStatement l → l.attributes.find? Tile.attributeName = some a →
    t.parent? l.scope ≠ none ∧
      (Tile.wantsGuard o a → ∀ b ∈ l.body, ∀ x, b.scope? = some x → t.Inside x l.scope)

/-- With all loops in their places, scopes come to lie where they lie. -/
theorem inside_of_nests (h : s.Everywhere (HasPlace o t)) (hxy : s.Nests o t k x y) :
    t.Inside x y := by
  cases hxy with
  | link h => exact h
  | around hsite hl hattr hroot =>
    have hplace := (everywhere_iff_sites k).mp h _ hsite
    exact absurd hroot (hplace _ _ hl hattr).1
  | body hsite hl hattr hguard hb hx =>
    have hplace := (everywhere_iff_sites k).mp h _ hsite
    exact (hplace _ _ hl hattr).2 hguard _ hb _ hx

/-- Where all loops have a place in the table, no scope is nested in itself. -/
theorem acyclic_nests (hf : t.IsForest) (h : s.Everywhere (HasPlace o t)) (x : ScopeId) :
    ¬ TransGen (s.Nests o t k) x x :=
  fun hx => hf.acyclic x (hx.lift id fun _ _ => inside_of_nests h)

/-! ### Circles -/

/-- **Tiling makes circles of scopes out of nested ones only.** If no scope comes to lie in itself,
the scopes still form a forest, whether all loops could be tiled or not, and the search for any name
from any scope ends. For a loop with nothing to tile in it this is needed as well: else it leaves a
circle. -/
theorem isForest_tile (o : TileOptions) (s : Statement) (k : ScopeId) (st : Tile.State)
    (hf : st.table.IsForest) (hk : st.table.Has k) (hscopes : s.ScopesKnown st.table) :
    ((∀ x, ¬ TransGen (s.Nests o st.table k) x x) →
      (s.tile o k st).2.state.table.IsForest ∧
        ∀ x name, (s.tile o k st).2.state.table.Has x →
          (s.tile o k st).2.state.table.LooksUp name x
            ((s.tile o k st).2.state.table.lookup x name)) ∧
    ∀ l a size c, s = Loop.toStatement l → l.attributes.find? Tile.attributeName = some a →
      Tile.size? a = some size → CanonicalLoop.recognize st.table l = .ok c →
      (∀ b ∈ l.body, b.Everywhere Untiled) →
      ((s.tile o k st).2.state.table.IsForest ↔ ∀ x, ¬ TransGen (s.Nests o st.table k) x x) := by
  refine ⟨fun hN => ?_, ?_⟩
  · have hforest := isForest_of_nests st hf hk hscopes hN
    exact ⟨hforest, fun x name hx => hforest.looksUp hx name⟩
  · rintro l a size c rfl hattr hsize hc hbody
    refine ⟨fun hforest => ?_, isForest_of_nests st hf hk hscopes⟩
    obtain ⟨hinit, hcheck, hupdate⟩ :=
      Tile.everywhere_untiled_header (CanonicalLoop.describes_of_recognize hc)
    have hparts : ∀ c ∈ l.toStatement.parts, c.Everywhere Untiled :=
      List.forall_mem_cons.mpr ⟨hinit, List.forall_mem_cons.mpr
        ⟨hcheck, List.forall_mem_cons.mpr ⟨hupdate, hbody⟩⟩⟩
    rw [tile_of_untiled_body hattr hsize hc hbody] at hforest
    have htable : (Tile.tile o st.table l a size c k).2.IsForest := hforest
    exact acyclic_nests_of_isForest_tile hf hk hscopes hattr hparts htable

/-- What holds of statements without scopes and of the loop holds everywhere in it. -/
theorem everywhere_tiledLoop {P : Statement → Prop} {scope : ScopeId} {v : VarId}
    {body : List Statement} (hleaf : ∀ s, s.scope? = none → P s)
    (hbody : ∀ s ∈ body, s.Everywhere P) (hself : P (tiledLoop scope v body).toStatement) :
    (tiledLoop scope v body).toStatement.Everywhere P := by
  have hnone {s : Statement} (hs : s.scope? = none) : s.Everywhere P :=
    (everywhere_of_parts_eq_nil (parts_eq_nil hs)).mpr (hleaf s hs)
  refine everywhere_iff.mpr ⟨?_, hself⟩
  show ∀ c ∈ (tiledLoop scope v body).init :: (tiledLoop scope v body).check ::
    (tiledLoop scope v body).update :: body, _
  simp only [List.forall_mem_cons]
  exact ⟨hnone rfl, hnone rfl, hnone rfl, hbody⟩

/-- Two such loops in a block of the outermost scope, with one scope for both. -/
def sharedLoops : Statement :=
  .block .global [(tiledLoop ⟨1⟩ ⟨0⟩ [.block ⟨2⟩ [] .none]).toStatement,
    (tiledLoop ⟨1⟩ ⟨1⟩ []).toStatement] .none

theorem everywhere_sharedLoops {P : Statement → Prop} (hleaf : ∀ s, s.scope? = none → P s)
    (hinner : P (.block ⟨2⟩ [] .none))
    (hfirst : P (tiledLoop ⟨1⟩ ⟨0⟩ [.block ⟨2⟩ [] .none]).toStatement)
    (hsecond : P (tiledLoop ⟨1⟩ ⟨1⟩ []).toStatement) (hself : P sharedLoops) :
    sharedLoops.Everywhere P := by
  have hbody := List.forall_mem_singleton.mpr ((everywhere_of_parts_eq_nil rfl).mpr hinner)
  refine everywhere_iff.mpr ⟨List.forall_mem_cons.mpr ⟨?_, List.forall_mem_singleton.mpr ?_⟩, hself⟩
  · exact everywhere_tiledLoop hleaf hbody hfirst
  · exact everywhere_tiledLoop hleaf (List.forall_mem_nil _) hsecond

/-- What it takes for a loop of the sample to have a place. -/
theorem hasPlace_tiledLoop {scope : ScopeId} {v : VarId} {body : List Statement}
    (hroot : t.parent? scope ≠ none)
    (hbody : ∀ b ∈ body, ∀ x, b.scope? = some x → t.Inside x scope) :
    (tiledLoop scope v body).toStatement.HasPlace o t := by
  intro l a hl _
  obtain rfl : tiledLoop scope v body = l := Option.some.inj (congrArg loop? hl)
  exact ⟨hroot, fun _ => hbody⟩

/-- Only loops need a place. -/
theorem hasPlace_of_kind {s : Statement} (h : s.kind ≠ .loop) : s.HasPlace o t := by
  rintro l a rfl
  exact absurd rfl h

/-- The second loop puts its scope into a third new one, inside that of the first block loop. -/
theorem isForest_tile_sharedLoops :
    nestedTable.IsForest ∧
      (∀ x, ¬ TransGen (sharedLoops.Nests .standard nestedTable .global) x x) ∧
      ∃ s st', sharedLoops.tile .standard .global ⟨nestedTable, .empty none⟩ = (s, ⟨st', none⟩) ∧
        st'.table.IsForest ∧ st'.table.LooksUp "i" ⟨2⟩ (some (.variable ⟨0⟩)) := by
  have hscopes : sharedLoops.ScopesKnown nestedTable := by
    refine everywhere_sharedLoops (fun s hs x hx => ?_) ?_ ?_ ?_ ?_
    · rw [hs] at hx
      cases hx
    all_goals
      intro x hx
      obtain rfl := Option.some.inj hx
      unfold SymbolTable.Has
      decide
  have hplaces : sharedLoops.Everywhere (HasPlace .standard nestedTable) := by
    refine everywhere_sharedLoops (fun s hs => hasPlace_of_kind ?_) (hasPlace_of_kind (by decide))
      (hasPlace_tiledLoop (by decide) ?_)
      (hasPlace_tiledLoop (by decide) (List.forall_mem_nil _)) (hasPlace_of_kind (by decide))
    · cases s <;> simp_all [kind, scope?]
    · refine List.forall_mem_singleton.mpr fun x hx => ?_
      obtain rfl := Option.some.inj hx
      rfl
  have hnests := acyclic_nests (k := .global) isForest_nestedTable hplaces
  have hfailure : (sharedLoops.tile .standard .global ⟨nestedTable, .empty none⟩).2.failure
      = none := by
    cbv
  obtain ⟨s, st', hrun⟩ := Walk.exists_of_failure hfailure
  obtain ⟨hforest, hlooks⟩ := (isForest_tile .standard sharedLoops .global
    ⟨nestedTable, .empty none⟩ isForest_nestedTable (show 0 < 3 by decide) hscopes).1 hnests
  have hfound : (sharedLoops.tile .standard .global ⟨nestedTable, .empty none⟩).2.state.table.lookup
      ⟨2⟩ "i" = some (.variable ⟨0⟩) := by
    cbv
  have hi := hlooks ⟨2⟩ "i" (by cbv)
  rw [hfound] at hi
  rw [hrun] at hforest hi
  exact ⟨isForest_nestedTable, hnests, s, st', hrun, hforest, hi⟩

theorem isForest_counterTable : Tile.counterTable.IsForest := by
  have hnone : ∀ {s p : ScopeId}, Tile.counterTable.parent? s ≠ some p := by
    rintro ⟨i⟩ p h
    obtain rfl := Nat.lt_one_iff.mp (SymbolTable.has_of_parent? h)
    cases h
  exact SymbolTable.isForest_of_rank ScopeId.index (absurd · hnone) (absurd · hnone)

theorem scopesKnown_counterLoop :
    (Tile.counterLoop .less 4).toStatement.ScopesKnown Tile.counterTable := by
  have hleaf {s : Statement} (hs : s.scope? = none) :
      s.Everywhere fun c => ∀ x, c.scope? = some x → Tile.counterTable.Has x := by
    refine (everywhere_of_parts_eq_nil (parts_eq_nil hs)).mpr fun x hx => ?_
    rw [hs] at hx
    cases hx
  refine everywhere_iff.mpr ⟨?_, fun x hx => ?_⟩
  · simp only [Tile.counterLoop, Loop.toStatement, parts, List.forall_mem_cons]
    exact ⟨hleaf rfl, hleaf rfl, hleaf rfl, hleaf rfl, List.forall_mem_nil _⟩
  · obtain rfl := Option.some.inj hx
    exact Nat.zero_lt_one

/-- Two scopes that lie in each other, and a third one in the first. -/
def circle : Array Scope :=
  #[⟨some ⟨1⟩, []⟩, ⟨some .global, [("_occa_tiled_i", .variable ⟨1⟩)]⟩, ⟨some .global, []⟩]

/-- In the circle the search for a name that neither scope declares does not end. -/
theorem not_looksUp_circle (hscopes : t.scopes = circle) (r : Option Symbol) :
    ¬ t.LooksUp "n" .global r := by
  have hparent : ∀ {x}, t.parent? x = circle[x.index]?.bind Scope.parent := fun {x} => by
    rw [SymbolTable.parent?, hscopes]
  have hlocal : ∀ {x}, t.lookupLocal x "n" = circle[x.index]?.bind fun s =>
      (ByName.find? Prod.fst s.names "n").map Prod.snd := fun {x} => by
    rw [SymbolTable.lookupLocal, hscopes]
  refine SymbolTable.not_looksUp (fun x hx => ?_) r
  have hx : x = .global ∨ x = ⟨1⟩ := by
    induction hx with
    | refl => exact .inl rfl
    | tail _ hlink ih =>
      rw [SymbolTable.Inside, hparent] at hlink
      obtain rfl | rfl := ih
      · exact .inr (Option.some.inj hlink).symm
      · exact .inl (Option.some.inj hlink).symm
  rw [hparent, hlocal]
  obtain rfl | rfl := hx
  · exact ⟨by decide, by decide⟩
  · exact ⟨by decide, by decide⟩

/-- A loop with the outermost scope for its own, standing in it: that scope and the new one come to
lie in each other. -/
theorem counterLoop_circle :
    Tile.counterTable.IsForest ∧
      (Tile.counterLoop .less 4).toStatement.ScopesKnown Tile.counterTable ∧
      ∃ s st', (Tile.counterLoop .less 4).toStatement.tile .standard .global Tile.counterState
          = (s, ⟨st', none⟩) ∧
        ¬ st'.table.IsForest ∧ ∀ r, ¬ st'.table.LooksUp "n" .global r := by
  have hfailure : ((Tile.counterLoop .less 4).toStatement.tile .standard .global
      Tile.counterState).2.failure = none := by
    cbv
  have hscopes : ((Tile.counterLoop .less 4).toStatement.tile .standard .global
      Tile.counterState).2.state.table.scopes = circle := by
    cbv
  obtain ⟨s, st', hrun⟩ := Walk.exists_of_failure hfailure
  rw [hrun] at hscopes
  have hin : st'.table.Inside .global ⟨1⟩ := by
    rw [SymbolTable.Inside, SymbolTable.parent?, hscopes]
    rfl
  have hout : st'.table.Inside ⟨1⟩ .global := by
    rw [SymbolTable.Inside, SymbolTable.parent?, hscopes]
    rfl
  exact ⟨isForest_counterTable, scopesKnown_counterLoop, s, st', hrun,
    fun h => h.acyclic .global (.head hin (.single hout)), not_looksUp_circle hscopes⟩

end Statement

end KernelTree
