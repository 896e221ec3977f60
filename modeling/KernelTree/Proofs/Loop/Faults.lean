import KernelTree.Proofs.Loop.Retile

/-!
# Loops that cannot be tiled

Tiling stops at the first loop of the walk that asks for it and cannot be tiled
(`Statement.tile_stops`). Which loop that is can be told beforehand: what has been tiled before has
only added variables and scopes to the table (`SymbolTable.Extends`), and it has left the headers of
the loops around it alone (`Statement.presented_loop`).
-/

namespace KernelTree

variable {o : TileOptions} {t t' : SymbolTable} {l l' : Loop} {a : Attribute} {c : CanonicalLoop}
  {size : Expr} {k : ScopeId} {s : Statement}

/-! ### Tables that grow -/

namespace SymbolTable

/-- The types are the same, and the variables of the first table are in the second. -/
structure Extends (t t' : SymbolTable) : Prop where
  types : t'.types = t.types
  var : ∀ v : VarId, v.index < t.vars.size → v.index < t'.vars.size ∧ t'.var v = t.var v

theorem Extends.refl (t : SymbolTable) : t.Extends t := ⟨rfl, fun _ hv => ⟨hv, rfl⟩⟩

theorem Extends.trans {t₁ t₂ t₃ : SymbolTable} (h : t₁.Extends t₂) (h' : t₂.Extends t₃) :
    t₁.Extends t₃ where
  types := h'.types.trans h.types
  var v hv := by
    obtain ⟨hv₂, hvar₂⟩ := h.var v hv
    obtain ⟨hv₃, hvar₃⟩ := h'.var v hv₂
    exact ⟨hv₃, hvar₃.trans hvar₂⟩

theorem extends_push (t : SymbolTable) (x : VariableDef) (scopes : Array Scope) :
    t.Extends { t with vars := t.vars.push x, scopes } where
  types := rfl
  var v hv := by
    have hne : v.index ≠ t.vars.size := Nat.ne_of_lt hv
    refine ⟨?_, by simp [SymbolTable.var, Array.getElem?_push, hne]⟩
    rw [Array.size_push]
    omega

end SymbolTable

namespace Tile

/-- The variable that tiling adds for the blocks. -/
def blockVariable (o : TileOptions) (t : SymbolTable) (v : VarId) : VariableDef :=
  { t.var v with name := o.iteratorMark ++ (t.var v).name }

theorem exists_adopt (t : SymbolTable) (p : ScopeId) (body : List Statement) :
    ∃ scopes, adopt t p body = { t with scopes } := by
  unfold adopt
  induction body.filterMap Statement.scope? generalizing t with
  | nil => exact ⟨t.scopes, rfl⟩
  | cons x rest ih =>
    obtain ⟨scopes, hrest⟩ := ih (t.setParent x (some p))
    exact ⟨scopes, hrest⟩

/-- Tiling adds one variable to the table, and else only touches the scopes. -/
theorem exists_table_tile (o : TileOptions) (t : SymbolTable) (l : Loop) (a : Attribute)
    (size : Expr) (c : CanonicalLoop) (k : ScopeId) :
    ∃ scopes, (tile o t l a size c k).2
      = { t with vars := t.vars.push (blockVariable o t c.iterator), scopes } := by
  by_cases hguard : wantsGuard o a
  · simp only [tile, hguard, if_true, guard]
    exact exists_adopt _ _ _
  · simp only [tile, hguard]
    exact ⟨_, rfl⟩

theorem extends_tile (o : TileOptions) (t : SymbolTable) (l : Loop) (a : Attribute) (size : Expr)
    (c : CanonicalLoop) (k : ScopeId) : t.Extends (tile o t l a size c k).2 := by
  obtain ⟨scopes, htable⟩ := exists_table_tile o t l a size c k
  rw [htable]
  exact t.extends_push _ scopes

end Tile

/-! ### Headers -/

/-- The loop with another body. -/
def Loop.withBody (l : Loop) (body : List Statement) : Loop := { l with body }

/-- The variables that the loop declares are in the table. No table has an answer about
others, since an identifier is an index into the table that it was made by. -/
def Loop.DeclaresKnown (t : SymbolTable) (l : Loop) : Prop :=
  ∀ ds place, l.init = .declaration ds place → ∀ d ∈ ds, d.var.index < t.vars.size

theorem Loop.declaresKnown_of_declare {v : VarId} {e : Option Expr} {place : Location}
    (hinit : l.init = .declare v e place) (hv : v.index < t.vars.size) : l.DeclaresKnown t := by
  intro ds place' hds d hd
  obtain ⟨rfl, -⟩ := Statement.declaration.inj (hinit.symm.trans hds)
  obtain rfl := List.mem_singleton.mp hd
  exact hv

namespace Statement

/-- The header of a loop has no loops in it. -/
def PlainHeader (s : Statement) : Prop :=
  ∀ l : Loop, s = l.toStatement → ∀ c ∈ [l.init, l.check, l.update], c.Everywhere (·.kind ≠ .loop)

/-- The statement is no loop that asks for tiling and declares variables out of nowhere. -/
def TilesKnown (t : SymbolTable) (s : Statement) : Prop :=
  ∀ l : Loop, s = l.toStatement → s.tileAttribute?.isSome → l.DeclaresKnown t

end Statement

namespace CanonicalLoop

/-- What is recognized of a loop depends on the types of the variables that it declares only, and
not on its body. -/
theorem recognize_withBody (h : t.Extends t') (hknown : l.DeclaresKnown t)
    (body : List Statement) : recognize t' (l.withBody body) = recognize t l := by
  have hinit : initFacts t' l.init = initFacts t l.init := by
    unfold Loop.DeclaresKnown at hknown
    generalize l.init = init at hknown ⊢
    cases init with
    | declaration ds place =>
      have hvar : ∀ d ∈ ds, t'.var d.var = t.var d.var := fun d hd =>
        (h.var d.var (hknown ds place rfl d hd)).2
      have htype : t'.typeDef = t.typeDef := by
        funext id
        rw [SymbolTable.typeDef, h.types, SymbolTable.typeDef]
      obtain _ | ⟨d, _ | ⟨extra, rest⟩⟩ := ds
      · rfl
      · simp only [initFacts]
        rw [hvar d List.mem_cons_self, htype]
      · simp only [initFacts, hvar extra (by simp)]
    | _ => rfl
  show (initFacts t' l.init >>= _) = _
  rw [hinit]
  rfl

end CanonicalLoop

namespace Statement

variable {f : Place → Verdict Statement}

/-- What stands in a statement of a tree stands in the tree. -/
theorem mem_sites_inside {site inner : Site ScopeId Statement} (h : site ∈ shape.sites k s)
    (hinner : inner ∈ shape.sites site.around site.node) :
    { inner with place := site.place ++ inner.place } ∈ shape.sites k s := by
  rw [shape.mem_sites] at h ⊢
  induction h with
  | root => exact shape.mem_sites.mp hinner
  | part hc _ ih => exact .part hc (ih hinner)

/-- A part of a node in whose place and below which all is kept stays as it is. -/
theorem inSlot_of_keep {i : Nat} (hi : i < s.parts.length)
    (h : ∀ inner ∈ shape.sites (shape.inside s k) s.parts[i], f (i :: inner.place) = .keep) :
    inSlot (f [i], shape.rewriteBelow (fun place => f (i :: place)) s.parts[i]) = s.parts[i] := by
  rw [rewriteBelow_of_keep h, h _ (shape.mem_sites.mpr (.root _ _))]
  rfl

theorem rebuild_withBody {init check update : Verdict Statement × Statement}
    (hinit : inSlot init = l.init) (hcheck : inSlot check = l.check)
    (hupdate : inSlot update = l.update) (body : List (Verdict Statement × Statement)) :
    l.toStatement.rebuild (init :: check :: update :: body)
      = (l.withBody (body.flatMap inList)).toStatement := by
  rw [Loop.toStatement, rebuild, hinit, hcheck, hupdate]
  rfl

/-- Where a pass keeps all that is no loop, it is asked about a loop with the header that the loop
has, if there are no loops in it. -/
theorem presented_loop (hothers : ∀ x ∈ shape.sites k s, x.node.kind ≠ .loop → f x.place = .keep)
    {site : Site ScopeId Statement} (hsite : site ∈ shape.sites k s)
    (hl : site.node = l.toStatement) (hplain : site.node.PlainHeader) :
    ∃ body, shape.presented f site = (l.withBody body).toStatement := by
  have hheader := hplain l hl
  simp only [List.forall_mem_cons] at hheader
  obtain ⟨hinit, hcheck, hupdate, -⟩ := hheader
  have hslot {i : Nat} {c : Statement} (hc : l.toStatement.parts[i]? = some c)
      (hnone : c.Everywhere (·.kind ≠ .loop)) : inSlot (f (site.place ++ [i]),
        shape.rewriteBelow (fun below => f (site.place ++ i :: below)) c) = c := by
    obtain ⟨hi, rfl⟩ := List.getElem?_eq_some_iff.mp hc
    refine inSlot_of_keep (k := site.around) (f := fun below => f (site.place ++ below)) hi ?_
    intro inner hinner
    have hmem := mem_sites_part (k := site.around) hi hinner
    rw [← hl] at hmem
    exact hothers _ (mem_sites_inside hsite hmem) ((everywhere_iff_sites _).mp hnone inner hinner)
  have hparts : shape.parts l.toStatement = l.init :: l.check :: l.update :: l.body := rfl
  rw [Shape.presented, hl, shape.rewriteBelow_eq, hparts, List.mapIdx_cons, List.mapIdx_cons,
    List.mapIdx_cons]
  exact ⟨_, rebuild_withBody (hslot rfl hinit) (hslot rfl hcheck) (hslot rfl hupdate) _⟩

end Statement

/-! ### Faults -/

/-- Whether a fault is reported: the options may keep quiet about loops that are not canonical. -/
def TileOptions.reports (o : TileOptions) (e : PassError) : Bool :=
  match e.fault with
  | .loop _ _ => o.reportsLoops
  | _ => true

namespace Tile

open KernelTree.Statement

variable {f : Place → Verdict Statement} {st : State} {e : PassError}

/-- Why a loop with the attribute cannot be tiled. -/
def loopFault? (t : SymbolTable) (l : Loop) (a : Attribute) : Option PassError :=
  match size? a with
  | none => some ⟨.missingTileSize, a.location⟩
  | some _ =>
    match CanonicalLoop.recognize t l with
    | .error f => some (CanonicalLoop.Fault.error context f)
    | .ok _ => none

/-- Why a statement cannot be tiled that asks for it. -/
def fault? (t : SymbolTable) (s : Statement) : Option PassError :=
  s.loop?.bind fun l => (l.attributes.find? attributeName).bind (loopFault? t l)

/-- The statement does not ask for tiling or can be tiled. -/
def isSound (t : SymbolTable) (site : Site ScopeId Statement) : Bool :=
  (fault? t site.node).isNone

/-- How tiling ends: a fault is blamed, and reported if the options want it. -/
def ending (o : TileOptions) (st : State) : Option PassError → Progress State PassError
  | none => ⟨st, none⟩
  | some e =>
    ⟨if o.reports e then
        { st with diagnostics := { st.diagnostics with
            entries := st.diagnostics.entries ++ [⟨.error, e.fault.message, e.location⟩] } }
      else st, some e⟩

/-- The statements are tiled one after the other if they ask for it, which takes the table `t` to
the table `t'`, and these are the answers. -/
inductive TilesEach (o : TileOptions) (f : Place → Verdict Statement) :
    SymbolTable → List (Site ScopeId Statement) → SymbolTable → Prop
  | done (t : SymbolTable) : TilesEach o f t [] t
  | kept {site : Site ScopeId Statement} {rest : List (Site ScopeId Statement)}
      {t t' : SymbolTable} (hnode : site.node.Untiled) (hanswer : f site.place = .keep)
      (hrest : TilesEach o f t rest t') : TilesEach o f t (site :: rest) t'
  | tiled {site : Site ScopeId Statement} {rest : List (Site ScopeId Statement)}
      {t t' : SymbolTable} {l : Loop} {a : Attribute} {size : Expr} {c : CanonicalLoop}
      (hnode : shape.presented f site = l.toStatement)
      (hattr : l.attributes.find? attributeName = some a) (hsize : size? a = some size)
      (hc : CanonicalLoop.recognize t l = .ok c)
      (hanswer : f site.place = .replace (tile o t l a size c site.around).1.toStatement)
      (hrest : TilesEach o f (tile o t l a size c site.around).2 rest t') :
      TilesEach o f t (site :: rest) t'

theorem tileAttribute?_toStatement (l : Loop) :
    l.toStatement.tileAttribute? = l.attributes.find? attributeName := rfl

theorem fault?_toStatement (hattr : l.attributes.find? attributeName = some a) :
    fault? t l.toStatement = loopFault? t l a := by
  show (l.attributes.find? attributeName).bind _ = _
  rw [hattr, Option.bind_some]

theorem fault?_of_untiled (h : s.Untiled) : fault? t s = none := by
  unfold fault?
  cases hloop : s.loop? with
  | none => rfl
  | some l =>
    rw [Untiled, tileAttribute?, hloop] at h
    rw [Option.bind_some, show l.attributes.find? attributeName = none from h, Option.bind_none]

/-- A statement does not ask for tiling or is a loop with the attribute. -/
theorem untiled_or_exists (s : Statement) :
    s.Untiled ∨ ∃ (l : Loop) (a : Attribute),
      s = l.toStatement ∧ l.attributes.find? attributeName = some a := by
  cases s with
  | loop scope init check update body attributes place =>
    cases hattr : attributes.find? attributeName with
    | none => exact .inl hattr
    | some a => exact .inr ⟨⟨scope, init, check, update, body, attributes, place⟩, a, rfl, hattr⟩
  | _ => exact .inl rfl

theorem loopFault?_cases (t : SymbolTable) (l : Loop) (a : Attribute) :
    (size? a = none ∧ loopFault? t l a = some ⟨.missingTileSize, a.location⟩) ∨
      (∃ size f, size? a = some size ∧ CanonicalLoop.recognize t l = .error f ∧
        loopFault? t l a = some (CanonicalLoop.Fault.error context f)) ∨
      ∃ size c, size? a = some size ∧ CanonicalLoop.recognize t l = .ok c ∧
        loopFault? t l a = none := by
  unfold loopFault?
  cases hsize : size? a with
  | none => exact .inl ⟨rfl, rfl⟩
  | some size =>
    cases hc : CanonicalLoop.recognize t l with
    | error f => exact .inr (.inl ⟨size, f, rfl, rfl, rfl⟩)
    | ok c => exact .inr (.inr ⟨size, c, rfl, rfl, rfl⟩)

/-- A statement is at fault if it is a loop that asks for tiling and gives no size or is not
canonical. -/
theorem isSome_fault?_iff : (fault? t s).isSome ↔ ∃ (l : Loop) (a : Attribute), s = l.toStatement ∧
    l.attributes.find? attributeName = some a ∧
      (size? a = none ∨ ∀ c, CanonicalLoop.recognize t l ≠ .ok c) := by
  constructor
  · intro h
    rcases untiled_or_exists s with huntiled | ⟨l, a, rfl, hattr⟩
    · rw [fault?_of_untiled huntiled] at h
      cases h
    · refine ⟨l, a, rfl, hattr, ?_⟩
      rw [fault?_toStatement hattr] at h
      rcases loopFault?_cases t l a with ⟨hsize, -⟩ | ⟨_, f, -, hc, -⟩ | ⟨_, _, -, -, hnone⟩
      · exact .inl hsize
      · refine .inr fun c hok => ?_
        cases hc.symm.trans hok
      · rw [hnone] at h
        cases h
  · rintro ⟨l, a, rfl, hattr, hbad⟩
    rw [fault?_toStatement hattr]
    rcases loopFault?_cases t l a with ⟨-, h⟩ | ⟨_, _, -, -, h⟩ | ⟨_, c, hsize, hc, -⟩
    · rw [h]
      rfl
    · rw [h]
      rfl
    · rcases hbad with hnone | hbad
      · cases hnone.symm.trans hsize
      · exact absurd hc (hbad c)

/-- A fault is found when the statement is visited. -/
theorem visit_of_fault (h : fault? st.table s = some e) :
    ∃ st', visit o s k st = (.error e, st') ∧ ending o st (some e) = ⟨st', some e⟩ := by
  rcases untiled_or_exists s with huntiled | ⟨l, a, rfl, hattr⟩
  · rw [fault?_of_untiled huntiled] at h
    cases h
  · have hl : l.toStatement.loop? = some l := rfl
    rw [fault?_toStatement hattr] at h
    rcases loopFault?_cases st.table l a with
      ⟨hsize, hfault⟩ | ⟨size, f, hsize, hc, hfault⟩ | ⟨_, _, -, -, hnone⟩
    · obtain rfl := Option.some.inj (hfault.symm.trans h)
      simp only [visit, hl, hattr, hsize]
      exact ⟨_, rfl, rfl⟩
    · obtain rfl := Option.some.inj (hfault.symm.trans h)
      simp only [visit, hl, hattr, hsize, hc]
      exact ⟨_, rfl, rfl⟩
    · cases hnone.symm.trans h

/-- A statement without a fault is kept or tiled. -/
theorem visit_of_sound (h : fault? st.table s = none) :
    (s.Untiled ∧ visit o s k st = (.ok .keep, st)) ∨
      ∃ (l : Loop) (a : Attribute) (size : Expr) (c : CanonicalLoop), s = l.toStatement ∧
        l.attributes.find? attributeName = some a ∧ size? a = some size ∧
        CanonicalLoop.recognize st.table l = .ok c ∧
        visit o s k st = (.ok (.replace (tile o st.table l a size c k).1.toStatement),
          { st with table := (tile o st.table l a size c k).2 }) := by
  rcases untiled_or_exists s with huntiled | ⟨l, a, rfl, hattr⟩
  · exact .inl ⟨huntiled, visit_of_untiled huntiled st⟩
  · rw [fault?_toStatement hattr] at h
    rcases loopFault?_cases st.table l a with
      ⟨-, hfault⟩ | ⟨_, _, -, -, hfault⟩ | ⟨size, c, hsize, hc, -⟩
    · cases hfault.symm.trans h
    · cases hfault.symm.trans h
    · exact .inr ⟨l, a, size, c, rfl, hattr, hsize, hc, visit_eq o st k hattr hsize hc⟩

/-- What has been tiled before makes no loop faulty and mends none. -/
theorem fault?_withBody (h : t.Extends t') (hknown : l.toStatement.TilesKnown t)
    (body : List Statement) :
    fault? t' (l.withBody body).toStatement = fault? t l.toStatement := by
  show (l.attributes.find? attributeName).bind _ = (l.attributes.find? attributeName).bind _
  cases hattr : l.attributes.find? attributeName with
  | none => rfl
  | some a =>
    have hdeclared : l.DeclaresKnown t := by
      refine hknown l rfl ?_
      rw [tileAttribute?_toStatement, hattr]
      rfl
    simp only [Option.bind_some, loopFault?, CanonicalLoop.recognize_withBody h hdeclared]

/-- The answers about loops, up to the first fault and from there on. -/
theorem tilesEach_of_conversation {sites : List (Site ScopeId Statement)}
    {p : Progress State PassError} (hext : t.Extends st.table)
    (hsites : ∀ site ∈ sites, ∃ (l : Loop) (body : List Statement), site.node = l.toStatement ∧
      shape.presented f site = (l.withBody body).toStatement ∧ l.toStatement.TilesKnown t)
    (h : shape.Conversation (pass o).visitor f sites st p) :
    ∃ t', p = ending o ⟨t', st.diagnostics⟩ (sites.findSome? fun site => fault? t site.node) ∧
      TilesEach o f st.table (sites.takeWhile (isSound t)) t' ∧
      ∀ site ∈ sites.dropWhile (isSound t), f site.place = .keep := by
  induction h with
  -- Induction over the conversation; the table only grows, so a loop is as faulty when it is
  -- reached as it was at the start.
  | finished st => exact ⟨st.table, rfl, .done _, List.forall_mem_nil _⟩
  | @answered site rest st st' p hvisit _ ih =>
    obtain ⟨⟨l, body, hl, hpresented, hknown⟩, hrest⟩ := List.forall_mem_cons.mp hsites
    have hsame : fault? st.table (shape.presented f site) = fault? t site.node := by
      rw [hpresented, hl, fault?_withBody hext hknown]
    cases hfault : fault? t site.node with
    | some e =>
      obtain ⟨_, herror, -⟩ := visit_of_fault (o := o) (k := site.around) (hsame.trans hfault)
      cases herror.symm.trans hvisit
    | none =>
      have hsound : isSound t site = true := by rw [isSound, hfault]; rfl
      rw [List.takeWhile_cons_of_pos hsound, List.dropWhile_cons_of_pos hsound,
        List.findSome?_cons_of_isNone (by rw [hfault]; rfl)]
      rcases visit_of_sound (o := o) (k := site.around) (hsame.trans hfault) with
        ⟨huntiled, hkept⟩ | ⟨l', a, size, c, hl', hattr, hsize, hc, htiled⟩
      · obtain ⟨hanswer, rfl⟩ := Prod.mk.inj (hkept.symm.trans hvisit)
        obtain ⟨t', hp, heach, hkeep⟩ := ih hext hrest
        refine ⟨t', hp, .kept ?_ (Except.ok.inj hanswer).symm heach, hkeep⟩
        exact (tileAttribute?_presented f site).symm.trans huntiled
      · obtain ⟨hanswer, rfl⟩ := Prod.mk.inj (htiled.symm.trans hvisit)
        have hext' := hext.trans (extends_tile o st.table l' a size c site.around)
        obtain ⟨t', hp, heach, hkeep⟩ := ih hext' hrest
        exact ⟨t', hp, .tiled hl' hattr hsize hc (Except.ok.inj hanswer).symm heach, hkeep⟩
  -- The first fault: nothing was tiled from here on, and the walk keeps the rest.
  | @failed site rest st st' e hvisit hkeep =>
    obtain ⟨⟨l, body, hl, hpresented, hknown⟩, -⟩ := List.forall_mem_cons.mp hsites
    have hsame : fault? st.table (shape.presented f site) = fault? t site.node := by
      rw [hpresented, hl, fault?_withBody hext hknown]
    cases hfault : fault? t site.node with
    | none =>
      rcases visit_of_sound (o := o) (k := site.around) (hsame.trans hfault) with
        ⟨-, hkept⟩ | ⟨_, _, _, _, -, -, -, -, htiled⟩
      · cases hkept.symm.trans hvisit
      · cases htiled.symm.trans hvisit
    | some e' =>
      obtain ⟨st'', herror, hending⟩ :=
        visit_of_fault (o := o) (k := site.around) (hsame.trans hfault)
      obtain ⟨he, rfl⟩ := Prod.mk.inj (herror.symm.trans hvisit)
      obtain rfl := Except.error.inj he
      have hsound : ¬ isSound t site = true := by rw [isSound, hfault]; exact Bool.false_ne_true
      rw [List.takeWhile_cons_of_neg hsound, List.dropWhile_cons_of_neg hsound,
        List.findSome?_cons_of_isSome (by rw [hfault]; rfl), hfault]
      exact ⟨st.table, hending.symm, .done _, hkeep⟩

end Tile

namespace Statement

variable {st : Tile.State}

/-- Loops are statements of their kind. -/
theorem exists_loop_of_kind (h : s.kind = .loop) : ∃ l : Loop, s = l.toStatement := by
  cases s with
  | loop scope init check update body attributes place =>
    exact ⟨⟨scope, init, check, update, body, attributes, place⟩, rfl⟩
  | _ => cases h

/-- **Tiling stops at the first loop that cannot be tiled.** It fails just if some loop asks for
tiling and gives no size or is not canonical, and the first such loop of the walk is blamed for what
it is at fault for in the statement and the table as they were. The loops before it are tiled one
after the other, which gives the table; the loop itself and all statements after it are kept, and
the loops among them keep their headers, attributes and places. The fault is reported unless the
options say otherwise, and nothing else is. -/
theorem tile_stops (o : TileOptions) (k : ScopeId) (s : Statement) (st : Tile.State)
    (hplain : s.Everywhere PlainHeader) (hknown : s.Everywhere (TilesKnown st.table)) :
    ((s.tile o k st).2.failure.isSome ↔ ∃ site ∈ shape.sites k s, ∃ (l : Loop) (a : Attribute),
      site.node = l.toStatement ∧ l.attributes.find? Tile.attributeName = some a ∧
        (Tile.size? a = none ∨ ∀ c, CanonicalLoop.recognize st.table l ≠ .ok c)) ∧
    ∃ f t', s.tile o k st = (inSlot (f [], shape.rewriteBelow f s),
        Tile.ending o ⟨t', st.diagnostics⟩
          ((s.loops k).findSome? fun site => Tile.fault? st.table site.node)) ∧
      Tile.TilesEach o f st.table ((s.loops k).takeWhile (Tile.isSound st.table)) t' ∧
      (∀ site ∈ (s.loops k).dropWhile (Tile.isSound st.table), f site.place = .keep) ∧
      (∀ site ∈ shape.sites k s, site.node.kind ≠ .loop → f site.place = .keep) ∧
      ∀ site ∈ shape.sites k s, ∀ l : Loop, site.node = l.toStatement →
        ∃ body, shape.presented f site = (l.withBody body).toStatement := by
  obtain ⟨f, p, hrun, hothers, hvisits⟩ := exists_answers_tile o k s st
  have hheaders : ∀ site ∈ shape.sites k s, ∀ l : Loop, site.node = l.toStatement →
      ∃ body, shape.presented f site = (l.withBody body).toStatement := fun site hsite l hl =>
    presented_loop hothers hsite hl ((everywhere_iff_sites k).mp hplain site hsite)
  have hloops : ∀ site ∈ s.loops k, ∃ (l : Loop) (body : List Statement),
      site.node = l.toStatement ∧ shape.presented f site = (l.withBody body).toStatement ∧
        l.toStatement.TilesKnown st.table := by
    intro site hsite
    obtain ⟨hmem, hkind⟩ := mem_loops.mp hsite
    obtain ⟨l, hl⟩ := exists_loop_of_kind hkind
    obtain ⟨body, hbody⟩ := hheaders site hmem l hl
    exact ⟨l, body, hl, hbody, hl ▸ (everywhere_iff_sites k).mp hknown site hmem⟩
  obtain ⟨t', rfl, heach, hkeep⟩ :=
    Tile.tilesEach_of_conversation (.refl st.table) hloops hvisits
  refine ⟨?_, f, t', hrun, heach, hkeep, hothers, hheaders⟩
  have hfailure : (s.tile o k st).2.failure
      = (s.loops k).findSome? fun site => Tile.fault? st.table site.node := by
    rw [hrun]
    cases (s.loops k).findSome? fun site => Tile.fault? st.table site.node <;> rfl
  rw [hfailure, List.findSome?_isSome_iff]
  constructor
  · rintro ⟨site, hsite, hfault⟩
    exact ⟨site, (mem_loops.mp hsite).1, Tile.isSome_fault?_iff.mp hfault⟩
  · rintro ⟨site, hsite, hbad⟩
    refine ⟨site, mem_loops.mpr ⟨hsite, ?_⟩, Tile.isSome_fault?_iff.mpr hbad⟩
    obtain ⟨l, -, hl, -⟩ := hbad
    rw [hl]
    rfl

/-- What holds of all that is no loop holds everywhere if it holds of the loops. -/
theorem everywhere_iff_loops {P : Statement → Prop} (hP : ∀ s : Statement, s.kind ≠ .loop → P s) :
    s.Everywhere P ↔ ∀ site ∈ s.loops .global, P site.node := by
  refine ⟨fun h site hsite => h site (mem_loops.mp hsite).1, fun h site hsite => ?_⟩
  by_cases hkind : site.node.kind = .loop
  · exact h site (mem_loops.mpr ⟨hsite, hkind⟩)
  · exact hP site.node hkind

theorem plainHeader_toStatement : l.toStatement.PlainHeader ↔
    ∀ c ∈ [l.init, l.check, l.update], c.Everywhere (·.kind ≠ .loop) := by
  refine ⟨fun h => h l rfl, fun h l' hl => ?_⟩
  obtain rfl : l = l' := Option.some.inj (congrArg loop? hl)
  exact h

theorem tilesKnown_toStatement (h : l.DeclaresKnown t) : l.toStatement.TilesKnown t := by
  intro l' hl _
  obtain rfl : l = l' := Option.some.inj (congrArg loop? hl)
  exact h

/-- A loop with nothing in it is presented as it is if its header is kept. -/
theorem rewriteBelow_bare {f : Place → Verdict Statement} (hbody : l.body = [])
    (hleaf : ∀ c ∈ [l.init, l.check, l.update], c.scope? = none)
    (hkept : ∀ i < 3, f [i] = .keep) : shape.rewriteBelow f l.toStatement = l.toStatement := by
  have hsame {g : Place → Verdict Statement} {c : Statement}
      (hc : c ∈ [l.init, l.check, l.update]) : shape.rewriteBelow g c = c := by
    have hnone : shape.parts c = [] := parts_eq_nil (hleaf c hc)
    have hrebuild : c.rebuild (c.parts.map (Prod.mk .keep)) = c := c.rebuild_keep
    rw [parts_eq_nil (hleaf c hc)] at hrebuild
    rw [shape.rewriteBelow_eq, hnone]
    exact hrebuild
  have hparts : shape.parts l.toStatement = [l.init, l.check, l.update] := by
    show l.init :: l.check :: l.update :: l.body = _
    rw [hbody]
  rw [shape.rewriteBelow_eq, hparts]
  simp only [List.mapIdx_cons, List.mapIdx_nil, Nat.zero_add, Nat.reduceAdd]
  rw [hkept 0 (by decide), hkept 1 (by decide), hkept 2 (by decide), hsame (by simp),
    hsame (by simp), hsame (by simp)]
  show Statement.loop l.scope l.init l.check l.update [] l.attributes l.location = _
  rw [← hbody]
  rfl

/-- The loop `for (int j = 0; ; ++j; @tile(2)) {}`. -/
def endlessLoop : Loop :=
  { tiledLoop ⟨2⟩ ⟨1⟩ [] with check := .empty .none }

/-- The loop `for (int i = 0; i < 4; ++i; @tile(2)) {}` and after it the one that has no check. -/
def halfBroken : Statement :=
  .block ⟨0⟩ [(tiledLoop ⟨1⟩ ⟨0⟩ []).toStatement, endlessLoop.toStatement] .none

/-- The loop `for (int block_i = 0; block_i < 4; block_i += 2)` around
`for (int i = block_i; i < (block_i + 2); ++i) { if (i < 4) {} }`, which stands for the first of
them. -/
def firstTiled : Statement :=
  .loop ⟨3⟩ (.declare ⟨2⟩ (some (.ofValue (.int 0) .none)) .none)
    (.ofExpr (.mkBinary .less (.ofVar ⟨2⟩ .none) (.ofValue (.int 4) .none)))
    (.ofExpr (.mkBinary .addAssign (.ofVar ⟨2⟩ .none) (.ofValue (.int 2) .none)))
    [.loop ⟨1⟩ (.declare ⟨0⟩ (some (.ofVar ⟨2⟩ .none)) .none)
      (.ofExpr (.mkBinary .less (.ofVar ⟨0⟩ .none)
        (Expr.mkBinary .add (.ofVar ⟨2⟩ .none) (.ofValue (.int 2) .none)).mkParens))
      (.ofExpr (.mkPrefixed (.pre .increment) (.ofVar ⟨0⟩ .none)))
      [.branch ⟨4⟩ (.ofExpr (.mkBinary .less (.ofVar ⟨0⟩ .none) (.ofValue (.int 4) .none))) [] none
        .none] [] .none] [] .none

/-- The table with the block variable and the scopes of the block loop and of the branch. -/
def firstTiledTable : SymbolTable :=
  ⟨#[⟨"int", .int⟩], #[⟨"i", .plain ⟨0⟩, [], .none⟩, ⟨"j", .plain ⟨0⟩, [], .none⟩,
      ⟨"_occa_tiled_i", .plain ⟨0⟩, [], .none⟩], #[],
    #[⟨none, []⟩, ⟨some ⟨3⟩, [("i", .variable ⟨0⟩)]⟩, ⟨some ⟨1⟩, [("j", .variable ⟨1⟩)]⟩,
      ⟨some ⟨0⟩, [("_occa_tiled_i", .variable ⟨2⟩)]⟩, ⟨some ⟨1⟩, []⟩]⟩

/-- The first loop is tiled and the second one, blamed for its check, stays as it is. -/
theorem tile_stops_halfBroken :
    halfBroken.Everywhere PlainHeader ∧ halfBroken.Everywhere (TilesKnown nestedTable) ∧
      halfBroken.tile .standard .global ⟨nestedTable, .empty none⟩
        = (.block ⟨0⟩ [firstTiled, endlessLoop.toStatement] .none,
          ⟨⟨firstTiledTable, (Diagnostics.empty none).report ⟨.loop .check "@tile", .none⟩⟩,
            some ⟨.loop .check "@tile", .none⟩⟩) := by
  have hloops : halfBroken.loops .global = [⟨[0], ⟨0⟩, (tiledLoop ⟨1⟩ ⟨0⟩ []).toStatement⟩,
      ⟨[1], ⟨0⟩, endlessLoop.toStatement⟩] := by
    cbv
  have hplain : halfBroken.Everywhere PlainHeader := by
    rw [everywhere_iff_loops (fun s hs l hl => absurd (congrArg kind hl) hs), hloops]
    simp only [List.forall_mem_cons, plainHeader_toStatement]
    refine ⟨⟨?_, ?_, ?_, ?_⟩, ⟨?_, ?_, ?_, ?_⟩, List.forall_mem_nil _⟩ <;>
      first | exact List.forall_mem_nil _ | exact (everywhere_of_parts_eq_nil rfl).mpr (by decide)
  have hknown : halfBroken.Everywhere (TilesKnown nestedTable) := by
    rw [everywhere_iff_loops (fun s hs l hl => absurd (congrArg kind hl) hs), hloops]
    simp only [List.forall_mem_cons]
    refine ⟨tilesKnown_toStatement ?_, tilesKnown_toStatement ?_, List.forall_mem_nil _⟩
    · exact Loop.declaresKnown_of_declare rfl (by decide)
    · exact Loop.declaresKnown_of_declare rfl (by decide)
  obtain ⟨-, f, t', hrun, heach, hkeep, hothers, -⟩ :=
    tile_stops .standard .global halfBroken ⟨nestedTable, .empty none⟩ hplain hknown
  rw [hloops] at hrun heach hkeep
  have hsites : ((shape.sites .global halfBroken).filter fun site => site.node.kind ≠ .loop).map
      Site.place = [[0, 0], [0, 1], [0, 2], [1, 0], [1, 1], [1, 2], []] := by
    cbv
  have hkept : ∀ place ∈ [[0, 0], [0, 1], [0, 2], [1, 0], [1, 1], [1, 2], []],
      f place = .keep := by
    rw [← hsites, List.forall_mem_map]
    intro site hsite
    obtain ⟨hmem, hkind⟩ := List.mem_filter.mp hsite
    exact hothers site hmem (of_decide_eq_true hkind)
  have hheader : ∀ i < 2, ∀ j < 3, f [i, j] = .keep := fun i hi j hj =>
    hkept [i, j] ((by decide : ∀ i < 2, ∀ j < 3, [i, j] ∈ _) i hi j hj)
  have hfirst : shape.rewriteBelow (fun below => f (0 :: below)) (tiledLoop ⟨1⟩ ⟨0⟩ []).toStatement
      = (tiledLoop ⟨1⟩ ⟨0⟩ []).toStatement :=
    rewriteBelow_bare rfl (by decide) (hheader 0 (by decide))
  have hsecond : shape.rewriteBelow (fun below => f (1 :: below))
      endlessLoop.toStatement = endlessLoop.toStatement :=
    rewriteBelow_bare rfl (by decide) (hheader 1 (by decide))
  have hanswer : f [0] = .replace firstTiled ∧ t' = firstTiledTable := by
    have hbefore : Tile.TilesEach .standard f nestedTable
      [⟨[0], ⟨0⟩, (tiledLoop ⟨1⟩ ⟨0⟩ []).toStatement⟩] t' := heach
    cases hbefore with
    | kept hnode => cases hnode
    | @tiled _ _ _ _ l _ _ _ hnode hattr hsize hc hanswer hrest =>
      cases hrest
      obtain rfl : tiledLoop ⟨1⟩ ⟨0⟩ [] = l :=
        Option.some.inj (congrArg loop? (hfirst.symm.trans hnode))
      cases hattr
      cases hsize
      cases hc
      rw [hanswer]
      exact ⟨by cbv, by cbv⟩
  have hblock : shape.rewriteBelow f halfBroken
      = .block ⟨0⟩ [firstTiled, endlessLoop.toStatement] .none := by
    rw [halfBroken, shape.rewriteBelow_eq]
    show Statement.block ⟨0⟩ ([(f [0], shape.rewriteBelow (fun below => f (0 :: below)) _),
      (f [1], shape.rewriteBelow (fun below => f (1 :: below)) _)].flatMap inList) .none = _
    rw [hanswer.1, hkeep _ List.mem_cons_self, hsecond]
    rfl
  refine ⟨hplain, hknown, hrun.trans ?_⟩
  rw [hblock, hkept [] (by decide), hanswer.2]
  rfl

end Statement

end KernelTree
