import KernelTree.Proofs.Pass.Walk
import KernelTree.Proofs.SymbolTable.Chain

/-!
# The scopes of a statement

Of a statement only the scopes that it and the statements inside open matter to names
(`Statement.nest`). They are aligned with a table if each has for parent the one around it, none is
opened twice and the scopes of the table form a forest (`Statement.Aligned`). Steps that change
scopes and table together while the scopes stay aligned and the meaning of names is kept
(`Nest.Keeps`) may be taken one after another, side by side and inside a scope.
-/

namespace KernelTree

/-- Scopes inside scopes: a scope, what lies inside it and what comes after it. -/
inductive Nest
  | nil
  | node (scope : ScopeId) (inside after : Nest)

namespace Nest

/-- One nest after another. -/
def append : Nest → Nest → Nest
  | nil, G => G
  | node x inside after, G => node x inside (after.append G)

instance : Append Nest := ⟨append⟩

/-- All scopes, each after those inside it. -/
def scopes : Nest → List ScopeId
  | nil => []
  | node x inside after => inside.scopes ++ x :: after.scopes

/-- The outermost scopes. -/
def tops : Nest → List ScopeId
  | nil => []
  | node x _ after => x :: after.tops

/-- The scopes inside the outermost ones. -/
def inner : Nest → List ScopeId
  | nil => []
  | node _ inside after => inside.scopes ++ after.inner

/-- Every scope has for parent the scope around it, the outermost ones a given scope. -/
def Hangs (t : SymbolTable) : ScopeId → Nest → Prop
  | _, nil => True
  | k, node x inside after => t.parent? x = some k ∧ inside.Hangs t x ∧ after.Hangs t k

variable {t t' t'' : SymbolTable} {k x : ScopeId} {F F' F'' G G' : Nest}

@[simp] theorem nil_append (G : Nest) : nil ++ G = G := rfl

@[simp] theorem node_append (x : ScopeId) (F G H : Nest) :
    node x F G ++ H = node x F (G ++ H) := rfl

/-- Nothing behind a nest adds nothing. -/
@[simp] theorem append_nil (F : Nest) : F ++ nil = F := by
  induction F with
  | nil => rfl
  | node x inside after _ ih => rw [node_append, ih]

/-- The scopes of two nests side by side, the left ones first. -/
@[simp] theorem scopes_append (F G : Nest) : (F ++ G).scopes = F.scopes ++ G.scopes := by
  induction F with
  | nil => rfl
  | node x inside after _ ih =>
    rw [node_append, scopes, scopes, ih, List.append_assoc, List.cons_append]

/-- The outermost scopes of two nests side by side. -/
@[simp] theorem tops_append (F G : Nest) : (F ++ G).tops = F.tops ++ G.tops := by
  induction F with
  | nil => rfl
  | node x inside after _ ih => rw [node_append, tops, tops, ih, List.cons_append]

/-- Two nests side by side hang under a scope if both do. -/
@[simp] theorem hangs_append : (F ++ G).Hangs t k ↔ F.Hangs t k ∧ G.Hangs t k := by
  induction F with
  | nil => simp [Hangs]
  | node x inside after _ ih => simp [Hangs, ih, and_assoc]

/-- Side by side no scope comes twice if that holds of both and they share none. -/
theorem nodup_scopes_append :
    (F ++ G).scopes.Nodup ↔ F.scopes.Nodup ∧ G.scopes.Nodup ∧ F.scopes.Disjoint G.scopes := by
  rw [scopes_append, List.nodup_append']

/-- A scope must not come again inside itself. -/
theorem nodup_scopes_node :
    (node x F nil).scopes.Nodup ↔ F.scopes.Nodup ∧ x ∉ F.scopes := by
  simp [scopes, List.nodup_append']

/-- The outermost scopes are among all. -/
theorem mem_scopes_of_mem_tops (h : x ∈ F.tops) : x ∈ F.scopes := by
  induction F with
  | nil => cases h
  | node y inside after _ ih =>
    rw [tops, List.mem_cons] at h
    rw [scopes, List.mem_append, List.mem_cons]
    exact .inr (h.imp_right ih)

/-- The inner scopes are among all. -/
theorem mem_scopes_of_mem_inner (h : x ∈ F.inner) : x ∈ F.scopes := by
  induction F with
  | nil => cases h
  | node y inside after _ ih =>
    rw [inner, List.mem_append] at h
    rw [scopes, List.mem_append, List.mem_cons]
    exact h.imp_right fun h => .inr (ih h)

/-- If no scope occurs twice, those inside the outermost ones are not outermost. -/
theorem not_mem_tops (hF : F.scopes.Nodup) (h : x ∈ F.inner) : x ∉ F.tops := by
  induction F with
  | nil => cases h
  | node y inside after _ ih =>
    rw [scopes, List.nodup_append, List.nodup_cons] at hF
    obtain ⟨-, ⟨hy, hafter⟩, hdisjoint⟩ := hF
    rw [inner, List.mem_append] at h
    rw [tops, List.mem_cons]
    rintro (rfl | htop)
    · rcases h with h | h
      · exact hdisjoint x h x List.mem_cons_self rfl
      · exact hy (mem_scopes_of_mem_inner h)
    · rcases h with h | h
      · exact hdisjoint x h x (List.mem_cons_of_mem _ (mem_scopes_of_mem_tops htop)) rfl
      · exact ih hafter h htop

namespace Hangs

/-- The outermost scopes lie in the scope around. -/
theorem parent?_of_mem_tops (h : F.Hangs t k) (hx : x ∈ F.tops) : t.parent? x = some k := by
  induction F with
  | nil => cases hx
  | node y inside after _ ih =>
    rcases List.mem_cons.mp hx with rfl | hx
    · exact h.1
    · exact ih h.2.2 hx

/-- Every scope of a nest that hangs in a table is one of the table. -/
theorem has (h : F.Hangs t k) (hx : x ∈ F.scopes) : t.Has x := by
  induction F generalizing k with
  | nil => cases hx
  | node y inside after ihinside ihafter =>
    obtain ⟨hy, hinside, hafter⟩ := h
    rw [scopes, List.mem_append, List.mem_cons] at hx
    rcases hx with hx | rfl | hx
    · exact ihinside hinside hx
    · exact SymbolTable.has_of_parent? hy
    · exact ihafter hafter hx

/-- Scopes hang where they hung if their parents are the same. -/
theorem congr (h : F.Hangs t k) (hsame : ∀ x ∈ F.scopes, t'.parent? x = t.parent? x) :
    F.Hangs t' k := by
  induction F generalizing k with
  | nil => trivial
  | node y inside after ihinside ihafter =>
    obtain ⟨hy, hinside, hafter⟩ := h
    simp only [scopes, List.forall_mem_append, List.forall_mem_cons] at hsame
    obtain ⟨hsame, hsame_top, hsame_after⟩ := hsame
    exact ⟨hsame_top.trans hy, ihinside hinside hsame, ihafter hafter hsame_after⟩

/-- Only the outermost scopes need another parent to hang elsewhere. -/
theorem rehang (h : F.Hangs t k) {p : ScopeId} (htops : ∀ x ∈ F.tops, t'.parent? x = some p)
    (hinner : ∀ x ∈ F.inner, t'.parent? x = t.parent? x) : F.Hangs t' p := by
  induction F with
  | nil => trivial
  | node y inside after _ ih =>
    obtain ⟨-, hinside, hafter⟩ := h
    obtain ⟨hy, htops⟩ := List.forall_mem_cons.mp htops
    obtain ⟨hinner, hinner_after⟩ := List.forall_mem_append.mp hinner
    exact ⟨hy, hinside.congr hinner, ih hafter htops hinner_after⟩

end Hangs

/-- The scopes agree with the table. -/
structure Aligned (t : SymbolTable) (k : ScopeId) (F : Nest) : Prop where
  hangs : F.Hangs t k
  distinct : F.scopes.Nodup
  forest : t.IsForest

/-- Of two aligned nests side by side the left one is aligned. -/
theorem Aligned.left (h : (F ++ G).Aligned t k) : F.Aligned t k :=
  ⟨(hangs_append.mp h.hangs).1, (nodup_scopes_append.mp h.distinct).1, h.forest⟩

/-- Of two aligned nests side by side the right one is aligned. -/
theorem Aligned.right (h : (F ++ G).Aligned t k) : G.Aligned t k :=
  ⟨(hangs_append.mp h.hangs).2, (nodup_scopes_append.mp h.distinct).2.1, h.forest⟩

/-- Nests side by side share no scopes. -/
theorem Aligned.disjoint (h : (F ++ G).Aligned t k) : F.scopes.Disjoint G.scopes :=
  (nodup_scopes_append.mp h.distinct).2.2

/-- What is inside a scope is aligned in it. -/
theorem Aligned.inside (h : (node x F nil).Aligned t k) : F.Aligned t x :=
  ⟨h.hangs.2.1, (nodup_scopes_node.mp h.distinct).1, h.forest⟩

/-- A scope is not found inside itself. -/
theorem Aligned.not_mem (h : (node x F nil).Aligned t k) : x ∉ F.scopes :=
  (nodup_scopes_node.mp h.distinct).2

end Nest

/-- A later table: scopes and variables are still there, only some scopes have another parent, and
in the scopes that were there names mean what they meant, apart from those that were `declared`. -/
structure SymbolTable.Evolves (t t' : SymbolTable) (touched : List ScopeId)
    (declared : String → Prop) : Prop where
  has : ∀ x, t.Has x → t'.Has x
  parent? : ∀ x, t.Has x → x ∉ touched → t'.parent? x = t.parent? x
  lookup : ∀ x name, t.Has x → ¬ declared name → t'.lookup x name = t.lookup x name
  var : ∀ v : VarId, v.index < t.vars.size → v.index < t'.vars.size ∧ t'.var v = t.var v

/-- Two changes in a row touch what either touches. -/
theorem SymbolTable.Evolves.trans {t t' t'' : SymbolTable}
    {touched touched' touched'' : List ScopeId} {declared : String → Prop}
    (h : t.Evolves t' touched declared) (h' : t'.Evolves t'' touched' declared)
    (hsub : ∀ x, t.Has x → x ∉ touched'' → x ∉ touched ∧ x ∉ touched') :
    t.Evolves t'' touched'' declared where
  has x hx := h'.has x (h.has x hx)
  parent? x hx hnot := by
    obtain ⟨hfirst, hsecond⟩ := hsub x hx hnot
    rw [h'.parent? x (h.has x hx) hsecond, h.parent? x hx hfirst]
  lookup x name hx hname := by
    rw [h'.lookup x name (h.has x hx) hname, h.lookup x name hx hname]
  var v hv := by
    obtain ⟨hv', heq⟩ := h.var v hv
    obtain ⟨hv'', heq'⟩ := h'.var v hv'
    exact ⟨hv'', heq'.trans heq⟩

namespace Nest

variable {t t' t'' : SymbolTable} {k x : ScopeId} {F F' F'' G G' : Nest} {declared : String → Prop}

/-- A step from scopes and a table to others: they are aligned again, new scopes are new to the
table, and what lies outside is left alone. -/
structure Keeps (declared : String → Prop) (t t' : SymbolTable) (k : ScopeId) (F F' : Nest) :
    Prop where
  aligned : F'.Aligned t' k
  fresh : ∀ x ∈ F'.scopes, x ∈ F.scopes ∨ ¬ t.Has x
  evolves : t.Evolves t' F.scopes declared

namespace Keeps

/-- A nest that is left alone is kept. -/
theorem refl (h : F.Aligned t k) : Keeps declared t t k F F where
  aligned := h
  fresh _ hx := .inl hx
  evolves := ⟨fun _ h => h, fun _ _ _ => rfl, fun _ _ _ _ => rfl, fun _ h => ⟨h, rfl⟩⟩

/-- No scope that was there outside of a nest comes into it. -/
theorem not_mem (h : Keeps declared t t' k F F') (hx : t.Has x) (hF : x ∉ F.scopes) :
    x ∉ F'.scopes := by
  intro hx'
  rcases h.fresh x hx' with hmem | hnew
  · exact hF hmem
  · exact hnew hx

/-- Two changes in a row keep the nest if both do. -/
theorem trans (h : Keeps declared t t' k F F') (h' : Keeps declared t' t'' k F' F'') :
    Keeps declared t t'' k F F'' where
  aligned := h'.aligned
  fresh x hx := by
    rcases h'.fresh x hx with hmem | hnew
    · exact h.fresh x hmem
    · exact .inr fun hhas => hnew (h.evolves.has x hhas)
  evolves := h.evolves.trans h'.evolves fun x hx hnot => ⟨hnot, h.not_mem hx hnot⟩

/-- What stands beside the scopes of a step stays aligned. -/
theorem rest (h : Keeps declared t t' k F F') (hFG : (F ++ G).Aligned t k) : G.Aligned t' k where
  hangs := hFG.right.hangs.congr fun x hx =>
    h.evolves.parent? x (hFG.right.hangs.has hx) fun hF => hFG.disjoint hF hx
  distinct := hFG.right.distinct
  forest := h.aligned.forest

/-- Steps may be taken side by side. -/
theorem append (h : Keeps declared t t' k F F') (h' : Keeps declared t' t'' k G G')
    (hFG : (F ++ G).Aligned t k) : Keeps declared t t'' k (F ++ G) (F' ++ G') := by
  have hG : ∀ x ∈ G.scopes, t.Has x := fun x hx => hFG.right.hangs.has hx
  -- What the first step made does not meet what the second step starts from.
  have hapart : ∀ x ∈ F'.scopes, x ∉ G.scopes := by
    intro x hx hxG
    exact h.not_mem (hG x hxG) (fun hF => hFG.disjoint hF hxG) hx
  have hF' : ∀ x ∈ F'.scopes, t'.Has x := fun x hx => h.aligned.hangs.has hx
  refine ⟨⟨?_, ?_, h'.aligned.forest⟩, ?_, ?_⟩
  · refine hangs_append.mpr ⟨h.aligned.hangs.congr ?_, h'.aligned.hangs⟩
    intro x hx
    exact h'.evolves.parent? x (hF' x hx) (hapart x hx)
  · refine nodup_scopes_append.mpr ⟨h.aligned.distinct, h'.aligned.distinct, ?_⟩
    intro x hx
    exact h'.not_mem (hF' x hx) (hapart x hx)
  · intro x hx
    rw [scopes_append, List.mem_append] at hx ⊢
    rcases hx with hx | hx
    · exact (h.fresh x hx).imp_left .inl
    · rcases h'.fresh x hx with hmem | hnew
      · exact .inl (.inr hmem)
      · exact .inr fun hhas => hnew (h.evolves.has x hhas)
  · refine h.evolves.trans h'.evolves fun x _ hnot => ?_
    rw [scopes_append, List.mem_append, not_or] at hnot
    exact hnot

/-- A step may be taken inside a scope. -/
theorem node (h : Keeps declared t t' x F F') (hx : (Nest.node x F nil).Aligned t k) :
    Keeps declared t t' k (Nest.node x F nil) (Nest.node x F' nil) := by
  have hhas : t.Has x := SymbolTable.has_of_parent? hx.hangs.1
  refine ⟨⟨⟨?_, h.aligned.hangs, trivial⟩, ?_, h.aligned.forest⟩, ?_, ?_⟩
  · rw [h.evolves.parent? x hhas hx.not_mem]
    exact hx.hangs.1
  · exact nodup_scopes_node.mpr ⟨h.aligned.distinct, h.not_mem hhas hx.not_mem⟩
  · intro y hy
    simp only [scopes, List.mem_append, List.mem_cons] at hy ⊢
    rcases hy with hy | hy
    · exact (h.fresh y hy).imp_left .inl
    · exact .inl (.inr hy)
  · refine ⟨h.evolves.has, ?_, h.evolves.lookup, h.evolves.var⟩
    intro y hy hnot
    rw [scopes, List.mem_append, not_or] at hnot
    exact h.evolves.parent? y hy hnot.1

/-- A new scope may be put around scopes. -/
theorem wrap {made : String → Prop} (h : t.Inserts t' k F.tops made) (hF : F.Aligned t k)
    (hmade : ∀ name, made name → declared name)
    (hvar : ∀ v : VarId, v.index < t.vars.size → v.index < t'.vars.size ∧ t'.var v = t.var v) :
    Keeps declared t t' k F (Nest.node t.nextScope F nil) := by
  have hnew : t.nextScope ∉ F.scopes := fun hx => SymbolTable.ne_nextScope (hF.hangs.has hx) rfl
  refine ⟨⟨⟨h.new, ?_, trivial⟩, ?_, h.isForest hF.forest⟩, ?_, ?_⟩
  · refine hF.hangs.rehang (fun x hx => (h.adopted x hx).2) ?_
    intro x hx
    exact h.kept x (hF.hangs.has (mem_scopes_of_mem_inner hx)) (not_mem_tops hF.distinct hx)
  · exact nodup_scopes_node.mpr ⟨hF.distinct, hnew⟩
  · intro x hx
    simp only [scopes, List.mem_append, List.mem_cons, List.not_mem_nil, or_false] at hx
    rcases hx with hx | rfl
    · exact .inl hx
    · exact .inr fun hhas => SymbolTable.ne_nextScope hhas rfl
  · refine ⟨fun x hx => h.has hx, ?_, ?_, hvar⟩
    · intro x hx hnot
      exact h.kept x hx fun htop => hnot (mem_scopes_of_mem_tops htop)
    · intro x name hx hname
      exact h.lookup_eq hF.forest (fun hmade' => hname (hmade name hmade')) hx

end Keeps

end Nest

/-! ### Statements -/

namespace Statement

/-- The scopes that the statement and those inside open. -/
def nest (s : Statement) : Nest :=
  let inside := (s.parts.attach.map fun ⟨c, h⟩ =>
    have := sizeOf_lt_of_mem_parts h
    c.nest).foldr (· ++ ·) .nil
  match s.scope? with
  | some x => .node x inside .nil
  | none => inside
termination_by sizeOf s

/-- The scopes that the statements of a list open. -/
def nestAll (l : List Statement) : Nest := (l.map nest).foldr (· ++ ·) .nil

@[simp] theorem nestAll_nil : nestAll [] = .nil := rfl

@[simp] theorem nestAll_cons (s : Statement) (l : List Statement) :
    nestAll (s :: l) = s.nest ++ nestAll l := rfl

/-- A statement that opens a scope puts those of its parts inside; any other hands them on. -/
theorem nest_eq (s : Statement) : s.nest = match s.scope? with
    | some x => .node x (nestAll s.parts) .nil
    | none => nestAll s.parts := by
  rw [nest, nestAll, ← List.attach_map_val (f := nest)]

/-- A statement that opens a scope is a nest with that one outside. -/
theorem nest_of_scope? {s : Statement} {x : ScopeId} (h : s.scope? = some x) :
    s.nest = .node x (nestAll s.parts) .nil := by
  rw [nest_eq, h]

/-- Only statements that open a scope have statements inside. -/
theorem parts_eq_nil {s : Statement} (h : s.scope? = none) : s.parts = [] := by
  cases s <;> first | rfl | cases h

/-- A statement that opens no scope has no parts and no nest. -/
theorem nest_of_scope?_eq_none {s : Statement} (h : s.scope? = none) : s.nest = .nil := by
  rw [nest_eq, h, parts_eq_nil h]
  rfl

/-- The outermost scopes of a list are those that its statements open. -/
theorem tops_nestAll (l : List Statement) : (nestAll l).tops = l.filterMap scope? := by
  induction l with
  | nil => rfl
  | cons s l ih =>
    rw [nestAll_cons, Nest.tops_append, ih]
    cases hs : s.scope? with
    | none =>
      rw [nest_of_scope?_eq_none hs, List.filterMap_cons_none hs]
      rfl
    | some x =>
      rw [nest_of_scope? hs, List.filterMap_cons_some hs]
      rfl

variable {t : SymbolTable} {k : ScopeId} {s : Statement}

/-- The scopes of a statement agree with a table: each lies directly inside that of the nearest
statement around it that opens one, or else inside the given one; no two are the same; and the
scopes of the table form a forest. -/
structure Aligned (t : SymbolTable) (k : ScopeId) (s : Statement) : Prop where
  parents : ∀ site ∈ shape.sites k s, ∀ x, site.node.scope? = some x →
    t.parent? x = some site.around
  distinct : ((shape.sites k s).filterMap fun site => site.node.scope?).Nodup
  forest : t.IsForest

/-- The scopes of a list are those of its statements. -/
theorem scopes_nestAll (l : List Statement) :
    (nestAll l).scopes = l.flatMap fun c => c.nest.scopes := by
  induction l with
  | nil => rfl
  | cons s l ih => rw [nestAll_cons, Nest.scopes_append, ih, List.flatMap_cons]

/-- A list hangs under a scope if its statements do. -/
theorem hangs_nestAll {l : List Statement} :
    (nestAll l).Hangs t k ↔ ∀ c ∈ l, c.nest.Hangs t k := by
  induction l with
  | nil => simp [Nest.Hangs]
  | cons s l ih => rw [nestAll_cons, Nest.hangs_append, ih, List.forall_mem_cons]

/-- The walk meets each scope of the nest once, inner ones first. -/
theorem filterMap_scope?_sites (k : ScopeId) (s : Statement) :
    ((shape.sites k s).filterMap fun site => site.node.scope?) = s.nest.scopes := by
  induction s using shape.inductionOn generalizing k with
  | step s ih =>
    rw [shape.filterMap_sites (fun _ _ => rfl),
      List.flatMap_congr fun c hc => ih c hc _]
    show (s.parts.flatMap fun c => c.nest.scopes) ++ s.scope?.toList = s.nest.scopes
    rw [← scopes_nestAll]
    cases hs : s.scope? with
    | none => rw [nest_of_scope?_eq_none hs, parts_eq_nil hs]; rfl
    | some x => rw [nest_of_scope? hs]; rfl

/-- A nest hangs in a table exactly if each scope has the one around it for its parent. -/
theorem forall_sites_iff : (∀ site ∈ shape.sites k s, ∀ x, site.node.scope? = some x →
    t.parent? x = some site.around) ↔ s.nest.Hangs t k := by
  induction s using shape.inductionOn generalizing k with
  | step s ih =>
    rw [shape.forall_mem_sites (fun _ _ => Iff.rfl),
      forall_congr' fun c => forall_congr' fun hc => ih c hc]
    show (∀ c ∈ s.parts, c.nest.Hangs t (s.scope?.getD k)) ∧
      (∀ x, s.scope? = some x → t.parent? x = some k) ↔ s.nest.Hangs t k
    rw [← hangs_nestAll]
    cases hs : s.scope? with
    | none =>
      rw [nest_of_scope?_eq_none hs, parts_eq_nil hs]
      simp [Nest.Hangs]
    | some x =>
      rw [nest_of_scope? hs]
      simp [Nest.Hangs, and_comm]

/-- A statement is aligned exactly if its nest is. -/
theorem aligned_iff : s.Aligned t k ↔ s.nest.Aligned t k := by
  constructor
  · rintro ⟨hparents, hdistinct, hforest⟩
    exact ⟨forall_sites_iff.mp hparents, filterMap_scope?_sites k s ▸ hdistinct, hforest⟩
  · rintro ⟨hhangs, hdistinct, hforest⟩
    exact ⟨forall_sites_iff.mpr hhangs, (filterMap_scope?_sites k s).symm ▸ hdistinct, hforest⟩

end Statement

end KernelTree
