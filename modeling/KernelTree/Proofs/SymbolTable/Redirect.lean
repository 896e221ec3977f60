import KernelTree.Proofs.SymbolTable.Chain

/-!
# Scopes that are put elsewhere

A new scope is added inside a scope and some scopes are put into it, wherever they were before
(`SymbolTable.Redirects`). The scopes still form a forest exactly if none of these is the scope with
the new one or around it (`Redirects.isForest`, `Redirects.not_reaches`). In a forest the search for
a name along the parents ends and finds what the bounded one finds (`IsForest.looksUp`).
-/

namespace KernelTree.SymbolTable

variable {t t' : SymbolTable} {s p x y : ScopeId} {name : String}

/-! ### Unbounded search -/

/-- The search for a name from a scope outwards ends, with this result. -/
inductive LooksUp (t : SymbolTable) (name : String) : ScopeId → Option Symbol → Prop
  | found {s : ScopeId} {symbol : Symbol} (h : t.lookupLocal s name = some symbol) :
    LooksUp t name s (some symbol)
  | outward {s p : ScopeId} {r : Option Symbol} (h : t.lookupLocal s name = none)
      (hp : t.parent? s = some p) (hr : LooksUp t name p r) : LooksUp t name s r
  | nowhere {s : ScopeId} (h : t.lookupLocal s name = none) (hp : t.parent? s = none) :
    LooksUp t name s none

/-- In a forest the search ends, and the bounded one finds the same. -/
theorem IsForest.looksUp (hf : t.IsForest) (hs : t.Has s) (name : String) :
    t.LooksUp name s (t.lookup s name) := by
  induction hd : t.depth s using Nat.strong_induction_on generalizing s with
  | _ d ih =>
    rw [hf.lookup_eq hs]
    cases hlocal : t.lookupLocal s name with
    | some symbol => exact .found hlocal
    | none =>
      cases hp : t.parent? s with
      | none => exact .nowhere hlocal hp
      | some p => exact .outward hlocal hp (ih _ (hd ▸ hf.depth_lt hp) (hf.closed hp) rfl)

/-- The scope is the other one or lies somewhere inside it. -/
def Reaches (t : SymbolTable) (x y : ScopeId) : Prop := Relation.ReflTransGen t.Inside x y

/-- Among scopes that say nothing about a name and all lie in others the search does not end. -/
theorem not_looksUp (h : ∀ x, t.Reaches s x → t.lookupLocal x name = none ∧ t.parent? x ≠ none)
    (r : Option Symbol) : ¬ t.LooksUp name s r := by
  intro hr
  induction hr with
  | found hlocal =>
    rw [(h _ .refl).1] at hlocal
    cases hlocal
  | outward _ hp _ ih => exact ih fun x hx => h x (.head hp hx)
  | nowhere _ hp => exact (h _ .refl).2 hp

/-! ### Ranks -/

open Classical in
/-- Numbers that grow from the outside in: those of `p` and the scopes around it, then that of `z`,
then all others. -/
noncomputable def rank (t : SymbolTable) (p z x : ScopeId) : ℕ :=
  if x = z then t.scopes.size + 1
  else if t.Reaches p x then t.depth x else t.scopes.size + 2 + t.depth x

section

variable {z : ScopeId}

/-- The moved scope ranks above all that is found from its new place. -/
theorem rank_self : t.rank p z z = t.scopes.size + 1 := if_pos rfl

/-- What is found from the new place keeps its depth for a rank. -/
theorem rank_of_reaches (hx : x ≠ z) (hreaches : t.Reaches p x) : t.rank p z x = t.depth x := by
  rw [rank, if_neg hx, if_pos hreaches]

/-- All other scopes rank above the moved one, by their depth. -/
theorem rank_of_not_reaches (hx : x ≠ z) (hreaches : ¬ t.Reaches p x) :
    t.rank p z x = t.scopes.size + 2 + t.depth x := by
  rw [rank, if_neg hx, if_neg hreaches]

/-- What is not found from the new place ranks above the moved scope. -/
theorem rank_self_lt_rank (hx : x ≠ z) (hreaches : ¬ t.Reaches p x) :
    t.rank p z z < t.rank p z x := by
  rw [rank_self, rank_of_not_reaches hx hreaches]
  omega

/-- What is found from the new place ranks below the moved scope. -/
theorem IsForest.rank_lt_rank_self (hf : t.IsForest) (hhas : t.Has x) (hx : x ≠ z)
    (hreaches : t.Reaches p x) : t.rank p z x < t.rank p z z := by
  have := hf.depth_lt_size hhas
  rw [rank_self, rank_of_reaches hx hreaches]
  omega

/-- Along the links that were kept the rank falls. -/
theorem IsForest.rank_lt_rank (hf : t.IsForest) (hlink : t.Inside x y) (hx : x ≠ z) (hy : y ≠ z) :
    t.rank p z y < t.rank p z x := by
  have hdepth := hf.depth_lt hlink
  have hsize := hf.depth_lt_size (hf.closed hlink)
  by_cases hreaches : t.Reaches p x
  · rw [rank_of_reaches hx hreaches, rank_of_reaches hy (hreaches.tail hlink)]
    exact hdepth
  · rw [rank_of_not_reaches hx hreaches]
    by_cases hout : t.Reaches p y
    · rw [rank_of_reaches hy hout]
      omega
    · rw [rank_of_not_reaches hy hout]
      omega

end

/-! ### Moving scopes -/

/-- The table with one more scope, directly inside `p`, and those that were `moved` directly inside
the new one. -/
structure Redirects (t t' : SymbolTable) (p : ScopeId) (moved : List ScopeId) : Prop where
  size : t'.scopes.size = t.scopes.size + 1
  known : t.Has p
  new : t'.parent? t.nextScope = some p
  adopted : ∀ x ∈ moved, t.Has x ∧ t'.parent? x = some t.nextScope
  kept : ∀ x, t.Has x → x ∉ moved → t'.parent? x = t.parent? x

namespace Redirects

variable {moved : List ScopeId} (h : t.Redirects t' p moved)

include h

/-- All scopes are kept. -/
theorem has (hx : t.Has x) : t'.Has x := by
  unfold Has at *
  rw [h.size]
  omega

/-- The new scope is in the table. -/
theorem has_nextScope : t'.Has t.nextScope := by
  unfold Has
  rw [h.size]
  exact Nat.lt_succ_self _

/-- A link of the new table starts at the new scope, at one that was moved, or is an old one. -/
theorem parent?_cases (hx : t'.parent? x = some y) :
    (x = t.nextScope ∧ y = p) ∨ (x ∈ moved ∧ t.Has x ∧ y = t.nextScope) ∨
      (x ∉ moved ∧ t.parent? x = some y) := by
  by_cases hnew : x = t.nextScope
  · subst hnew
    rw [h.new] at hx
    exact .inl ⟨rfl, (Option.some.inj hx).symm⟩
  · have hhas : t.Has x := by
      have hlt : x.index < t.scopes.size + 1 := h.size ▸ has_of_parent? hx
      have hne : x.index ≠ t.scopes.size := index_ne hnew
      unfold Has
      omega
    by_cases hmoved : x ∈ moved
    · rw [(h.adopted x hmoved).2] at hx
      exact .inr (.inl ⟨hmoved, hhas, (Option.some.inj hx).symm⟩)
    · rw [h.kept x hhas hmoved] at hx
      exact .inr (.inr ⟨hmoved, hx⟩)

/-- Scopes that were not moved lie where they did. -/
theorem inside_of_not_mem (hmoved : x ∉ moved) (hx : t.Inside x y) : t'.Inside x y :=
  (h.kept x (has_of_parent? hx) hmoved).trans hx

/-- The way out of `p` is the old one, up to a scope that was moved. -/
theorem reaches_or (hx : t.Reaches p x) : t'.Reaches p x ∨ ∃ m ∈ moved, t'.Reaches p m := by
  induction hx with
  | refl => exact .inl .refl
  | @tail y z _ hlink ih =>
    obtain hy | hmoved := ih
    · by_cases hm : y ∈ moved
      · exact .inr ⟨y, hm, hy⟩
      · exact .inl (hy.tail (h.inside_of_not_mem hm hlink))
    · exact .inr hmoved

/-- Nothing that was moved is `p` or around it if there is no circle. -/
theorem not_reaches (hf : t'.IsForest) : ∀ m ∈ moved, ¬ t.Reaches p m := by
  intro m hm hreaches
  -- The first scope that was moved on the way from `p` to `m` is still reached.
  obtain ⟨m', hm', hcircle⟩ : ∃ m' ∈ moved, t'.Reaches p m' := by
    obtain hreaches | hmoved := h.reaches_or hreaches
    · exact ⟨m, hm, hreaches⟩
    · exact hmoved
  have hin : t'.Inside m' t.nextScope := (h.adopted m' hm').2
  exact hf.acyclic m' (.head hin (.head' h.new hcircle))

section

variable (hclear : ∀ m ∈ moved, ¬ t.Reaches p m)

include hclear

/-- What was found from the scope around is still found. -/
theorem reaches (hx : t.Reaches p x) : t'.Reaches p x := by
  induction hx with
  | refl => exact .refl
  | @tail y z hy hlink ih => exact ih.tail (h.inside_of_not_mem (fun hm => hclear y hm hy) hlink)

/-- What was found from there in some steps is still found in some. -/
theorem transGen (hx : Relation.TransGen t.Inside p x) : Relation.TransGen t'.Inside p x := by
  obtain ⟨y, hy, hlink⟩ := Relation.TransGen.tail'_iff.mp hx
  exact .tail' (h.reaches hclear hy) (h.inside_of_not_mem (fun hm => hclear y hm hy) hlink)

/-- The table has no circles if there was none and the moved scopes were not found from the new
place. -/
theorem isForest (hf : t.IsForest) : t'.IsForest := by
  refine isForest_of_rank (t.rank p t.nextScope) ?_ ?_
  · intro x q hx
    obtain ⟨-, rfl⟩ | ⟨-, -, rfl⟩ | ⟨-, hlink⟩ := h.parent?_cases hx
    · exact h.has h.known
    · exact h.has_nextScope
    · exact h.has (hf.closed hlink)
  · intro x q hx
    obtain ⟨rfl, rfl⟩ | ⟨hm, hhas, rfl⟩ | ⟨-, hlink⟩ := h.parent?_cases hx
    · exact hf.rank_lt_rank_self h.known (ne_nextScope h.known) .refl
    · exact rank_self_lt_rank (ne_nextScope hhas) (hclear x hm)
    · exact hf.rank_lt_rank hlink (ne_nextScope (has_of_parent? hlink))
        (ne_nextScope (hf.closed hlink))

end

end Redirects

/-! ### How scopes are moved -/

/-- A new scope is put in with nothing in it. -/
theorem redirects_newScope (hp : t.Has p) : t.Redirects (t.newScope p).2 p [] where
  size := t.size_newScope p
  known := hp
  new := t.parent?_newScope_self p
  adopted _ hx := absurd hx List.not_mem_nil
  kept _ hx _ := parent?_newScope hx p

namespace Redirects

variable {moved : List ScopeId}

/-- The parents are all that matters. -/
theorem of_parents_eq {t'' : SymbolTable} (h : t.Redirects t' p moved)
    (hsize : t''.scopes.size = t'.scopes.size) (hparent : ∀ x, t''.parent? x = t'.parent? x) :
    t.Redirects t'' p moved where
  size := hsize.trans h.size
  known := h.known
  new := (hparent _).trans h.new
  adopted x hx := ⟨(h.adopted x hx).1, (hparent x).trans (h.adopted x hx).2⟩
  kept x hx hnot := (hparent x).trans (h.kept x hx hnot)

/-- One more scope is put into the new one. -/
theorem adopt (h : t.Redirects t' p moved) (hx : t.Has x) :
    t.Redirects (t'.setParent x (some t.nextScope)) p (moved ++ [x]) where
  size := (t'.size_setParent x _).trans h.size
  known := h.known
  new := by
    rw [parent?_setParent_of_ne _ (ne_nextScope hx).symm]
    exact h.new
  adopted y hy := by
    by_cases hyx : y = x
    · subst hyx
      exact ⟨hx, parent?_setParent_self (h.has hx) _⟩
    · rw [parent?_setParent_of_ne _ hyx]
      refine h.adopted y ((List.mem_append.mp hy).resolve_right fun hy => ?_)
      exact hyx (List.mem_singleton.mp hy)
  kept y hy hnot := by
    rw [List.mem_append, List.mem_singleton, not_or] at hnot
    rw [parent?_setParent_of_ne _ hnot.2]
    exact h.kept y hy hnot.1

/-- More scopes may be moved into the new one. -/
theorem adoptAll (h : t.Redirects t' p moved) {l : List ScopeId} (hl : ∀ x ∈ l, t.Has x) :
    t.Redirects (l.foldl (fun t' x => t'.setParent x (some t.nextScope)) t') p (moved ++ l) := by
  induction l generalizing t' moved with
  | nil =>
    rw [List.append_nil]
    exact h
  | cons x l ih =>
    obtain ⟨hx, hl⟩ := List.forall_mem_cons.mp hl
    have hrest := ih (h.adopt hx) hl
    rw [List.append_assoc] at hrest
    exact hrest

end Redirects

end KernelTree.SymbolTable
