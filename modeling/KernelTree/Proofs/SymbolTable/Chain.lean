import KernelTree.SymbolTable
import Mathlib.Data.Fintype.Card
import Mathlib.Logic.Relation

/-!
# Chains of scopes

In a table whose scopes form a forest no chain of parents is cut off, so a name means what its scope
says about it or else what it means in the parent (`SymbolTable.IsForest.lookup_eq`). A new scope
may be put between a scope and some of those directly inside it (`SymbolTable.Inserts`): the scopes
still form a forest, and in all of them the names that the new one does not declare mean what they
meant before (`SymbolTable.Inserts.lookup_eq`).
-/

namespace KernelTree.SymbolTable

variable {t t' : SymbolTable} {s p x : ScopeId} {name : String}

/-- Whether a scope is one of the table. -/
def Has (t : SymbolTable) (s : ScopeId) : Prop := s.index < t.scopes.size

/-- The scope that is added next. -/
def nextScope (t : SymbolTable) : ScopeId := ⟨t.scopes.size⟩

/-- A scope lies directly inside another. -/
def Inside (t : SymbolTable) (s p : ScopeId) : Prop := t.parent? s = some p

/-- Scopes lie in scopes of the table, and no scope lies in itself. -/
structure IsForest (t : SymbolTable) : Prop where
  closed {s p : ScopeId} (h : t.parent? s = some p) : t.Has p
  acyclic (s : ScopeId) : ¬ Relation.TransGen t.Inside s s

/-- A scope that lies in another one is in the table. -/
theorem has_of_parent? (h : t.parent? s = some p) : t.Has s := by
  by_contra hs
  unfold parent? at h
  rw [Array.getElem?_eq_none (Nat.le_of_not_lt hs)] at h
  cases h

/-- Different scopes have different numbers. -/
theorem index_ne (h : x ≠ s) : x.index ≠ s.index := by
  intro heq
  cases x
  cases s
  exact h (congrArg ScopeId.mk heq)

/-- A scope of the table is not the next new one. -/
theorem ne_nextScope (hx : t.Has x) : x ≠ t.nextScope := by
  rintro rfl
  exact Nat.lt_irrefl _ hx

/-! ### Depth -/

section

variable (r : ScopeId → ScopeId → Prop)

open Classical in
/-- How many scopes of the table come behind a scope in a relation. -/
noncomputable def behind (t : SymbolTable) (s : ScopeId) : ℕ :=
  (Finset.univ.filter fun i : Fin t.scopes.size => Relation.TransGen r s ⟨i⟩).card

variable {r}

/-- Along a relation without circles, less is found behind each next scope. -/
theorem behind_lt (hp : t.Has p) (hcircle : ¬ Relation.TransGen r p p) (h : r s p) :
    t.behind r p < t.behind r s := by
  classical
  refine Finset.card_lt_card ((Finset.ssubset_iff_of_subset ?_).mpr ?_)
  · intro i hi
    rw [Finset.mem_filter] at hi ⊢
    exact ⟨hi.1, .head h hi.2⟩
  · refine ⟨⟨p.index, hp⟩, ?_, ?_⟩
    · exact Finset.mem_filter.mpr ⟨Finset.mem_univ _, .single h⟩
    · exact fun hmem => hcircle (Finset.mem_filter.mp hmem).2

/-- A scope in no circle is not behind itself. -/
theorem behind_lt_size (hs : t.Has s) (hcircle : ¬ Relation.TransGen r s s) :
    t.behind r s < t.scopes.size := by
  classical
  rw [← Fintype.card_fin t.scopes.size]
  refine Finset.card_lt_univ_of_notMem (x := ⟨s.index, hs⟩) ?_
  exact fun hmem => hcircle (Finset.mem_filter.mp hmem).2

end

/-- How many scopes lie around a scope. -/
noncomputable def depth (t : SymbolTable) (s : ScopeId) : ℕ := t.behind t.Inside s

namespace IsForest

variable (hf : t.IsForest)

include hf

/-- A parent lies less deep. -/
theorem depth_lt (h : t.parent? s = some p) : t.depth p < t.depth s :=
  behind_lt (hf.closed h) (hf.acyclic p) h

/-- A scope is not around itself. -/
theorem depth_lt_size (hs : t.Has s) : t.depth s < t.scopes.size :=
  behind_lt_size hs (hf.acyclic s)

/-- A chain that is long enough is the whole chain. -/
theorem chainUpTo_eq {m n : ℕ} (hm : t.depth s < m) (hn : t.depth s < n) :
    t.chainUpTo m s = t.chainUpTo n s := by
  induction m generalizing n s with
  | zero => omega
  | succ m ih =>
    obtain ⟨n, rfl⟩ : ∃ k, n = k + 1 := ⟨n - 1, by omega⟩
    simp only [chainUpTo]
    cases hp : t.parent? s with
    | none => rfl
    | some p =>
      have := hf.depth_lt hp
      simp only [ih (s := p) (n := n) (by omega) (by omega)]

/-- A name means what its scope says, or else what it means in the parent. -/
theorem lookup_eq (hs : t.Has s) (name : String) :
    t.lookup s name
      = (t.lookupLocal s name).or ((t.parent? s).bind fun p => t.lookup p name) := by
  have hsize := hf.depth_lt_size hs
  obtain ⟨n, hn⟩ : ∃ n, t.scopes.size = n + 1 := ⟨t.scopes.size - 1, by omega⟩
  rw [lookup, chain, hn, chainUpTo, List.findSome?_cons]
  cases hlocal : t.lookupLocal s name with
  | some symbol => rfl
  | none =>
    cases hp : t.parent? s with
    | none => rfl
    | some p =>
      have := hf.depth_lt hp
      show (t.chainUpTo n p).findSome? _ = t.lookup p name
      rw [hf.chainUpTo_eq (s := p) (m := n) (n := t.scopes.size) (by omega) (by omega)]
      rfl

end IsForest

/-- Where numbers fall along a relation, nothing is related to itself. -/
theorem not_transGen_of_rank {r : ScopeId → ScopeId → Prop} (rank : ScopeId → ℕ)
    (hrank : ∀ {x y}, r x y → rank y < rank x) (x : ScopeId) : ¬ Relation.TransGen r x x := by
  have hdescends : ∀ {x y}, Relation.TransGen r x y → rank y < rank x := by
    intro x y h
    induction h with
    | single h => exact hrank h
    | tail _ h ih => exact (hrank h).trans ih
  exact fun h => Nat.lt_irrefl _ (hdescends h)

/-- Scopes that have numbers which grow from the outside in form a forest. -/
theorem isForest_of_rank (rank : ScopeId → ℕ)
    (hclosed : ∀ {s p}, t.parent? s = some p → t.Has p)
    (hrank : ∀ {s p}, t.parent? s = some p → rank p < rank s) : t.IsForest :=
  ⟨hclosed, not_transGen_of_rank rank hrank⟩

/-! ### A scope in between -/

/-- The table with one more scope, directly inside `p` and around those that were `moved`. -/
structure Inserts (t t' : SymbolTable) (p : ScopeId) (moved : List ScopeId)
    (declared : String → Prop) : Prop where
  size : t'.scopes.size = t.scopes.size + 1
  known : t.Has p
  new : t'.parent? t.nextScope = some p
  adopted : ∀ x ∈ moved, t.parent? x = some p ∧ t'.parent? x = some t.nextScope
  kept : ∀ x, t.Has x → x ∉ moved → t'.parent? x = t.parent? x
  own : ∀ x name, t.Has x → t'.lookupLocal x name = t.lookupLocal x name
  quiet : ∀ name, ¬ declared name → t'.lookupLocal t.nextScope name = none

namespace Inserts

variable {moved : List ScopeId} {declared : String → Prop} (h : t.Inserts t' p moved declared)

include h

/-- All scopes are kept. -/
theorem has (hx : t.Has x) : t'.Has x := by
  unfold Has at *
  rw [h.size]
  omega

/-- The new scope is in the table. -/
theorem has_nextScope : t'.Has t.nextScope := by
  unfold Has
  rw [h.size]
  exact Nat.lt_succ_self _

/-- A link of the new table starts at the new scope, at one that was moved, or is an old one. -/
theorem parent?_cases {q : ScopeId} (hx : t'.parent? x = some q) :
    (x = t.nextScope ∧ q = p) ∨ (t.parent? x = some p ∧ q = t.nextScope) ∨
      t.parent? x = some q := by
  by_cases hnew : x = t.nextScope
  · subst hnew
    rw [h.new] at hx
    exact .inl ⟨rfl, (Option.some.inj hx).symm⟩
  · have hhas : t.Has x := by
      have hlt : x.index < t.scopes.size + 1 := h.size ▸ has_of_parent? hx
      have hne : x.index ≠ t.scopes.size := index_ne hnew
      unfold Has
      omega
    by_cases hmoved : x ∈ moved
    · obtain ⟨hold, hnow⟩ := h.adopted x hmoved
      rw [hnow] at hx
      exact .inr (.inl ⟨hold, (Option.some.inj hx).symm⟩)
    · rw [h.kept x hhas hmoved] at hx
      exact .inr (.inr hx)

/-- A table without circles has none after a scope was put in between: only the moved scopes lie
deeper. -/
theorem isForest (hf : t.IsForest) : t'.IsForest := by
  classical
  -- The new scope is deeper than `p` and less deep than everything inside `p`.
  let rank (x : ScopeId) : ℕ :=
    if x = t.nextScope then 2 * t.depth p + 1 else 2 * t.depth x
  have hnew : rank t.nextScope = 2 * t.depth p + 1 := if_pos rfl
  have hold : ∀ {x}, t.Has x → rank x = 2 * t.depth x := fun hx => if_neg (ne_nextScope hx)
  refine isForest_of_rank rank ?_ ?_
  · intro x q hx
    obtain ⟨-, rfl⟩ | ⟨-, rfl⟩ | hlink := h.parent?_cases hx
    · exact h.has h.known
    · exact h.has_nextScope
    · exact h.has (hf.closed hlink)
  · intro x q hx
    obtain ⟨rfl, rfl⟩ | ⟨hlink, rfl⟩ | hlink := h.parent?_cases hx
    · rw [hnew, hold h.known]
      omega
    · have := hf.depth_lt hlink
      rw [hnew, hold (has_of_parent? hlink)]
      omega
    · have := hf.depth_lt hlink
      rw [hold (hf.closed hlink), hold (has_of_parent? hlink)]
      omega

/-- Names that the new scope does not declare mean what they meant. -/
theorem lookup_eq (hf : t.IsForest) (hname : ¬ declared name) (hx : t.Has x) :
    t'.lookup x name = t.lookup x name := by
  induction hd : t.depth x using Nat.strong_induction_on generalizing x with
  | _ d ih =>
    have hf' := h.isForest hf
    have hparent : ∀ q, t.parent? x = some q → t'.lookup q name = t.lookup q name := by
      intro q hq
      exact ih _ (hd ▸ hf.depth_lt hq) (hf.closed hq) rfl
    rw [hf'.lookup_eq (h.has hx), hf.lookup_eq hx, h.own x name hx]
    congr 1
    by_cases hmoved : x ∈ moved
    · obtain ⟨hold, hnow⟩ := h.adopted x hmoved
      rw [hold, hnow, Option.bind_some, Option.bind_some, hf'.lookup_eq h.has_nextScope,
        h.quiet name hname, h.new, Option.none_or, Option.bind_some]
      exact hparent p hold
    · rw [h.kept x hx hmoved]
      cases hq : t.parent? x with
      | none => rfl
      | some q => exact hparent q hq

end Inserts

/-! ### Writing -/

section Writing

variable (t : SymbolTable) (s : ScopeId)

/-- A new scope is one more. -/
@[simp] theorem size_newScope (p : ScopeId) :
    (t.newScope p).2.scopes.size = t.scopes.size + 1 := Array.size_push _

@[simp] theorem size_declare (name : String) (symbol : Symbol) :
    (t.declare s name symbol).scopes.size = t.scopes.size := Array.size_modify

@[simp] theorem size_setParent (q : Option ScopeId) :
    (t.setParent s q).scopes.size = t.scopes.size := Array.size_modify

/-- A new scope lies where it was put. -/
theorem parent?_newScope_self (p : ScopeId) : (t.newScope p).2.parent? t.nextScope = some p := by
  simp [parent?, newScope, nextScope]

/-- Nothing is declared in a new scope. -/
theorem lookupLocal_newScope_self (p : ScopeId) (name : String) :
    (t.newScope p).2.lookupLocal t.nextScope name = none := by
  simp [lookupLocal, newScope, nextScope, ByName.find?]

variable {t}

/-- A new scope leaves the others as they are. -/
theorem getElem?_newScope (hx : t.Has x) (p : ScopeId) :
    (t.newScope p).2.scopes[x.index]? = t.scopes[x.index]? := by
  have hne : x.index ≠ t.scopes.size := Nat.ne_of_lt hx
  simp [newScope, Array.getElem?_push, hne]

/-- A new scope leaves the others where they are. -/
theorem parent?_newScope (hx : t.Has x) (p : ScopeId) :
    (t.newScope p).2.parent? x = t.parent? x := by
  rw [parent?, getElem?_newScope hx, parent?]

/-- A new scope leaves what is declared in the others. -/
theorem lookupLocal_newScope (hx : t.Has x) (p : ScopeId) (name : String) :
    (t.newScope p).2.lookupLocal x name = t.lookupLocal x name := by
  rw [lookupLocal, getElem?_newScope hx, lookupLocal]

variable (t)

/-- A declaration moves no scope. -/
@[simp] theorem parent?_declare (name : String) (symbol : Symbol) (x : ScopeId) :
    (t.declare s name symbol).parent? x = t.parent? x := by
  simp only [parent?, declare, Array.getElem?_modify]
  split
  · cases t.scopes[x.index]? <;> rfl
  · rfl

variable {s}

/-- A declaration changes its own scope only. -/
theorem lookupLocal_declare_of_ne_scope (hx : x ≠ s) (name name' : String) (symbol : Symbol) :
    (t.declare s name symbol).lookupLocal x name' = t.lookupLocal x name' := by
  have hindex := (index_ne hx).symm
  simp only [lookupLocal, declare, Array.getElem?_modify, if_neg hindex]

/-- A declaration changes the meaning of its own name only. -/
theorem lookupLocal_declare_of_ne (name' : String) (hname : name ≠ name') (symbol : Symbol)
    (x : ScopeId) : (t.declare s name symbol).lookupLocal x name' = t.lookupLocal x name' := by
  simp only [lookupLocal, declare, Array.getElem?_modify]
  split
  · cases t.scopes[x.index]? with
    | none => rfl
    | some scope =>
      show Option.map Prod.snd (ByName.find? Prod.fst (ByName.insert _ _ scope.names) name') = _
      rw [ByName.find?_insert_of_ne Prod.fst hname]
      rfl
  · rfl

/-- Moving a scope keeps what is declared. -/
@[simp] theorem lookupLocal_setParent (q : Option ScopeId) (x : ScopeId) (name : String) :
    (t.setParent s q).lookupLocal x name = t.lookupLocal x name := by
  simp only [lookupLocal, setParent, Array.getElem?_modify]
  split
  · cases t.scopes[x.index]? <;> rfl
  · rfl

/-- A scope that was moved lies where it was put. -/
theorem parent?_setParent_self {t : SymbolTable} (hs : t.Has s) (q : Option ScopeId) :
    (t.setParent s q).parent? s = q := by
  simp [parent?, setParent, Array.getElem?_modify, Array.getElem?_eq_getElem hs]

/-- Moving a scope moves no other. -/
theorem parent?_setParent_of_ne (hx : x ≠ s) (q : Option ScopeId) :
    (t.setParent s q).parent? x = t.parent? x := by
  have hindex := (index_ne hx).symm
  simp only [parent?, setParent, Array.getElem?_modify, if_neg hindex]

end Writing

/-! ### Putting a scope in between -/

/-- A new scope is put in with nothing in it. -/
theorem inserts_newScope (hp : t.Has p) : t.Inserts (t.newScope p).2 p [] fun _ => False where
  size := t.size_newScope p
  known := hp
  new := t.parent?_newScope_self p
  adopted _ hx := absurd hx List.not_mem_nil
  kept _ hx _ := parent?_newScope hx p
  own _ name hx := lookupLocal_newScope hx p name
  quiet name _ := t.lookupLocal_newScope_self p name

namespace Inserts

variable {moved : List ScopeId} {declared : String → Prop}

/-- What a table says about scopes is all that matters. -/
theorem of_scopes_eq {t₀ : SymbolTable} (h : t₀.Inserts t' p moved declared)
    (hscopes : t₀.scopes = t.scopes) : t.Inserts t' p moved declared := by
  have hparent : ∀ x, t₀.parent? x = t.parent? x := fun x => by rw [parent?, hscopes, parent?]
  have hlocal : ∀ x name, t₀.lookupLocal x name = t.lookupLocal x name := fun x name => by
    rw [lookupLocal, hscopes, lookupLocal]
  have hhas : ∀ x, t₀.Has x ↔ t.Has x := fun x => by rw [Has, hscopes, Has]
  have hnext : t₀.nextScope = t.nextScope := by rw [nextScope, hscopes, nextScope]
  exact
    { size := hscopes ▸ h.size
      known := (hhas p).mp h.known
      new := hnext ▸ h.new
      adopted := fun x hx => by
        rw [← hparent, ← hnext]
        exact h.adopted x hx
      kept := fun x hx hnot => by
        rw [← hparent]
        exact h.kept x ((hhas x).mpr hx) hnot
      own := fun x name hx => by
        rw [← hlocal]
        exact h.own x name ((hhas x).mpr hx)
      quiet := fun name hname => hnext ▸ h.quiet name hname }

/-- The new scope may declare a name. -/
theorem declare (h : t.Inserts t' p moved declared) (name : String) (symbol : Symbol) :
    t.Inserts (t'.declare t.nextScope name symbol) p moved fun n => declared n ∨ n = name where
  size := (t'.size_declare _ name symbol).trans h.size
  known := h.known
  new := (t'.parent?_declare _ name symbol _).trans h.new
  adopted x hx := by
    rw [parent?_declare]
    exact h.adopted x hx
  kept x hx hnot := by
    rw [parent?_declare]
    exact h.kept x hx hnot
  own x n hx := by
    rw [lookupLocal_declare_of_ne_scope _ (ne_nextScope hx)]
    exact h.own x n hx
  quiet n hn := by
    rw [not_or] at hn
    rw [lookupLocal_declare_of_ne _ n (Ne.symm hn.2)]
    exact h.quiet n hn.1

/-- A scope directly inside `p` may be put into the new one. -/
theorem adopt (h : t.Inserts t' p moved declared) (hx : t.parent? x = some p) :
    t.Inserts (t'.setParent x (some t.nextScope)) p (moved ++ [x]) declared where
  size := (t'.size_setParent x _).trans h.size
  known := h.known
  new := by
    rw [parent?_setParent_of_ne _ (ne_nextScope (has_of_parent? hx)).symm]
    exact h.new
  adopted y hy := by
    by_cases hyx : y = x
    · subst hyx
      exact ⟨hx, parent?_setParent_self (h.has (has_of_parent? hx)) _⟩
    · rw [parent?_setParent_of_ne _ hyx]
      refine h.adopted y ((List.mem_append.mp hy).resolve_right fun hy => ?_)
      exact hyx (List.mem_singleton.mp hy)
  kept y hy hnot := by
    rw [List.mem_append, List.mem_singleton, not_or] at hnot
    rw [parent?_setParent_of_ne _ hnot.2]
    exact h.kept y hy hnot.1
  own y name hy := by
    rw [lookupLocal_setParent]
    exact h.own y name hy
  quiet name hname := by
    rw [lookupLocal_setParent]
    exact h.quiet name hname

/-- More scopes may be moved into the new one. -/
theorem adoptAll (h : t.Inserts t' p moved declared) {l : List ScopeId}
    (hl : ∀ x ∈ l, t.parent? x = some p) :
    t.Inserts (l.foldl (fun t' x => t'.setParent x (some t.nextScope)) t') p (moved ++ l)
      declared := by
  induction l generalizing t' moved with
  | nil =>
    rw [List.append_nil]
    exact h
  | cons x l ih =>
    obtain ⟨hx, hl⟩ := List.forall_mem_cons.mp hl
    have hrest := ih (h.adopt hx) hl
    rw [List.append_assoc] at hrest
    exact hrest

end Inserts

end KernelTree.SymbolTable
