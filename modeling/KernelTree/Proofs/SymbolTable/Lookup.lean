import KernelTree.Proofs.SymbolTable.Chain

/-!
# What names mean after the table was written to

The search for a name goes on from a scope that does not declare it to the scope around that one
(`SymbolTable.PassesOn`). It is cut off after as many scopes as there are, but this hides nothing,
not even where parents run in a circle: a name means a symbol exactly if the search arrives at a
scope that says so (`SymbolTable.lookup_eq_some_iff`). Hence a declaration is seen exactly from
where the search for its name arrives at it, and no other meaning changes
(`SymbolTable.lookup_writing`).
-/

namespace KernelTree.SymbolTable

open Relation

variable {t t' : SymbolTable} {s p x y z : ScopeId} {name : String} {symbol : Symbol}

/-! ### The way of a search -/

/-- The search for a name goes on from a scope that does not declare it to the scope around. -/
def PassesOn (t : SymbolTable) (name : String) (x y : ScopeId) : Prop :=
  t.lookupLocal x name = none ∧ t.Inside x y

/-- The scope `y` is `x` or lies around it, and no scope before `y` declares the name. -/
def Arrives (t : SymbolTable) (name : String) (x y : ScopeId) : Prop :=
  ReflTransGen (t.PassesOn name) x y

theorem has_of_lookupLocal (h : t.lookupLocal x name = some symbol) : t.Has x := by
  by_contra hx
  rw [lookupLocal, Array.getElem?_eq_none (Nat.le_of_not_lt hx)] at h
  cases h

theorem PassesOn.unique (h : t.PassesOn name x y) (h' : t.PassesOn name x z) : y = z :=
  Option.some.inj (h.2.symm.trans h'.2)

theorem Arrives.has (h : t.Arrives name x y) (hy : t.lookupLocal y name = some symbol) :
    t.Has x := by
  obtain rfl | ⟨z, hpass, -⟩ := ReflTransGen.cases_head h
  · exact has_of_lookupLocal hy
  · exact has_of_parent? hpass.2

/-- A search that ends at a declaration does not come through a circle. -/
theorem Arrives.not_circle (h : t.Arrives name x y) (hy : t.lookupLocal y name = some symbol) :
    ¬ TransGen (t.PassesOn name) x x := by
  induction h using ReflTransGen.head_induction_on with
  | refl =>
    intro hcircle
    obtain ⟨z, hpass, -⟩ := TransGen.head'_iff.mp hcircle
    rw [hpass.1] at hy
    cases hy
  | head hpass _ ih =>
    -- There is one way out of a scope, so the next scope would lie on the circle too.
    intro hcircle
    obtain ⟨z, hpass', hback⟩ := TransGen.head'_iff.mp hcircle
    obtain rfl := hpass.unique hpass'
    exact ih (.tail' hback hpass)

/-- The declaration at which a search ends is on a chain that is long enough. -/
theorem Arrives.findSome?_chainUpTo (h : t.Arrives name x y)
    (hy : t.lookupLocal y name = some symbol) {count : ℕ}
    (hcount : t.behind (t.PassesOn name) x < count) :
    (t.chainUpTo count x).findSome? (fun z => t.lookupLocal z name) = some symbol := by
  induction h using ReflTransGen.head_induction_on generalizing count with
  | refl =>
    obtain ⟨count, rfl⟩ : ∃ k, count = k + 1 := ⟨count - 1, by omega⟩
    rw [chainUpTo, List.findSome?_cons, hy]
  | @head x z hpass hrest ih =>
    obtain ⟨count, rfl⟩ : ∃ k, count = k + 1 := ⟨count - 1, by omega⟩
    have hrest : t.Arrives name z y := hrest
    have hlt := behind_lt (hrest.has hy) (hrest.not_circle hy) hpass
    obtain ⟨hlocal, hparent⟩ := hpass
    rw [chainUpTo, List.findSome?_cons, hlocal, hparent]
    exact ih (by omega)

theorem exists_arrives_of_findSome? {count : ℕ}
    (h : (t.chainUpTo count x).findSome? (fun z => t.lookupLocal z name) = some symbol) :
    ∃ y, t.Arrives name x y ∧ t.lookupLocal y name = some symbol := by
  induction count generalizing x with
  | zero => cases h
  | succ count ih =>
    rw [chainUpTo, List.findSome?_cons] at h
    cases hlocal : t.lookupLocal x name with
    | some symbol' =>
      rw [hlocal] at h
      obtain rfl := Option.some.inj h
      exact ⟨x, .refl, hlocal⟩
    | none =>
      rw [hlocal] at h
      cases hparent : t.parent? x with
      | none =>
        rw [hparent] at h
        cases h
      | some z =>
        rw [hparent] at h
        obtain ⟨y, hz, hy⟩ := ih h
        exact ⟨y, .head ⟨hlocal, hparent⟩ hz, hy⟩

/-- A name means what a scope says at which the search for it arrives. -/
theorem lookup_eq_some_iff :
    t.lookup x name = some symbol ↔
      ∃ y, t.Arrives name x y ∧ t.lookupLocal y name = some symbol := by
  constructor
  · exact exists_arrives_of_findSome?
  · rintro ⟨y, hx, hy⟩
    exact hx.findSome?_chainUpTo hy (behind_lt_size (hx.has hy) (hx.not_circle hy))

/-- A scope that does not declare a name leaves its meaning to the scope around. -/
theorem PassesOn.lookup_eq (h : t.PassesOn name x y) : t.lookup x name = t.lookup y name := by
  refine Option.ext fun symbol => ?_
  rw [lookup_eq_some_iff, lookup_eq_some_iff]
  constructor
  · rintro ⟨z, hx, hz⟩
    obtain rfl | ⟨y', hpass, hy⟩ := ReflTransGen.cases_head hx
    · rw [h.1] at hz
      cases hz
    · obtain rfl := h.unique hpass
      exact ⟨z, hy, hz⟩
  · rintro ⟨z, hy, hz⟩
    exact ⟨z, .head h hy, hz⟩

/-! ### Tables that agree -/

theorem Arrives.of_agree (hxy : t.Arrives name x y)
    (h : ∀ z, t.Arrives name x z →
      t'.parent? z = t.parent? z ∧ t'.lookupLocal z name = t.lookupLocal z name) :
    t'.Arrives name x y := by
  induction hxy with
  | refl => exact .refl
  | @tail z y hz hpass ih =>
    obtain ⟨hparent, hlocal⟩ := h z hz
    exact ih.tail ⟨hlocal.trans hpass.1, hparent.trans hpass.2⟩

/-- Only the scopes at which the search arrives matter to a name. -/
theorem lookup_congr (h : ∀ z, t.Arrives name x z →
      t'.parent? z = t.parent? z ∧ t'.lookupLocal z name = t.lookupLocal z name) :
    t'.lookup x name = t.lookup x name := by
  have hback : ∀ z, t'.Arrives name x z → t.Arrives name x z := by
    intro z hz
    induction hz with
    | refl => exact .refl
    | @tail z y _ hpass ih =>
      obtain ⟨hparent, hlocal⟩ := h z ih
      exact ih.tail ⟨hlocal.symm.trans hpass.1, hparent.symm.trans hpass.2⟩
  refine Option.ext fun symbol => ?_
  rw [lookup_eq_some_iff, lookup_eq_some_iff]
  constructor
  · rintro ⟨y, hx, hy⟩
    exact ⟨y, hback y hx, (h y (hback y hx)).2.symm.trans hy⟩
  · rintro ⟨y, hx, hy⟩
    exact ⟨y, hx.of_agree h, (h y hx).2.trans hy⟩

/-! ### Declarations -/

theorem lookupLocal_declare_self (hs : t.Has s) (name : String) (symbol : Symbol) :
    (t.declare s name symbol).lookupLocal s name = some symbol := by
  have hfind := ByName.find?_insert_self Prod.fst (name, symbol) t.scopes[s.index].names
  simp only [lookupLocal, declare, Array.getElem?_modify, if_true, Array.getElem?_eq_getElem hs,
    Option.map_some, Option.bind_some, hfind]

/-- The search for a name that was declared somewhere still arrives there. -/
theorem Arrives.declare (h : t.Arrives name x s) (symbol : Symbol) :
    (t.declare s name symbol).Arrives name x s := by
  induction h using ReflTransGen.head_induction_on with
  | refl => exact .refl
  | @head x z hpass _ ih =>
    by_cases hx : x = s
    · subst hx
      exact .refl
    · obtain ⟨hlocal, hparent⟩ := hpass
      refine .head ⟨?_, (t.parent?_declare s name symbol x).trans hparent⟩ ih
      rw [lookupLocal_declare_of_ne_scope t hx]
      exact hlocal

theorem lookup_declare_of_arrives (hs : t.Has s) (h : t.Arrives name x s) :
    (t.declare s name symbol).lookup x name = some symbol :=
  lookup_eq_some_iff.mpr ⟨s, h.declare symbol, lookupLocal_declare_self hs name symbol⟩

/-- Other names, and scopes from which the search does not arrive, see nothing of a declaration. -/
theorem lookup_declare_of_not_arrives {name' : String}
    (h : ¬ (name' = name ∧ t.Arrives name x s)) :
    (t.declare s name symbol).lookup x name' = t.lookup x name' := by
  refine lookup_congr fun z hz => ⟨t.parent?_declare s name symbol z, ?_⟩
  by_cases hname : name' = name
  · subst hname
    refine lookupLocal_declare_of_ne_scope t ?_ name' name' symbol
    rintro rfl
    exact h ⟨rfl, hz⟩
  · exact lookupLocal_declare_of_ne t name' (Ne.symm hname) symbol z

/-! ### New scopes -/

theorem Arrives.newScope (h : t.Arrives name x y) (p : ScopeId) :
    (t.newScope p).2.Arrives name x y := by
  induction h with
  | refl => exact .refl
  | tail _ hpass ih =>
    obtain ⟨hlocal, hparent⟩ := hpass
    have hhas := has_of_parent? hparent
    exact ih.tail ⟨(lookupLocal_newScope hhas p name).trans hlocal,
      (parent?_newScope hhas p).trans hparent⟩

theorem has_of_has_newScope (h : (t.newScope p).2.Has x) (hx : x ≠ t.nextScope) : t.Has x := by
  have hlt : x.index < t.scopes.size + 1 := t.size_newScope p ▸ h
  have hne : x.index ≠ t.scopes.size := index_ne hx
  unfold Has
  omega

/-- A search from the parent of the new scope that ends at a declaration is one of the old table:
it does not come back to the parent, as it would behind the new scope. -/
theorem Arrives.of_newScope (hcircle : ¬ TransGen ((t.newScope p).2.PassesOn name) p p)
    (h : (t.newScope p).2.Arrives name p y) : t.Arrives name p y := by
  induction h with
  | refl => exact .refl
  | @tail z y hz hpass ih =>
    by_cases hnew : z = t.nextScope
    · subst hnew
      obtain rfl : y = p := Option.some.inj (hpass.2.symm.trans (t.parent?_newScope_self p))
      exact absurd (.tail' hz hpass) hcircle
    · have hhas := has_of_has_newScope (has_of_parent? hpass.2) hnew
      obtain ⟨hlocal, hparent⟩ := hpass
      refine ih.tail ⟨?_, ?_⟩
      · rw [lookupLocal_newScope hhas] at hlocal
        exact hlocal
      · exact (parent?_newScope hhas p).symm.trans hparent

theorem lookup_newScope_parent (t : SymbolTable) (p : ScopeId) (name : String) :
    (t.newScope p).2.lookup p name = t.lookup p name := by
  refine Option.ext fun symbol => ?_
  rw [lookup_eq_some_iff, lookup_eq_some_iff]
  constructor
  · rintro ⟨y, hpy, hy⟩
    have hnew : y ≠ t.nextScope := by
      rintro rfl
      rw [lookupLocal_newScope_self] at hy
      cases hy
    have hhas := has_of_has_newScope (has_of_lookupLocal hy) hnew
    exact ⟨y, .of_newScope (hpy.not_circle hy) hpy,
      (lookupLocal_newScope hhas p name).symm.trans hy⟩
  · rintro ⟨y, hpy, hy⟩
    exact ⟨y, hpy.newScope p, (lookupLocal_newScope (has_of_lookupLocal hy) p name).trans hy⟩

/-- In a new scope names mean what they mean in the scope around it. -/
theorem lookup_newScope (t : SymbolTable) (p : ScopeId) (name : String) :
    (t.newScope p).2.lookup (t.newScope p).1 name = t.lookup p name := by
  have hpass : (t.newScope p).2.PassesOn name t.nextScope p :=
    ⟨t.lookupLocal_newScope_self p name, t.parent?_newScope_self p⟩
  exact hpass.lookup_eq.trans (t.lookup_newScope_parent p name)

/-- **Writing to the table changes exactly the meanings it should**: a declaration is what its name
means wherever the search for the name arrives at it, and all else means what it meant; a new scope
sees what the scope around it sees, and a copy of a variable is seen nowhere. -/
theorem lookup_writing (t : SymbolTable) :
    (∀ (s : ScopeId) (name : String) (symbol : Symbol), t.Has s → ∀ x : ScopeId,
      (t.Arrives name x s → (t.declare s name symbol).lookup x name = some symbol) ∧
      ∀ name', ¬ (name' = name ∧ t.Arrives name x s) →
        (t.declare s name symbol).lookup x name' = t.lookup x name') ∧
    (∀ (p : ScopeId) (name : String),
      (t.newScope p).2.lookup (t.newScope p).1 name = t.lookup p name) ∧
    ∀ (id : VarId) (copy : String) (x : ScopeId) (name : String),
      (t.cloneVariable id copy).2.lookup x name = t.lookup x name := by
  refine ⟨fun s name symbol hs x => ⟨?_, ?_⟩, t.lookup_newScope, fun id copy x name => ?_⟩
  · exact lookup_declare_of_arrives hs
  · exact fun name' h => lookup_declare_of_not_arrives h
  · exact lookup_congr fun z _ => ⟨rfl, rfl⟩

/-- Two scopes in one another below the outermost one; both declare `a`, the inner one `b` too. -/
def shadowingTable : SymbolTable :=
  ⟨#[⟨"int", .int⟩], #[⟨"a", .plain ⟨0⟩, [], .none⟩], #[],
    #[⟨none, [("int", .type ⟨0⟩)]⟩, ⟨some ⟨0⟩, [("a", .variable ⟨0⟩)]⟩,
      ⟨some ⟨1⟩, [("a", .function ⟨0⟩), ("b", .function ⟨1⟩)]⟩]⟩

/-- A new `int` in the middle is seen from inside and not from outside, and a new `a` is seen in the
middle and not inside, where the other one hides it. -/
theorem lookup_writing_shadowed :
    (shadowingTable.Has ⟨1⟩ ∧ shadowingTable.Arrives "int" ⟨2⟩ ⟨1⟩ ∧
      ¬ shadowingTable.Arrives "int" .global ⟨1⟩ ∧ ¬ shadowingTable.Arrives "a" ⟨2⟩ ⟨1⟩) ∧
    (shadowingTable.declare ⟨1⟩ "int" (.variable ⟨0⟩)).lookup ⟨2⟩ "int" = some (.variable ⟨0⟩) ∧
    (shadowingTable.declare ⟨1⟩ "int" (.variable ⟨0⟩)).lookup .global "int"
      = shadowingTable.lookup .global "int" ∧
    (shadowingTable.declare ⟨1⟩ "a" (.function ⟨2⟩)).lookup ⟨2⟩ "a"
      = shadowingTable.lookup ⟨2⟩ "a" ∧
    (shadowingTable.newScope ⟨2⟩).2.lookup ⟨3⟩ "a" = shadowingTable.lookup ⟨2⟩ "a" := by
  have hhas : shadowingTable.Has ⟨1⟩ := show 1 < 3 by decide
  have hin : shadowingTable.Arrives "int" ⟨2⟩ ⟨1⟩ := .single ⟨by decide, rfl⟩
  have hout : ¬ shadowingTable.Arrives "int" .global ⟨1⟩ := by
    intro h
    obtain heq | ⟨z, hpass, -⟩ := ReflTransGen.cases_head h
    · cases heq
    · cases hpass.2
  have hhidden : ¬ shadowingTable.Arrives "a" ⟨2⟩ ⟨1⟩ := by
    intro h
    obtain heq | ⟨z, hpass, -⟩ := ReflTransGen.cases_head h
    · cases heq
    · cases hpass.1
  obtain ⟨hdeclare, hnew, -⟩ := lookup_writing shadowingTable
  exact ⟨⟨hhas, hin, hout, hhidden⟩, (hdeclare ⟨1⟩ "int" (.variable ⟨0⟩) hhas ⟨2⟩).1 hin,
    (hdeclare ⟨1⟩ "int" (.variable ⟨0⟩) hhas .global).2 "int" fun h => hout h.2,
    (hdeclare ⟨1⟩ "a" (.function ⟨2⟩) hhas ⟨2⟩).2 "a" fun h => hhidden h.2, hnew ⟨2⟩ "a"⟩

end KernelTree.SymbolTable
