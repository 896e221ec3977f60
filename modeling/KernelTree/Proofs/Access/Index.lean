import KernelTree.Access.Flatten
import KernelTree.Proofs.Access.Radix
import KernelTree.Proofs.Expr.Relabel
import KernelTree.Proofs.Value.Integer

/-!
# The index of a flattened call

A call of a variable with axes becomes a subscript whose index is the cell of the arguments, under
every reading of expressions as integers in which sums and products are exact
(`Flatten.visit_call_offset`). The order of the axes is a permutation whether it is given by an
attribute or not (`Flatten.exists_perm_of_orderOf`).
-/

namespace KernelTree

/-- A meaning of expressions as integers: sums and products are exact, and brackets change
nothing. -/
structure Valuation where
  value : Expr → ℤ
  add (a b : Expr) (l : Location) : value (.binary (.binary .add) a b l) = value a + value b
  mul (a b : Expr) (l : Location) : value (.binary (.binary .mul) a b l) = value a * value b
  parens (e : Expr) (l : Location) : value (.parens e l) = value e

namespace Valuation

variable (v : Valuation)

@[simp] theorem value_mkBinary_add (a b : Expr) :
    v.value (.mkBinary .add a b) = v.value a + v.value b := v.add a b _

@[simp] theorem value_mkBinary_mul (a b : Expr) :
    v.value (.mkBinary .mul a b) = v.value a * v.value b := v.mul a b _

@[simp] theorem value_parens (e : Expr) : v.value e.mkParens = v.value e := v.parens e _

@[simp] theorem value_wrap (e : Expr) : v.value e.wrapped = v.value e := by
  unfold Expr.wrapped
  split <;> simp

/-- The meaning that an expression has once its names are resolved in a scope. -/
def resolved (t : SymbolTable) (scope : ScopeId) : Valuation where
  value e := v.value (t.resolve scope e)
  add a b l := by
    simp only [SymbolTable.resolve, Expr.mapAtoms_binary]
    exact v.add _ _ l
  mul a b l := by
    simp only [SymbolTable.resolve, Expr.mapAtoms_binary]
    exact v.mul _ _ l
  parens e l := by
    simp only [SymbolTable.resolve, Expr.mapAtoms_parens]
    exact v.parens _ l

end Valuation

namespace Flatten

open Finset

/-! ### The order of the axes -/

theorem axis?_eq_some_iff {count axis : ℕ} {seen : List ℕ} {x : Int64} :
    axis? count seen x = some axis ↔ x.toInt = axis ∧ axis < count ∧ axis ∉ seen := by
  unfold axis?
  constructor
  · intro h
    split at h
    case isTrue hx =>
      obtain rfl := Option.some.inj h
      exact ⟨by omega, by omega, hx.2.2⟩
    · cases h
  · rintro ⟨hx, hlt, hnew⟩
    have hnat : x.toInt.toNat = axis := by omega
    rw [hnat, if_pos ⟨by omega, by omega, hnew⟩]

section

variable {count : ℕ} {place : Location} {seen named : List ℕ}

/-- The first expression names an axis that is not taken, and the others go on from there. -/
theorem axes_cons_eq_ok_iff {e : Expr} {es : List Expr} :
    axes count place seen (e :: es) = .ok named ↔ ∃ axis rest, named = axis :: rest ∧
      e.evaluate.truncated? = some (axis : ℤ) ∧ axis < count ∧ axis ∉ seen ∧
        axes count place (axis :: seen) es = .ok rest := by
  constructor
  · intro h
    unfold axes at h
    split at h
    · cases h
    case h_2 x hx =>
      split at h
      · cases h
      case h_2 axis haxis =>
        obtain ⟨hint, hlt, hnew⟩ := axis?_eq_some_iff.mp haxis
        have hnamed : e.evaluate.truncated? = some (axis : ℤ) := by
          rw [← Value.map_toInt64?, hx, Option.map_some, hint]
        cases hrest : axes count place (axis :: seen) es with
        | error f =>
          rw [hrest] at h
          cases h
        | ok rest =>
          rw [hrest] at h
          exact ⟨axis, rest, (Except.ok.inj h).symm, hnamed, hlt, hnew, hrest⟩
  · rintro ⟨axis, rest, rfl, hnamed, hlt, hnew, hrest⟩
    rw [← Value.map_toInt64?] at hnamed
    obtain ⟨x, hx, hint⟩ := Option.map_eq_some_iff.mp hnamed
    simp only [axes, hx, axis?_eq_some_iff.mpr ⟨hint, hlt, hnew⟩, hrest]
    rfl

/-- Expressions name axes if their constants count as the numbers of axes that there are, of which
none is named twice. -/
theorem axes_eq_ok_iff {es : List Expr} : axes count place seen es = .ok named ↔
    es.map (fun e => e.evaluate.truncated?) = named.map (fun axis : ℕ => some (axis : ℤ)) ∧
      named.Nodup ∧ ∀ axis ∈ named, axis < count ∧ axis ∉ seen := by
  induction es generalizing seen named with
  | nil =>
    constructor
    · intro h
      obtain rfl := Except.ok.inj h
      simp
    · rintro ⟨h, -, -⟩
      obtain rfl := List.map_eq_nil_iff.mp h.symm
      rfl
  | cons e es ih =>
    rw [axes_cons_eq_ok_iff]
    constructor
    · rintro ⟨axis, rest, rfl, hone, hlt, hnew, hrest⟩
      obtain ⟨hnamed, hnodup, hmem⟩ := ih.mp hrest
      refine ⟨?_, ?_, List.forall_mem_cons.mpr ⟨⟨hlt, hnew⟩, fun axis' hin => ?_⟩⟩
      · rw [List.map_cons, List.map_cons, hone, hnamed]
      · exact List.nodup_cons.mpr ⟨fun hin => (hmem axis hin).2 List.mem_cons_self, hnodup⟩
      · exact ⟨(hmem axis' hin).1, fun hseen => (hmem axis' hin).2 (List.mem_cons_of_mem _ hseen)⟩
    · rintro ⟨hnamed, hnodup, hmem⟩
      cases named with
      | nil => cases hnamed
      | cons axis rest =>
        obtain ⟨hone, hnamed⟩ := List.cons.inj hnamed
        obtain ⟨haxis, hmem⟩ := List.forall_mem_cons.mp hmem
        obtain ⟨hnot, hnodup⟩ := List.nodup_cons.mp hnodup
        refine ⟨axis, rest, rfl, hone, haxis.1, haxis.2, ih.mpr ⟨hnamed, hnodup, ?_⟩⟩
        intro axis' hin
        refine ⟨(hmem axis' hin).1, fun hseen => ?_⟩
        rcases List.mem_cons.mp hseen with rfl | hseen
        · exact hnot hin
        · exact (hmem axis' hin).2 hseen

/-- The attribute gives an order if it names every axis once. -/
theorem order_eq_ok_iff {a : Attribute} {axes : List ℕ} :
    order count a = .ok axes ↔
      a.args.length = count ∧ axes.Perm (List.range count) ∧
        a.args.map (fun arg => arg.value.evaluate.truncated?)
          = axes.map fun axis : ℕ => some (axis : ℤ) := by
  have hvalues : (a.args.map Argument.value).map (fun e => e.evaluate.truncated?)
      = a.args.map fun arg => arg.value.evaluate.truncated? := List.map_map
  constructor
  · intro h
    unfold order at h
    split at h
    · cases h
    · split at h
      · cases h
      · obtain ⟨hnamed, hnodup, hmem⟩ := axes_eq_ok_iff.mp h
        rw [hvalues] at hnamed
        have hlength : a.args.length = axes.length := by simpa using congrArg List.length hnamed
        -- As many axes as there are, none twice: they are all of them.
        refine ⟨by omega, (List.subperm_of_subset hnodup ?_).perm_of_length_le ?_, hnamed⟩
        · exact fun axis hin => List.mem_range.mpr (hmem axis hin).1
        · rw [List.length_range]
          omega
  · rintro ⟨hlength, hperm, hnamed⟩
    unfold order
    rw [if_neg (by omega), if_neg (by omega), axes_eq_ok_iff, hvalues]
    refine ⟨hnamed, hperm.nodup_iff.mpr List.nodup_range, fun axis hin => ⟨?_, List.not_mem_nil⟩⟩
    exact List.mem_range.mp (hperm.mem_iff.mp hin)

/-- An order that an attribute gives names every axis once. -/
theorem perm_of_order {a : Attribute} {axes : List ℕ} (h : order count a = .ok axes) :
    axes.Perm (List.range count) := (order_eq_ok_iff.mp h).2.1

end

theorem exists_ofFn_of_perm {n : ℕ} {axes : List ℕ} (h : axes.Perm (List.range n)) :
    ∃ p : Equiv.Perm (Fin n), axes = List.ofFn fun j => (p j : ℕ) := by
  have hlength : axes.length = n := by simpa using h.length_eq
  have hlt : ∀ j : Fin n, axes[(j : ℕ)] < n := by
    intro j
    exact List.mem_range.mp (h.mem_iff.mp (List.getElem_mem _))
  have hinj : Function.Injective fun j : Fin n => (⟨axes[(j : ℕ)], hlt j⟩ : Fin n) := by
    intro j j' heq
    have hnodup : axes.Nodup := h.nodup_iff.mpr List.nodup_range
    exact Fin.ext ((hnodup.getElem_inj_iff).mp (congrArg Fin.val heq))
  refine ⟨Equiv.ofBijective _ (Finite.injective_iff_bijective.mp hinj), ?_⟩
  apply List.ext_getElem
  · simp [hlength]
  · intro i _ _
    simp

/-- The order of the axes of a variable is a permutation, and the identity where none is given. -/
theorem exists_perm_of_orderOf {v : VariableDef} {n : ℕ} {axes : List ℕ}
    (h : orderOf v n = .ok axes) :
    ∃ p : Equiv.Perm (Fin n), (axes = List.ofFn fun j => (p j : ℕ)) ∧
      (v.attributes.find? orderName = none → p = .refl _) := by
  unfold orderOf at h
  split at h
  case h_1 a ha =>
    obtain ⟨p, hp⟩ := exists_ofFn_of_perm (perm_of_order h)
    refine ⟨p, hp, fun hnone => ?_⟩
    rw [ha] at hnone
    cases hnone
  case h_2 =>
    obtain rfl := Except.ok.inj h
    refine ⟨.refl _, ?_, fun _ => rfl⟩
    apply List.ext_getElem <;> simp

/-! ### The value of the index -/

variable {n : ℕ}

/-- The index is the cell of the indices, the axes in the order in which they are listed. -/
theorem value_index (v : Valuation) (place : Location) (hn : 1 ≤ n) (pairs : Fin n → Expr × Expr) :
    v.value (index place (List.ofFn pairs))
      = offset (.refl _) (fun j => v.value (pairs j).2) (fun j => v.value (pairs j).1) := by
  induction n, hn using Nat.le_induction with
  | base =>
    rw [offset_succ]
    simp [List.ofFn_succ, index, offset]
  | succ n hn ih =>
    obtain ⟨n, rfl⟩ : ∃ k, n = k + 1 := ⟨n - 1, by omega⟩
    rw [offset_succ, List.ofFn_succ]
    have hcons : index place (pairs 0 :: List.ofFn fun j => pairs j.succ)
        = .mkBinary .add (pairs 0).1.wrapped (Expr.mkBinary .mul (pairs 0).2.wrapped
            (index place (List.ofFn fun j => pairs j.succ)).wrapped).mkParens := by
      rw [List.ofFn_succ]
      rfl
    rw [hcons]
    simp only [Valuation.value_mkBinary_add, Valuation.value_mkBinary_mul,
      Valuation.value_parens, Valuation.value_wrap, ih]
    rfl

/-- The pairs of an index and its extent, picked in the order of the axes. -/
theorem filterMap_pairs (p : Equiv.Perm (Fin n)) (indices extents : Fin n → Expr) :
    (List.ofFn fun j => (p j : ℕ)).filterMap
        (((List.ofFn indices).zip (List.ofFn extents))[·]?)
      = List.ofFn fun j => (indices (p j), extents (p j)) := by
  have hpair : ∀ k : Fin n, ((List.ofFn indices).zip (List.ofFn extents))[(k : ℕ)]?
      = some (indices k, extents k) := by
    intro k
    rw [List.getElem?_eq_getElem (by simp)]
    simp
  have hmap : (List.ofFn fun j => (p j : ℕ)) = (List.ofFn p).map Fin.val :=
    List.map_ofFn.symm
  have hpick : (((List.ofFn indices).zip (List.ofFn extents))[·]?) ∘ Fin.val
      = some ∘ fun k : Fin n => (indices k, extents k) := funext hpair
  rw [hmap, List.filterMap_map, hpick, List.filterMap_eq_map, List.map_ofFn]
  rfl

/-! ### Flattened calls -/

theorem resolve_subscript (t : SymbolTable) (scope : ScopeId) (id : VarId) (l place : Location)
    (e : Expr) : t.resolve scope (.subscript (.ofVar id l) e place)
      = .subscript (.ofVar id l) (t.resolve scope e) place := by
  simp [SymbolTable.resolve, Expr.ofVar, SymbolTable.resolveAtom]

variable (t : SymbolTable) (scope : ScopeId) (id : VarId) (indices extents : Fin n → Expr)
  {dim : Attribute} {axes : List ℕ}

/-- What becomes of a call with as many arguments as the variable has axes. -/
theorem visit_call (l place : Location) (d : Diagnostics) (p : Equiv.Perm (Fin n)) (hn : 1 ≤ n)
    (hdim : (t.var id).attributes.find? dimName = some dim)
    (hextents : dim.args.map Argument.value = List.ofFn extents)
    (horder : orderOf (t.var id) n = .ok (List.ofFn fun j => (p j : ℕ))) :
    visit t scope (.call (.ofVar id l) (List.ofFn indices) place) d
      = (.ok (.replace (.subscript (.ofVar id l)
          (t.resolve scope (index place (List.ofFn fun j => (indices (p j), extents (p j)))))
          place)), d) := by
  have hcount : dim.args.length = n := by
    rw [← List.length_map Argument.value, hextents, List.length_ofFn]
  have hnone : (List.ofFn indices)[n]? = none := by simp
  have hlength : ¬ (List.ofFn indices).length < n := by simp
  have hpos : n ≠ 0 := by omega
  have hcall : call? t scope (.ofVar id l) id (List.ofFn indices) place
      = .ok (some (.subscript (.ofVar id l)
          (t.resolve scope (index place (List.ofFn fun j => (indices (p j), extents (p j)))))
          place)) := by
    simp only [call?, hdim, hcount, hnone, hlength, hpos, if_false, horder, hextents, bind,
      Except.bind, pure, Except.pure]
    rw [filterMap_pairs, resolve_subscript]
  simp only [visit, Expr.ofVar] at hcall ⊢
  rw [hcall]

/-- A list is a family over its positions. -/
theorem exists_ofFn {es : List Expr} (h : es.length = n) :
    ∃ f : Fin n → Expr, es = List.ofFn f := by
  subst h
  exact ⟨fun k => es[(k : ℕ)], by simp⟩

variable {t scope id} in
/-- Only calls with as many arguments as the variable has axes are flattened, and only if the order
of the axes is one. -/
theorem exists_axes_of_call? {callee flat : Expr} {args : List Expr} {place : Location}
    (h : call? t scope callee id args place = .ok (some flat)) :
    ∃ dim axes, (t.var id).attributes.find? dimName = some dim ∧
      dim.args.length = args.length ∧ 1 ≤ args.length ∧
      orderOf (t.var id) args.length = .ok axes := by
  unfold call? at h
  cases hdim : (t.var id).attributes.find? dimName with
  | none =>
    rw [hdim] at h
    cases h
  | some dim =>
    simp only [hdim] at h
    split at h
    · cases h
    case h_2 hnone =>
      have hle : args.length ≤ dim.args.length := by simpa using hnone
      by_cases hlt : args.length < dim.args.length
      · rw [if_pos hlt] at h
        cases h
      · have hlength : dim.args.length = args.length := by omega
        rw [if_neg hlt] at h
        by_cases hzero : dim.args.length = 0
        · rw [if_pos hzero] at h
          cases h
        · rw [if_neg hzero, hlength] at h
          cases horder : orderOf (t.var id) args.length with
          | error f =>
            rw [horder] at h
            cases h
          | ok axes => exact ⟨dim, axes, rfl, hlength, by omega, rfl⟩

variable {t scope} in
/-- What a flattened call looked like, and what it has become. -/
theorem visit_replace {e flat : Expr} {d d' : Diagnostics}
    (h : visit t scope e d = (.ok (.replace flat), d')) :
    ∃ (n : ℕ) (id : VarId) (l place : Location) (dim : Attribute) (indices extents : Fin n → Expr)
      (p : Equiv.Perm (Fin n)), 1 ≤ n ∧ e = .call (.ofVar id l) (List.ofFn indices) place ∧
      (t.var id).attributes.find? dimName = some dim ∧
      dim.args.map Argument.value = List.ofFn extents ∧
      flat = .subscript (.ofVar id l)
        (t.resolve scope (index place (List.ofFn fun j => (indices (p j), extents (p j)))))
        place := by
  have hvisit := h
  unfold visit at h
  split at h
  case h_1 callee args place =>
    split at h
    case h_1 id l =>
      split at h
      · cases h
      case h_2 hcall =>
        obtain ⟨dim, axes, hdim, hlength, hpos, horder⟩ := exists_axes_of_call? hcall
        -- The arguments are a family over the axes once their number has a name.
        obtain ⟨n, hn⟩ : ∃ n, args.length = n := ⟨_, rfl⟩
        rw [hn] at hlength hpos horder
        obtain ⟨p, rfl, -⟩ := exists_perm_of_orderOf horder
        obtain ⟨indices, rfl⟩ := exists_ofFn hn
        obtain ⟨extents, hextents⟩ := exists_ofFn
          ((List.length_map _).trans hlength)
        have hflat := visit_call t scope id indices extents l place d p hpos hdim hextents horder
        obtain ⟨rfl, -⟩ : flat = _ ∧ d' = d := by simpa using hvisit.symm.trans hflat
        exact ⟨n, id, l, place, dim, indices, extents, p, hpos, rfl, hdim, hextents, rfl⟩
      · cases h
    · cases h
  · cases h

/-- **Flattening gives every tuple of arguments a cell of its own.** The order of the axes is a
permutation, the index that stands in the place of the arguments is the cell of the arguments in
that order, and for any extents that are not empty the tuples within them are just the cells of an
array with as many cells as the product of the extents. -/
theorem visit_call_offset (l place : Location) (d : Diagnostics) (hn : 1 ≤ n)
    (hdim : (t.var id).attributes.find? dimName = some dim)
    (hextents : dim.args.map Argument.value = List.ofFn extents)
    (horder : orderOf (t.var id) n = .ok axes) :
    ∃ (p : Equiv.Perm (Fin n)) (flat : Expr),
      (axes = List.ofFn fun j => (p j : ℕ)) ∧
      ((t.var id).attributes.find? orderName = none → p = .refl _) ∧
      visit t scope (.call (.ofVar id l) (List.ofFn indices) place) d
        = (.ok (.replace (.subscript (.ofVar id l) flat place)), d) ∧
      (∀ v : Valuation, v.value flat
        = ∑ j, v.value (t.resolve scope (indices (p j)))
            * ∏ m ∈ Iio j, v.value (t.resolve scope (extents (p m)))) ∧
      ∀ e : Fin n → ℤ, (∀ k, 1 ≤ e k) →
        Set.BijOn (fun i : Fin n → ℤ => ∑ j, i (p j) * ∏ m ∈ Iio j, e (p m))
          {i | ∀ k, 0 ≤ i k ∧ i k < e k} (Set.Ico 0 (∏ k, e k)) := by
  obtain ⟨p, rfl, hidentity⟩ := exists_perm_of_orderOf horder
  refine ⟨p, _, rfl, hidentity,
    visit_call t scope id indices extents l place d p hn hdim hextents horder, ?_, ?_⟩
  · intro v
    exact value_index (v.resolved t scope) place hn fun j => (indices (p j), extents (p j))
  · intro e he
    exact bijOn_offset p he

/-- Numerals are what they say, the second variable is three and everything else is zero. -/
def sampleValue : Expr → ℤ
  | .atom (.value (.int x)) _ => x.toInt
  | .atom (.variable id) _ => if id = ⟨1⟩ then 3 else 0
  | .parens e _ => sampleValue e
  | .binary (.binary .add) a b _ => sampleValue a + sampleValue b
  | .binary (.binary .mul) a b _ => sampleValue a * sampleValue b
  | _ => 0

/-- The same as a valuation. -/
def sampleValuation : Valuation where
  value := sampleValue
  add _ _ _ := rfl
  mul _ _ _ := rfl
  parens _ _ := rfl

/-- A numeral, placed nowhere. -/
def numeral (x : Int32) : Expr := .ofValue (.int x) .none

/-- An attribute with arguments that are values only. -/
def sampleAttribute (name : String) (args : List Expr) : Attribute :=
  ⟨name, args.map fun e => ⟨e, []⟩, [], .none⟩

/-- The variable `A` with `@dim(2, W)` and `@dimOrder(1, 0)`, and the variable `W`. -/
def sampleTable : SymbolTable :=
  let dim := sampleAttribute dimName [numeral 2, .atom (.identifier "W") .none]
  let order := sampleAttribute orderName [numeral 1, numeral 0]
  let t := (SymbolTable.initial.addVariable .global ⟨"A", .plain ⟨6⟩, [dim, order], .none⟩).2
  (t.addVariable .global ⟨"W", .plain ⟨4⟩, [], .none⟩).2

/-- `A(1, 2)` becomes `A[2 + (W * 1)]`, which is the cell five where `W` is three. -/
theorem visit_swappedAxes :
    orderOf (sampleTable.var ⟨0⟩) 2 = .ok [1, 0] ∧ ∃ flat,
      visit sampleTable .global (.call (.ofVar ⟨0⟩ .none) [numeral 1, numeral 2] .none)
          (.empty none)
        = (.ok (.replace (.subscript (.ofVar ⟨0⟩ .none) flat .none)), .empty none) ∧
      sampleValuation.value flat = 5 := by
  have horder : orderOf (sampleTable.var ⟨0⟩) 2 = .ok [1, 0] := rfl
  obtain ⟨p, flat, hp, -, hvisit, hvalue, -⟩ :=
    visit_call_offset sampleTable .global ⟨0⟩ ![numeral 1, numeral 2]
      ![numeral 2, .atom (.identifier "W") .none] .none .none (.empty none) (by decide) rfl rfl
      horder
  have hfast : p 0 = 1 := Fin.ext (List.cons.inj hp).1.symm
  have hslow : p 1 = 0 := Fin.ext (List.cons.inj (List.cons.inj hp).2).1.symm
  have hfirst : Iio (0 : Fin 2) = ∅ := by decide
  have hsecond : Iio (1 : Fin 2) = {0} := by decide
  have hwidth : sampleTable.lookup .global "W" = some (.variable ⟨1⟩) := by decide
  refine ⟨horder, flat, hvisit, ?_⟩
  rw [hvalue, Fin.sum_univ_two, hfirst, hsecond, prod_empty, prod_singleton, hfast, hslow]
  simp [SymbolTable.resolve, SymbolTable.resolveAtom, numeral, Expr.ofValue, hwidth,
    Atom.ofSymbol, sampleValuation, sampleValue]

end Flatten

end KernelTree
