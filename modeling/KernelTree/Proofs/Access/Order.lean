import KernelTree.Proofs.Access.Faults

/-!
# Accepted orders

An attribute is accepted as an order of the axes exactly if its entries count as the axes, each one
once (`Flatten.order_accepts`). An integer counts as itself; a floating-point number loses its
fraction, so it may pass for an axis. An order that is refused is reported once.
-/

namespace KernelTree

/-- The constants of the arguments, read in a certain way, are these numbers. -/
def Attribute.Lists (read : Value → Option ℤ) (a : Attribute) (numbers : List ℕ) : Prop :=
  a.args.map (fun arg => read arg.value.evaluate) = numbers.map fun n : ℕ => some (n : ℤ)

namespace Flatten

variable {count : ℕ} {a : Attribute} {axes : List ℕ}

/-- Integers are read as they are, however they are read. -/
theorem lists_integer?_iff : a.Lists Value.integer? axes ↔
    a.Lists Value.truncated? axes ∧ ∀ arg ∈ a.args, arg.value.evaluate.integer?.isSome := by
  have hread (hall : ∀ arg ∈ a.args, arg.value.evaluate.integer?.isSome) :
      a.args.map (fun arg => arg.value.evaluate.truncated?)
        = a.args.map fun arg => arg.value.evaluate.integer? := by
    refine List.map_congr_left fun arg harg => ?_
    obtain ⟨x, hx⟩ := Option.isSome_iff_exists.mp (hall arg harg)
    rw [hx, Value.truncated?_of_integer? hx]
  constructor
  · intro h
    have hall : ∀ arg ∈ a.args, arg.value.evaluate.integer?.isSome := by
      intro arg harg
      have hmem : arg.value.evaluate.integer? ∈ axes.map fun n : ℕ => some (n : ℤ) :=
        h ▸ List.mem_map_of_mem harg
      obtain ⟨n, -, hn⟩ := List.mem_map.mp hmem
      rw [← hn]
      rfl
    exact ⟨(hread hall).trans h, hall⟩
  · rintro ⟨h, hall⟩
    exact (hread hall).symm.trans h

/-- A call with as many arguments as there are axes is flattened in the order that the attribute
gives, or is at fault for what is wrong with that order. -/
theorem visit_of_order {t : SymbolTable} {id : VarId} {args : List Expr} {dim : Attribute}
    (scope : ScopeId) (l place : Location) (d : Diagnostics)
    (hdim : (t.var id).attributes.find? dimName = some dim) (hcount : dim.args.length = count)
    (hlength : args.length = count) (hpos : 0 < count)
    (horder : (t.var id).attributes.find? orderName = some a) :
    visit t scope (.call (.ofVar id l) args place) d
      = match order count a with
        | .ok axes =>
          let pairs := args.zip (dim.args.map Argument.value)
          (.ok (.replace (t.resolve scope
            (.subscript (.ofVar id l) (index place (axes.filterMap (pairs[·]?))) place))), d)
        | .error f => (.error f, d.report f) := by
  subst hcount
  have hextra : args[dim.args.length]? = none := List.getElem?_eq_none (by omega)
  simp only [visit, Expr.ofVar, call?, hdim, hextra, orderOf, horder]
  rw [if_neg (by omega), if_neg (by omega)]
  cases order dim.args.length a <;> rfl

/-- **An order is accepted exactly if its entries count as the axes, each one once.** It is then the
entries as they stand. An accepted order all of whose entries are integers is a permutation written
down in integers, and every such permutation is accepted; what else is accepted has an entry with a
fraction that is ignored. A call that asks for the order is flattened in silence if the order is
accepted; if not, one error is added to the diagnostics, in the words and at the place of the
fault. -/
theorem order_accepts (count : ℕ) (a : Attribute) :
    (∀ axes, order count a = .ok axes ↔
      a.args.length = count ∧ axes.Perm (List.range count) ∧ a.Lists Value.truncated? axes) ∧
    (∀ axes, (order count a = .ok axes ∧ ∀ arg ∈ a.args, arg.value.evaluate.integer?.isSome) ↔
      a.args.length = count ∧ axes.Perm (List.range count) ∧ a.Lists Value.integer? axes) ∧
    ∀ (t : SymbolTable) (scope : ScopeId) (id : VarId) (args : List Expr) (l place : Location)
      (d : Diagnostics) (dim : Attribute), (t.var id).attributes.find? dimName = some dim →
      dim.args.length = count → args.length = count → 0 < count →
      (t.var id).attributes.find? orderName = some a →
      (∀ axes, order count a = .ok axes → ∃ flat,
        visit t scope (.call (.ofVar id l) args place) d = (.ok (.replace flat), d)) ∧
      ∀ f, order count a = .error f →
        visit t scope (.call (.ofVar id l) args place) d = (.error f,
          { d with entries := d.entries ++ [⟨.error, f.fault.message, f.location⟩] }) := by
  refine ⟨fun axes => order_eq_ok_iff, fun axes => ?_, ?_⟩
  · rw [order_eq_ok_iff, lists_integer?_iff, ← and_assoc, ← and_assoc, ← and_assoc]
    exact Iff.rfl
  · intro t scope id args l place d dim hdim hcount hlength hpos horder
    have hvisit := visit_of_order scope l place d hdim hcount hlength hpos horder
    refine ⟨fun axes haxes => ?_, fun f hf => ?_⟩
    · rw [haxes] at hvisit
      exact ⟨_, hvisit⟩
    · rw [hf] at hvisit
      exact hvisit

/-- The order of the variable `A` with `@dimOrder(1, 0)`, and a call that asks for it. -/
theorem order_accepts_swappedAxes :
    (sampleTable.var ⟨0⟩).attributes.find? orderName
        = some (sampleAttribute orderName [numeral 1, numeral 0]) ∧
      order 2 (sampleAttribute orderName [numeral 1, numeral 0]) = .ok [1, 0] ∧
      ∃ flat, visit sampleTable .global (.call (.ofVar ⟨0⟩ .none) [numeral 5, numeral 6] .none)
        (.empty none) = (.ok (.replace flat), .empty none) := by
  obtain ⟨-, haccepts, hvisit⟩ :=
    order_accepts 2 (sampleAttribute orderName [numeral 1, numeral 0])
  have horder := ((haccepts [1, 0]).mpr ⟨rfl, List.Perm.swap 0 1 [], rfl⟩).1
  exact ⟨rfl, horder, (hvisit sampleTable .global ⟨0⟩ [numeral 5, numeral 6] .none .none
    (.empty none) _ rfl rfl rfl (by decide) rfl).1 _ horder⟩

/-- `@dimOrder(1.5, 0)` is accepted, although one and a half is no integer. -/
theorem fractionalOrder_accepted :
    order 2 (sampleAttribute orderName [.ofValue (.double 1.5) .none, numeral 0]) = .ok [1, 0] ∧
      (Value.double 1.5).integer? = none := by
  refine ⟨order_eq_ok_iff.mpr ⟨rfl, List.Perm.swap 0 1 [], ?_⟩, rfl⟩
  decide

end Flatten

end KernelTree
