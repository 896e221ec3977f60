import Mathlib

/-!
# Cells of an array

A tuple of indices stands for a cell of a flat array. The axes come in some order, and each index
counts as many cells as all faster axes have together (`Flatten.offset`). Every cell of the array
belongs to just one tuple within the extents (`Flatten.bijOn_offset`): the fastest index is the
remainder of the cell by its extent, and the slower ones are a cell of a smaller array.
-/

namespace KernelTree.Flatten

open Finset

variable {n : ℕ}

/-- The cell of a tuple of indices in an array of these extents; `p` orders the axes, the fastest
first. -/
def offset (p : Equiv.Perm (Fin n)) (extents indices : Fin n → ℤ) : ℤ :=
  ∑ j, indices (p j) * ∏ m ∈ Iio j, extents (p m)

/-- The tuples of indices within the extents. -/
def box (extents : Fin n → ℤ) : Set (Fin n → ℤ) := {i | ∀ k, 0 ≤ i k ∧ i k < extents k}

/-! ### The order of the axes -/

/-- Reading the indices in another order keeps them within the extents read in that order. -/
theorem bijOn_reorder (p : Equiv.Perm (Fin n)) (extents : Fin n → ℤ) :
    Set.BijOn (fun i => i ∘ p) (box extents) (box (extents ∘ p)) := by
  refine ⟨?_, ?_, ?_⟩
  · intro i hi k
    exact hi (p k)
  · intro i _ i' _ h
    funext k
    simpa using congrFun h (p.symm k)
  · intro i hi
    refine ⟨i ∘ p.symm, ?_, ?_⟩
    · intro k
      simpa using hi (p.symm k)
    · funext k
      simp

/-! ### One axis after the other -/

theorem prod_Iio_succ (f : Fin (n + 1) → ℤ) (j : Fin n) :
    ∏ m ∈ Iio j.succ, f m = f 0 * ∏ m ∈ Iio j, f m.succ := by
  have hIio : ∀ {k : ℕ} (j : Fin k), Iio j = univ.filter (· < j) := by
    intro k j
    ext m
    simp
  rw [hIio, hIio, prod_filter, prod_filter, Fin.prod_univ_succ]
  simp

/-- The fastest index counts single cells, and the others whole rows of the fastest axis. -/
theorem offset_succ (extents indices : Fin (n + 1) → ℤ) :
    offset (.refl _) extents indices
      = indices 0 + extents 0 * offset (.refl _) (Fin.tail extents) (Fin.tail indices) := by
  have hzero : Iio (0 : Fin (n + 1)) = ∅ := by
    ext m
    simp
  simp only [offset, Equiv.refl_apply, Fin.tail]
  rw [Fin.sum_univ_succ, hzero, prod_empty, mul_one, mul_sum]
  congr 1
  refine sum_congr rfl fun j _ => ?_
  rw [prod_Iio_succ]
  ring

theorem mem_box_succ {extents i : Fin (n + 1) → ℤ} :
    i ∈ box extents ↔ (0 ≤ i 0 ∧ i 0 < extents 0) ∧ Fin.tail i ∈ box (Fin.tail extents) :=
  Fin.forall_fin_succ

/-! ### Cells and tuples -/

/-- The cell of a tuple within the extents is a cell of the array. -/
theorem offset_mem {extents i : Fin n → ℤ} (hi : i ∈ box extents) :
    offset (.refl _) extents i ∈ Set.Ico 0 (∏ k, extents k) := by
  induction n with
  | zero => simp [offset]
  | succ n ih =>
    obtain ⟨⟨hnonneg, hlt⟩, htail⟩ := mem_box_succ.mp hi
    obtain ⟨hrow, hrows⟩ := ih htail
    rw [offset_succ, Fin.prod_univ_succ]
    change _ < ∏ k, Fin.tail extents k at hrows
    change _ ∧ _ < extents 0 * ∏ k, Fin.tail extents k
    constructor <;> nlinarith

/-- Tuples within the extents that share a cell are the same. -/
theorem offset_injOn {extents i i' : Fin n → ℤ} (hi : i ∈ box extents) (hi' : i' ∈ box extents)
    (h : offset (.refl _) extents i = offset (.refl _) extents i') : i = i' := by
  induction n with
  | zero => exact Subsingleton.elim i i'
  | succ n ih =>
    obtain ⟨⟨hnonneg, hlt⟩, htail⟩ := mem_box_succ.mp hi
    obtain ⟨⟨hnonneg', hlt'⟩, htail'⟩ := mem_box_succ.mp hi'
    rw [offset_succ, offset_succ] at h
    -- The fastest index is the remainder of the cell by its extent.
    have hmod := congrArg (· % extents 0) h
    simp only [Int.add_mul_emod_self_left, Int.emod_eq_of_lt hnonneg hlt,
      Int.emod_eq_of_lt hnonneg' hlt'] at hmod
    have hrows : extents 0 * offset (.refl _) (Fin.tail extents) (Fin.tail i)
        = extents 0 * offset (.refl _) (Fin.tail extents) (Fin.tail i') := by omega
    have htails := ih htail htail' (mul_left_cancel₀ (by omega) hrows)
    rw [← Fin.cons_self_tail i, ← Fin.cons_self_tail i', hmod, htails]

/-- Every cell of the array is the cell of a tuple. -/
theorem exists_offset {extents : Fin n → ℤ} (hextents : ∀ k, 1 ≤ extents k) {x : ℤ}
    (hx : x ∈ Set.Ico 0 (∏ k, extents k)) : ∃ i ∈ box extents, offset (.refl _) extents i = x := by
  induction n generalizing x with
  | zero =>
    have hx : x = 0 := by
      simp at hx
      omega
    exact ⟨fun k => k.elim0, fun k => k.elim0, by simp [offset, hx]⟩
  | succ n ih =>
    have hpos : 0 < extents 0 := by
      have := hextents 0
      omega
    rw [Fin.prod_univ_succ] at hx
    have htail : ∀ k, 1 ≤ Fin.tail extents k := fun k => hextents k.succ
    have hlt : x < (∏ k, Fin.tail extents k) * extents 0 := by
      rw [mul_comm]
      exact hx.2
    -- The quotient is a cell of the array without the fastest axis.
    obtain ⟨i, hi, hoffset⟩ :=
      ih htail ⟨Int.ediv_nonneg hx.1 hpos.le, Int.ediv_lt_of_lt_mul hpos hlt⟩
    refine ⟨Fin.cons (x % extents 0) i, mem_box_succ.mpr ⟨?_, ?_⟩, ?_⟩
    · exact ⟨Int.emod_nonneg x hpos.ne', Int.emod_lt_of_pos x hpos⟩
    · rwa [Fin.tail_cons]
    · rw [offset_succ, Fin.cons_zero, Fin.tail_cons, hoffset, Int.emod_add_mul_ediv]

/-- The tuples within the extents are the cells of the array, in whatever order the axes come. -/
theorem bijOn_offset (p : Equiv.Perm (Fin n)) {extents : Fin n → ℤ}
    (hextents : ∀ k, 1 ≤ extents k) :
    Set.BijOn (offset p extents) (box extents) (Set.Ico 0 (∏ k, extents k)) := by
  have hprod : ∏ k, (extents ∘ p) k = ∏ k, extents k := Equiv.prod_comp p extents
  have hcells : Set.BijOn (offset (.refl _) (extents ∘ p)) (box (extents ∘ p))
      (Set.Ico 0 (∏ k, extents k)) := by
    refine ⟨?_, ?_, ?_⟩
    · intro i hi
      rw [← hprod]
      exact offset_mem hi
    · intro i hi i' hi' h
      exact offset_injOn hi hi' h
    · intro x hx
      rw [← hprod] at hx
      exact exists_offset (fun k => hextents (p k)) hx
  exact hcells.comp (bijOn_reorder p extents)

end KernelTree.Flatten
