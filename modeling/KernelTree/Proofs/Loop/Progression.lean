/-!
# Arithmetic progressions in blocks

The values of a counting loop are an arithmetic progression. Cut into blocks of one size the
progression is still the same (`flatMap_blocks`), and what the last block lacks is known
(`blockCount_mul`). Blocks of which each reaches one value into the next (`overlapping`) have the
same values, but not each once.
-/

namespace KernelTree

/-- The values `x + k * d` for `count` numbers `k` from `first` on. -/
def progression (x d : Int) (first count : Nat) : List Int :=
  (List.range' first count).map fun k : Nat => x + k * d

variable {x d : Int}

@[simp] theorem length_progression (first count : Nat) :
    (progression x d first count).length = count := by
  simp [progression]

@[simp] theorem progression_zero (first : Nat) : progression x d first 0 = [] := rfl

theorem progression_append (first count count' : Nat) :
    progression x d first count ++ progression x d (first + count) count'
      = progression x d first (count + count') := by
  simp only [progression, ← List.map_append, List.range'_append_1]

theorem progression_succ (first count : Nat) :
    progression x d first (count + 1)
      = progression x d first count ++ [x + (first + count : Nat) * d] := by
  rw [← progression_append]
  rfl

theorem mem_progression {y : Int} {first count : Nat} :
    y ∈ progression x d first count ↔
      ∃ k : Nat, (first ≤ k ∧ k < first + count) ∧ x + k * d = y := by
  simp only [progression, List.mem_map, List.mem_range'_1]

/-- A progression that moves has no value twice. -/
theorem nodup_progression (hd : d ≠ 0) (first count : Nat) :
    (progression x d first count).Nodup := by
  refine List.pairwise_map.mpr ((List.nodup_range' 1).imp fun {k k'} hne heq => hne ?_)
  have hmul : (k : Int) * d = k' * d := by omega
  exact Int.ofNat.inj (Int.eq_of_mul_eq_mul_right hd hmul)

/-- The part of a block that lies before a limit. -/
theorem flatMap_range_lt {out : Int → List Int} {first count limit : Nat}
    (hout : ∀ i < count, out (x + (first + i : Nat) * d)
      = if first + i < limit then [x + (first + i : Nat) * d] else []) :
    ((List.range count).flatMap fun i : Nat => out (x + (first + i : Nat) * d))
      = progression x d first (min count (limit - first)) := by
  induction count with
  | zero => rw [Nat.zero_min]; rfl
  | succ count ih =>
    rw [List.range_succ, List.flatMap_append, List.flatMap_singleton,
      ih fun i hi => hout i (Nat.lt_succ_of_lt hi), hout count (Nat.lt_succ_self count)]
    split
    · rw [show min count (limit - first) = count by omega,
        show min (count + 1) (limit - first) = count + 1 by omega, progression_succ]
    · rw [show min (count + 1) (limit - first) = min count (limit - first) by omega,
        List.append_nil]

/-- Blocks that lie side by side make up the whole. -/
theorem flatMap_blocks (m size limit : Nat) :
    ((List.range m).flatMap fun j => progression x d (j * size) (min size (limit - j * size)))
      = progression x d 0 (min (m * size) limit) := by
  induction m with
  | zero => simp
  | succ m ih =>
    rw [List.range_succ, List.flatMap_append, List.flatMap_singleton, ih, Nat.succ_mul]
    by_cases hle : m * size ≤ limit
    · have happend := progression_append (x := x) (d := d) 0 (m * size)
        (min size (limit - m * size))
      rw [Nat.zero_add] at happend
      rw [Nat.min_eq_left hle, happend]
      congr 1
      omega
    · rw [show min size (limit - m * size) = 0 by omega, progression_zero, List.append_nil]
      congr 1
      omega

/-- How many blocks of a size it takes to hold `n` values. -/
def blockCount (n size : Nat) : Nat := (n + size - 1) / size

/-- The last block lacks `-n` modulo the size. -/
theorem blockCount_mul (n : Nat) {size : Nat} (hsize : 0 < size) :
    blockCount n size * size = n + (-(n : Int) % size).toNat := by
  have hdiv := Nat.div_add_mod (n + size - 1) size
  have hmod := Nat.mod_lt (n + size - 1) hsize
  unfold blockCount
  generalize (n + size - 1) / size = m at hdiv
  rw [Nat.mul_comm] at hdiv
  -- The lack is in range, and it differs from `-n` by whole blocks.
  have hlack : (-(n : Int)) % size = (m * size : Nat) - n := by
    have hshift : (-(n : Int)) % size = (-(n : Int) + m * size) % size :=
      (Int.add_mul_emod_self_right _ _ _).symm
    rw [hshift, Int.emod_eq_of_lt]
    all_goals
      rw [← Int.natCast_mul]
      omega
  omega

/-- Every block begins with a value that it has to hold. -/
theorem mul_lt_of_lt_blockCount {n size j : Nat} (hsize : 0 < size) (h : j < blockCount n size) :
    j * size < n := by
  have hle : (j + 1) * size ≤ n + size - 1 := (Nat.le_div_iff_mul_le hsize).mp h
  rw [Nat.succ_mul] at hle
  omega

/-! ### Blocks that overlap -/

/-- The blocks of `n` values, each with the first value of the next block at its end. -/
def overlapping (x d : Int) (n size : Nat) : List Int :=
  (List.range (blockCount n size)).flatMap fun j =>
    progression x d (j * size) (min (size + 1) (n - j * size))

theorem mem_overlapping {y : Int} {n size : Nat} (hsize : 0 < size) :
    y ∈ overlapping x d n size ↔ y ∈ progression x d 0 n := by
  simp only [overlapping, List.mem_flatMap, List.mem_range, mem_progression]
  constructor
  · rintro ⟨j, hj, k, hk, rfl⟩
    exact ⟨k, by omega, rfl⟩
  · rintro ⟨k, hk, rfl⟩
    -- The block of a value is the quotient of its number by the size.
    have hdiv := Nat.div_add_mod k size
    have hmod := Nat.mod_lt k hsize
    rw [Nat.mul_comm] at hdiv
    have henough : n ≤ blockCount n size * size := by
      rw [blockCount_mul n hsize]
      exact Nat.le_add_right _ _
    refine ⟨k / size, Nat.lt_of_mul_lt_mul_right (a := size) (by omega), k, by omega, rfl⟩

/-- One block has nothing to overlap with. -/
theorem overlapping_of_le {n size : Nat} (hsize : 0 < size) (hn : n ≤ size) :
    overlapping x d n size = progression x d 0 n := by
  rcases Nat.eq_zero_or_pos n with rfl | hpos
  · have hzero : blockCount 0 size = 0 := Nat.div_eq_of_lt (by omega)
    rw [overlapping, hzero]
    rfl
  · have hone : blockCount n size = 1 := Nat.div_eq_of_lt_le (by omega) (by omega)
    rw [overlapping, hone, List.range_one, List.flatMap_singleton, Nat.zero_mul]
    congr 1
    omega

/-- With a second block, its first value is there twice. -/
theorem not_nodup_overlapping {n size : Nat} (hsize : 0 < size) (hn : size < n) :
    ¬ (overlapping x d n size).Nodup := by
  have htwo : 2 ≤ blockCount n size := (Nat.le_div_iff_mul_le hsize).mpr (by omega)
  obtain ⟨m, hm⟩ := Nat.exists_eq_add_of_le htwo
  have hrange : List.range 2 = [0] ++ [1] := rfl
  intro hnodup
  rw [overlapping, hm, List.range_add, hrange, List.flatMap_append, List.flatMap_append,
    List.flatMap_singleton, List.flatMap_singleton] at hnodup
  have hdisjoint := (List.nodup_append.mp (List.nodup_append.mp hnodup).1).2.2
  refine hdisjoint (x + size * d) ?_ (x + size * d) ?_ rfl
  · exact mem_progression.mpr ⟨size, by omega, rfl⟩
  · exact mem_progression.mpr ⟨size, by omega, rfl⟩

end KernelTree
