import ReducedSpace.Proofs.Partition
import ReducedSpace.Operator

/-!
# Submatrices

A submatrix stores an entry where a row and a column are listed for the last time. A list of rows or
columns that is a stretch of a permutation repeats no index. A submatrix of such lists therefore
stores at each position what the matrix stores at the permuted one. The blocks of a partition are
submatrices of this kind.
-/

namespace ReducedSpace

namespace SparseMatrix

/-- Position `k` is the last one below `bound` at which the index is listed. -/
structure LastBelow (indices : Array Nat) (bound i k : Nat) : Prop where
  lt_bound : k < bound
  listed : indices[k]? = some i
  not_later : ∀ k', k < k' → k' < bound → indices[k']? ≠ some i

section Positions

variable {indices : Array Nat} {bound i k : Nat}

theorem LastBelow.unique {k' : Nat} (h : LastBelow indices bound i k)
    (h' : LastBelow indices bound i k') : k = k' := by
  by_contra hne
  rcases Nat.lt_or_gt_of_ne hne with hlt | hlt
  · exact h.not_later k' hlt h'.lt_bound h'.listed
  · exact h'.not_later k hlt h.lt_bound h.listed

theorem isLastOccurrence_iff :
    isLastOccurrence indices k = true ↔ ∃ i, LastBelow indices indices.size i k := by
  rw [isLastOccurrence]
  cases hk : indices[k]? with
  | none =>
    constructor
    · intro h
      cases h
    · rintro ⟨i, h⟩
      cases hk.symm.trans h.listed
  | some i =>
    simp only [List.all_eq_true, List.mem_range, Bool.or_eq_true, decide_eq_true_eq, bne_iff_ne]
    constructor
    · intro h
      refine ⟨i, (Array.getElem?_eq_some_iff.1 hk).1, hk, fun k' hlt hbound => ?_⟩
      exact (h k' hbound).resolve_left (Nat.not_le.2 hlt)
    · rintro ⟨i', h⟩ k' hbound
      obtain rfl : i = i' := Option.some.inj (hk.symm.trans h.listed)
      exact (Nat.lt_or_ge k k').elim (fun hlt => .inr (h.not_later k' hlt hbound)) .inl

/-- In a stretch of a permutation every position is the last one to hold its index. -/
theorem lastBelow_extract_olds_iff {p : Permutation} {b e : Nat} (he : e ≤ p.size) :
    LastBelow (p.olds.extract b e) (p.olds.extract b e).size i k ↔
      k < e - b ∧ p.old (b + k) = i := by
  rw [p.size_extract_olds he]
  constructor
  · rintro ⟨hk, hlisted, -⟩
    rw [p.getElem?_extract_olds he, if_pos hk] at hlisted
    exact ⟨hk, Option.some.inj hlisted⟩
  · rintro ⟨hk, rfl⟩
    refine ⟨hk, by rw [p.getElem?_extract_olds he, if_pos hk], fun k' hlt hk' heq => ?_⟩
    rw [p.getElem?_extract_olds he, if_pos hk'] at heq
    have := p.old_injective (Option.some.inj heq)
    omega

end Positions

variable {α : Type}

/-- A submatrix stores at a position what the matrix stores at the listed one, if the position is
the last one of its row and of its column, and nothing otherwise. -/
theorem find?_submatrix_eq_some_iff {a : SparseMatrix α} {rows cols : Array Nat} {i j : Nat}
    {v : α} : (a.submatrix rows cols).find? i j = some v ↔
      ∃ i' j', LastBelow rows rows.size i' i ∧ LastBelow cols cols.size j' j ∧
        a.find? i' j' = some v := by
  unfold submatrix
  dsimp only
  rw [find?_ofEntries]
  constructor
  · intro h
    split at h
    · rename_i hin
      rw [getD_tabulate, getD_tabulate, if_pos hin.1, if_pos hin.2] at h
      split at h
      · rename_i hlast
        obtain ⟨hrow, hcol⟩ := Bool.and_eq_true_iff.1 hlast
        obtain ⟨i', hrow⟩ := isLastOccurrence_iff.1 hrow
        obtain ⟨j', hcol⟩ := isLastOccurrence_iff.1 hcol
        rw [hrow.listed, hcol.listed] at h
        exact ⟨i', j', hrow, hcol, h⟩
      · cases h
    · cases h
  · rintro ⟨i', j', hrow, hcol, hv⟩
    rw [if_pos ⟨hrow.lt_bound, hcol.lt_bound⟩, getD_tabulate, getD_tabulate, if_pos hrow.lt_bound,
      if_pos hcol.lt_bound, isLastOccurrence_iff.2 ⟨i', hrow⟩, isLastOccurrence_iff.2 ⟨j', hcol⟩,
      hrow.listed, hcol.listed]
    exact hv

/-- What a submatrix of stretches of two permutations stores. -/
theorem find?_submatrix_extract (a : SparseMatrix α) {p q : Permutation} {b e c d : Nat}
    (he : e ≤ p.size) (hd : d ≤ q.size) (i j : Nat) :
    (a.submatrix (p.olds.extract b e) (q.olds.extract c d)).find? i j =
      if i < e - b ∧ j < d - c then a.find? (p.old (b + i)) (q.old (c + j)) else none := by
  refine Option.ext fun v => ?_
  rw [find?_submatrix_eq_some_iff, Option.ite_none_right_eq_some]
  simp only [lastBelow_extract_olds_iff he, lastBelow_extract_olds_iff hd]
  constructor
  · rintro ⟨_, _, ⟨hi, rfl⟩, ⟨hj, rfl⟩, hv⟩
    exact ⟨⟨hi, hj⟩, hv⟩
  · rintro ⟨⟨hi, hj⟩, hv⟩
    exact ⟨_, _, ⟨hi, rfl⟩, ⟨hj, rfl⟩, hv⟩

end SparseMatrix

namespace Partition

variable {α : Type} {p : Partition} {gc block : SparseMatrix α}

/-- The blocks of a partition can be selected from gradients of its size, and from no smaller
ones. -/
theorem exists_blocks (p : Partition) (hrows : gc.rows = p.n) (hcols : gc.cols = p.m) :
    (∃ block, p.basisBlock gc = .ok block) ∧ (∃ block, p.nonbasisBlock gc = .ok block) ∧
      ∃ block, p.undecomposedBlock gc = .ok block := by
  have hdep : ∀ i ∈ p.depVars, i < gc.rows := fun i hi => hrows ▸ p.depVars_cover.2 (.inl hi)
  have hindep : ∀ i ∈ p.indepVars, i < gc.rows := fun i hi => hrows ▸ p.depVars_cover.2 (.inr hi)
  have hdecomp : ∀ j ∈ p.decompEqus, j < gc.cols := fun j hj =>
    hcols ▸ p.decompEqus_cover.2 (.inl hj)
  have hundecomp : ∀ j ∈ p.undecompEqus, j < gc.cols := fun j hj =>
    hcols ▸ p.decompEqus_cover.2 (.inr hj)
  have hall : ∀ i ∈ p.varPerm.olds, i < gc.rows := by
    intro i hi
    have hmem := p.varPerm.olds_perm.mem_iff.1 hi.val
    exact hrows ▸ List.mem_range.1 hmem
  exact ⟨⟨_, SparseMatrix.select_eq_ok_iff.2 ⟨hdep, hdecomp, rfl⟩⟩,
    ⟨_, SparseMatrix.select_eq_ok_iff.2 ⟨hindep, hdecomp, rfl⟩⟩,
    ⟨_, SparseMatrix.select_eq_ok_iff.2 ⟨hall, hundecomp, rfl⟩⟩⟩

theorem basisBlock_spec (h : p.basisBlock gc = .ok block) :
    block.rows = p.rank ∧ block.cols = p.rank ∧ ∀ i j, i < p.rank → j < p.rank →
      block.find? i j = gc.find? (p.varPerm.old i) (p.equPerm.old j) := by
  obtain ⟨-, -, rfl⟩ := SparseMatrix.select_eq_ok_iff.1 h
  refine ⟨p.size_depVars, p.size_decompEqus, fun i j hi hj => ?_⟩
  rw [depVars, decompEqus]
  rw [gc.find?_submatrix_extract p.rank_le_n p.rank_le_m, if_pos ⟨by omega, by omega⟩,
    Nat.zero_add, Nat.zero_add]

theorem nonbasisBlock_spec (h : p.nonbasisBlock gc = .ok block) :
    block.rows = p.n - p.rank ∧ block.cols = p.rank ∧ ∀ i j, i < p.n - p.rank → j < p.rank →
      block.find? i j = gc.find? (p.varPerm.old (p.rank + i)) (p.equPerm.old j) := by
  obtain ⟨-, -, rfl⟩ := SparseMatrix.select_eq_ok_iff.1 h
  refine ⟨p.size_indepVars, p.size_decompEqus, fun i j hi hj => ?_⟩
  have hn : p.n ≤ p.varPerm.size := Nat.le_refl _
  rw [indepVars, decompEqus]
  rw [gc.find?_submatrix_extract hn p.rank_le_m, if_pos ⟨hi, by omega⟩, Nat.zero_add]

theorem undecomposedBlock_spec (h : p.undecomposedBlock gc = .ok block) :
    block.rows = p.n ∧ block.cols = p.m - p.rank ∧ ∀ i j, i < p.n → j < p.m - p.rank →
      block.find? i j = gc.find? (p.varPerm.old i) (p.equPerm.old (p.rank + j)) := by
  obtain ⟨-, -, rfl⟩ := SparseMatrix.select_eq_ok_iff.1 h
  refine ⟨rfl, p.size_undecompEqus, fun i j hi hj => ?_⟩
  have holds : p.varPerm.olds = p.varPerm.olds.extract 0 p.n := Array.extract_size.symm
  have hn : p.n ≤ p.varPerm.size := Nat.le_refl _
  have hm : p.m ≤ p.equPerm.size := Nat.le_refl _
  rw [undecompEqus]
  rw [holds, gc.find?_submatrix_extract hn hm, if_pos ⟨by omega, hj⟩, Nat.zero_add]

end Partition

end ReducedSpace
