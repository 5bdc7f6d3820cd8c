import Mathlib
import ReducedSpace.Proofs.Decomposition.Identities
import ReducedSpace.Proofs.Exact.Rank

/-!
# Decompositions of full rank

If the basis has the rank of the gradients, the decomposed equations are a basis of all equations:
their gradients are independent, and those of the undecomposed equations are combinations of them.
The operator `Uz` is then zero, as `Z` spans the null space of what they are combined from.
-/

namespace ReducedSpace

open Finset Elimination

variable {K : Type} [ExactScalar K]

/-- A column of a matrix as a vector. -/
def SparseMatrix.columnVector (a : SparseMatrix K) (j : ℕ) (i : Fin a.rows) : K := a.entry i j

namespace Decomposition

variable {S N : Type} [Factorization S N K]

/-- The rank of the basis is the rank of the gradients, and the undecomposed equations are exactly
those that depend on the decomposed ones. -/
structure FullRank (dec : Decomposition K S N) (gc : SparseMatrix K) : Prop where
  rank_eq : dec.rank = gc.rank
  decomposed_independent : LinearIndepOn K gc.columnVector {j | j ∈ dec.partition.decompEqus}
  undecomposed_dependent : ∀ j ∈ dec.partition.undecompEqus,
    gc.columnVector j ∈ Submodule.span K (gc.columnVector '' {j | j ∈ dec.partition.decompEqus})
  uz_eq_zero : ∀ op, dec.uz? = some op →
    op.Represents (dec.partition.m - dec.rank) (dec.partition.n - dec.rank) fun _ _ => 0

variable {dec : Decomposition K S N} {gc : SparseMatrix K} {settings : Settings K}

omit [ExactScalar K] [Factorization S N K] in
private theorem decompEqus_eq_range (dec : Decomposition K S N) :
    {j | j ∈ dec.partition.decompEqus} =
      Set.range fun t : Fin dec.rank => dec.partition.equPerm.old t := by
  ext j
  rw [Set.mem_ofPred_eq, Partition.mem_decompEqus_iff, Set.mem_range]
  constructor
  · intro hj
    exact ⟨⟨dec.partition.equPerm.new j, hj⟩, dec.partition.equPerm.old_new j⟩
  · rintro ⟨t, rfl⟩
    rw [Permutation.new_old]
    exact t.isLt

/-- The gradients of the decomposed equations are independent: the dependent variables alone tell them
apart. -/
theorem Derived.decomposed_independent (h : dec.Derived gc settings) :
    LinearIndepOn K gc.columnVector {j | j ∈ dec.partition.decompEqus} := by
  have hinjective : Function.Injective fun t : Fin dec.rank => dec.partition.equPerm.old t :=
    fun s t hst => Fin.ext (dec.partition.equPerm.old_injective hst)
  have hdependent : ∀ i : Fin dec.rank, dec.partition.varPerm.old i < gc.rows := by
    intro i
    rw [h.rows_eq]
    exact dec.partition.varPerm.old_lt_iff.2 (Nat.lt_of_lt_of_le i.isLt dec.partition.rank_le_n)
  rw [decompEqus_eq_range, linearIndepOn_range_iff hinjective]
  refine LinearIndependent.of_comp
    (LinearMap.funLeft K K fun i : Fin dec.rank => ⟨dec.partition.varPerm.old i, hdependent i⟩) ?_
  exact Matrix.linearIndependent_cols_iff_isUnit.2 h.inverts.isUnit

/-- If the basis has the rank of the gradients, every equation is a combination of the decomposed
ones. -/
theorem Derived.exists_combination (h : dec.Derived gc settings) (hrank : dec.rank = gc.rank)
    {j : ℕ} (hj : j < dec.partition.m) :
    ∃ c : ℕ → K, ∀ i, i < dec.partition.n → dec.partition.reordered gc i j =
      ∑ t ∈ range dec.rank, dec.partition.reordered gc i t * c t := by
  have hreordered : (block dec.partition.n dec.partition.m (dec.partition.reordered gc)).rank =
      dec.rank := by
    rw [hrank]
    rw [SparseMatrix.rank]
    rw [h.rows_eq, h.cols_eq]
    exact rank_block_old rfl rfl gc.entry
  exact ReducedSpace.exists_combination dec.partition.rank_le_n dec.partition.rank_le_m
    h.inverts.isUnit hreordered hj

/-- The gradients of the undecomposed equations are combinations of those of the decomposed ones. -/
theorem Derived.undecomposed_dependent (h : dec.Derived gc settings) (hrank : dec.rank = gc.rank)
    {j : ℕ} (hj : j ∈ dec.partition.undecompEqus) :
    gc.columnVector j ∈
      Submodule.span K (gc.columnVector '' {j | j ∈ dec.partition.decompEqus}) := by
  obtain ⟨-, hlt⟩ := dec.partition.mem_undecompEqus_iff.1 hj
  obtain ⟨c, hc⟩ := h.exists_combination hrank hlt
  have hcolumn : gc.columnVector j =
      ∑ t ∈ range dec.rank, c t • gc.columnVector (dec.partition.equPerm.old t) := by
    funext i
    have hi : (i : ℕ) < dec.partition.n := h.rows_eq ▸ i.isLt
    have hentry := hc _ (dec.partition.varPerm.new_lt_iff.2 hi)
    unfold Partition.reordered at hentry
    rw [Permutation.old_new, Permutation.old_new] at hentry
    rw [Finset.sum_apply]
    exact hentry.trans (sum_congr rfl fun t _ => mul_comm _ _)
  rw [hcolumn]
  refine Submodule.sum_mem _ fun t ht => Submodule.smul_mem _ _ (Submodule.subset_span ?_)
  refine ⟨_, ?_, rfl⟩
  rw [decompEqus_eq_range]
  exact ⟨⟨t, mem_range.1 ht⟩, rfl⟩

/-- A matrix that the gradients of the decomposed equations annihilate is annihilated by those of
all equations. -/
theorem Derived.sum_eq_zero_of_decomposed (h : dec.Derived gc settings)
    (hrank : dec.rank = gc.rank) {z : ℕ → K}
    (hz : ∀ t, t < dec.rank →
      ∑ k ∈ range dec.partition.n, dec.partition.reordered gc k t * z k = 0)
    {j : ℕ} (hj : j < dec.partition.m) :
    ∑ k ∈ range dec.partition.n, dec.partition.reordered gc k j * z k = 0 := by
  obtain ⟨c, hc⟩ := h.exists_combination hrank hj
  calc ∑ k ∈ range dec.partition.n, dec.partition.reordered gc k j * z k
      = ∑ k ∈ range dec.partition.n, ∑ t ∈ range dec.rank,
          c t * (dec.partition.reordered gc k t * z k) := by
        refine sum_congr rfl fun k hk => ?_
        rw [hc k (mem_range.1 hk), sum_mul]
        refine sum_congr rfl fun t _ => ?_
        ring
    _ = ∑ t ∈ range dec.rank, c t * ∑ k ∈ range dec.partition.n,
          dec.partition.reordered gc k t * z k := by
        rw [sum_comm]
        exact sum_congr rfl fun t _ => (mul_sum _ _ _).symm
    _ = 0 := sum_eq_zero fun t ht => by rw [hz t (mem_range.1 ht), mul_zero]

/-- The operator `Uz`, if there are undecomposed equations at all, is zero. -/
theorem Derived.uz_eq_zero (h : dec.Derived gc settings) (hrank : dec.rank = gc.rank)
    {op : LinearOperator K} (hop : dec.uz? = some op) :
    op.Represents (dec.partition.m - dec.rank) (dec.partition.n - dec.rank) fun _ _ => 0 := by
  obtain ⟨d, z, y, r, uy, uz, hid⟩ := h.exists_identities
  have hlt : dec.rank < dec.partition.m := by
    by_contra hnot
    have hnone := h.built.undecomposed_none (Nat.not_lt.1 hnot)
    rw [uz?, hnone] at hop
    cases hop
  obtain ⟨op', hop', hrep⟩ := hid.uz_represents hlt
  rw [hop] at hop'
  cases hop'
  refine hrep.congr fun i j hi hj => ?_
  have hdecomposed : ∀ t, t < dec.rank → ∑ k ∈ range dec.partition.n,
      dec.partition.reordered gc k t * z k j = 0 := by
    intro t ht
    have hblock := hid.gradients_mul_z
    rw [block_mul] at hblock
    exact congrFun (congrFun hblock ⟨t, ht⟩) ⟨j, hj⟩
  have huz : ∑ k ∈ range dec.partition.n,
      dec.partition.reordered gc k (dec.rank + i) * z k j = uz i j := by
    have hblock := hid.undecomposed_mul_z
    rw [block_mul] at hblock
    exact congrFun (congrFun hblock ⟨i, hi⟩) ⟨j, hj⟩
  rw [← huz]
  exact h.sum_eq_zero_of_decomposed hrank hdecomposed (by omega)

/-- A decomposition whose basis has the rank of the gradients decomposes as many equations as
possible. -/
theorem Derived.fullRank (h : dec.Derived gc settings) (hrank : dec.rank = gc.rank) :
    dec.FullRank gc where
  rank_eq := hrank
  decomposed_independent := h.decomposed_independent
  undecomposed_dependent _ hj := h.undecomposed_dependent hrank hj
  uz_eq_zero _ hop := h.uz_eq_zero hrank hop

end Decomposition

end ReducedSpace
