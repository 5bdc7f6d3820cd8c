import ReducedSpace.Proofs.Exact.Inverse
import ReducedSpace.Permutation

/-!
# Ranks

Reordering rows and columns does not change the rank. If the rank is the size of a nonsingular
leading block, the columns of that block are independent and all other columns depend on them.
-/

namespace ReducedSpace

open Finset Elimination

/-- A permutation of `n` indices as an equivalence. -/
def Permutation.toEquiv (p : Permutation) {n : ℕ} (h : p.size = n) : Fin n ≃ Fin n where
  toFun i := ⟨p.old i, by
    subst h
    exact p.old_lt_iff.2 i.isLt⟩
  invFun i := ⟨p.new i, by
    subst h
    exact p.new_lt_iff.2 i.isLt⟩
  left_inv i := Fin.ext (p.new_old i)
  right_inv i := Fin.ext (p.old_new i)

variable {K : Type} [ExactScalar K] {m n r : ℕ} {a : ℕ → ℕ → K}

/-- The rank of a matrix. -/
noncomputable def SparseMatrix.rank (a : SparseMatrix K) : ℕ :=
  (block a.rows a.cols a.entry).rank

theorem rank_block_le (m n : ℕ) (a : ℕ → ℕ → K) : (block m n a).rank ≤ min m n :=
  Nat.le_min.2 ⟨(block m n a).rank_le_height, (block m n a).rank_le_width⟩

/-- Reordering rows and columns does not change the rank. -/
theorem rank_block_old {p q : Permutation} (hp : p.size = m) (hq : q.size = n) (a : ℕ → ℕ → K) :
    (block m n fun i j => a (p.old i) (q.old j)).rank = (block m n a).rank := by
  have hsubmatrix : (block m n fun i j => a (p.old i) (q.old j)) =
      (block m n a).submatrix (p.toEquiv hp) (q.toEquiv hq) := rfl
  rw [hsubmatrix, Matrix.rank_submatrix]

/-- The columns of a nonsingular leading block are independent. -/
theorem rank_leading_columns (hr : r ≤ m) (h : IsUnit (block r r a)) :
    (block m r a).rank = r := by
  have hle : (block r r a).rank ≤ (block m r a).rank :=
    (block m r a).rank_submatrix_le (Fin.castLE hr) id
  rw [Matrix.rank_of_isUnit _ h, Fintype.card_fin] at hle
  exact le_antisymm (block m r a).rank_le_width hle

/-- If the rank is the size of a nonsingular leading block, every column is a combination of the
columns of that block. -/
theorem exists_combination (hr : r ≤ m) (hr' : r ≤ n) (h : IsUnit (block r r a))
    (hrank : (block m n a).rank = r) {j : ℕ} (hj : j < n) :
    ∃ c : ℕ → K, ∀ i, i < m → a i j = ∑ t ∈ range r, a i t * c t := by
  have hle : LinearMap.range (block m r a).mulVecLin ≤ LinearMap.range (block m n a).mulVecLin := by
    rw [Matrix.range_mulVecLin, Matrix.range_mulVecLin]
    refine Submodule.span_mono ?_
    rintro _ ⟨t, rfl⟩
    exact ⟨Fin.castLE hr' t, rfl⟩
  have hfinrank : Module.finrank K (LinearMap.range (block m n a).mulVecLin) ≤
      Module.finrank K (LinearMap.range (block m r a).mulVecLin) := by
    have hcolumns := rank_leading_columns hr h
    rw [Matrix.rank] at hcolumns hrank
    rw [hcolumns, hrank]
  have hrange := Submodule.eq_of_le_of_finrank_le hle hfinrank
  have hmem : (block m n a).col ⟨j, hj⟩ ∈ LinearMap.range (block m n a).mulVecLin := by
    rw [Matrix.range_mulVecLin]
    exact Submodule.subset_span ⟨⟨j, hj⟩, rfl⟩
  rw [← hrange] at hmem
  obtain ⟨x, hx⟩ := hmem
  refine ⟨fun t => if ht : t < r then x ⟨t, ht⟩ else 0, fun i hi => ?_⟩
  have hij : ∑ t : Fin r, a i t * x t = a i j := congrFun hx ⟨i, hi⟩
  rw [← hij, ← Fin.sum_univ_eq_sum_range
    (fun t => a i t * if ht : t < r then x ⟨t, ht⟩ else 0) r]
  refine sum_congr rfl fun t _ => ?_
  rw [dif_pos t.isLt]

end ReducedSpace
