import Mathlib
import ReducedSpace.Proofs.Exact.Factors

/-!
# Schur complements

An elimination along the diagonal subtracts combinations of its pivot rows from each row, and the
columns of its pivots vanish. Both together determine what is left: the Schur complement of the
block that the pivots span. Pivots at any other positions are diagonal pivots once their rows and
columns are listed first.
-/

namespace ReducedSpace.Elimination

open Finset Matrix

variable {K : Type} [Field K] {a : ℕ → ℕ → K} {k : ℕ}

/-- The Schur complement of the leading block of size `k`, at one position. -/
noncomputable def schurComplement (a : ℕ → ℕ → K) (k i j : ℕ) : K :=
  a i j - (fun t : Fin k => a i t) ⬝ᵥ ((block k k a)⁻¹ *ᵥ fun t : Fin k => a t j)

/-- The block that diagonal pivots span is nonsingular. -/
theorem NaturalPivots.isUnit_block (h : NaturalPivots a k) : IsUnit (block k k a) := by
  have hrank : (block k k a).rank = k := by
    refine NaturalPivots.rank_eq (f := fun i => i) (g := fun j => j) h (le_refl k) (le_refl k)
      (fun _ hi => hi) (fun _ hj => hj) (fun i hi => ⟨i, hi, rfl⟩) (fun j hj => ⟨j, hj, rfl⟩) ?_
    intro i j hki hik
    omega
  have htop : LinearMap.range (block k k a).mulVecLin = ⊤ := by
    refine Submodule.eq_top_of_finrank_eq ?_
    rw [Module.finrank_fin_fun]
    exact hrank
  rw [← Matrix.mulVec_surjective_iff_isUnit]
  exact LinearMap.range_eq_top.1 htop

/-- Elimination subtracts a combination of the first rows from a row. -/
theorem exists_natural_eq_sub_sum (a : ℕ → ℕ → K) (k i : ℕ) :
    ∃ y : ℕ → K, ∀ j, natural a k i j = a i j - ∑ t ∈ range k, y t * a t j := by
  induction k generalizing i with
  | zero => exact ⟨fun _ => 0, fun j => by rw [sum_range_zero, sub_zero, natural]⟩
  | succ k ih =>
    obtain ⟨y, hy⟩ := ih i
    obtain ⟨z, hz⟩ := ih k
    let w : ℕ → K := fun t => if t < k then y t - lower a i k * z t else lower a i k
    have hlast : w k = lower a i k := if_neg (lt_irrefl k)
    refine ⟨w, fun j => ?_⟩
    have hsum : ∑ t ∈ range k, w t * a t j =
        ∑ t ∈ range k, y t * a t j - lower a i k * ∑ t ∈ range k, z t * a t j := by
      rw [mul_sum, ← sum_sub_distrib]
      refine sum_congr rfl fun t ht => ?_
      have hw : w t = y t - lower a i k * z t := if_pos (mem_range.1 ht)
      rw [hw]
      ring
    rw [natural_succ, upper, hy, hz, sum_range_succ, hsum, hlast]
    ring

/-- What elimination along the diagonal leaves is the Schur complement: it subtracts the combination
of the pivot rows that cancels the columns of the pivots. -/
theorem NaturalPivots.natural_eq_schurComplement (h : NaturalPivots a k) (i j : ℕ) :
    natural a k i j = schurComplement a k i j := by
  obtain ⟨y, hy⟩ := exists_natural_eq_sub_sum a k i
  have hdet := (Matrix.isUnit_iff_isUnit_det _).1 h.isUnit_block
  have hrow : (fun t : Fin k => a i t) = (fun t : Fin k => y t) ᵥ* block k k a := by
    funext s
    have hzero := hy s
    rw [natural_col_eq_zero h s.isLt, eq_comm, sub_eq_zero] at hzero
    rw [hzero, ← Fin.sum_univ_eq_sum_range (fun t => y t * a t s)]
    rfl
  calc natural a k i j = a i j - (fun t : Fin k => y t) ⬝ᵥ fun t : Fin k => a t j := by
        rw [hy, ← Fin.sum_univ_eq_sum_range (fun t => y t * a t j)]
        rfl
    _ = schurComplement a k i j := by
        rw [schurComplement, hrow, ← Matrix.dotProduct_mulVec, Matrix.mulVec_mulVec,
          Matrix.mul_nonsing_inv _ hdet, Matrix.one_mulVec]

section Positions

variable {es : List (ℕ × ℕ)}

/-- The block in the rows and the columns of the listed positions. -/
def pivotBlock (a : ℕ → ℕ → K) (es : List (ℕ × ℕ)) : Matrix (Fin es.length) (Fin es.length) K :=
  .of fun s t => a es[s].1 es[t].2

/-- The Schur complement of the block of the listed positions, at one position. -/
noncomputable def pivotComplement (a : ℕ → ℕ → K) (es : List (ℕ × ℕ)) (i j : ℕ) : K :=
  a i j - (fun t : Fin es.length => a i es[t].2) ⬝ᵥ
    ((pivotBlock a es)⁻¹ *ᵥ fun s : Fin es.length => a es[s].1 j)

/-- The rows of the listed positions and one row behind them. -/
private def rowsThen (es : List (ℕ × ℕ)) (i t : ℕ) : ℕ := (es.map (·.1)).getD t i

/-- The columns of the listed positions and one column behind them. -/
private def colsThen (es : List (ℕ × ℕ)) (j t : ℕ) : ℕ := (es.map (·.2)).getD t j

private theorem eq_rowsThen_colsThen {i j t : ℕ} {e : ℕ × ℕ} (h : es[t]? = some e) :
    e = (rowsThen es i t, colsThen es j t) := by
  rw [rowsThen, colsThen, List.getD_eq_getElem?_getD, List.getD_eq_getElem?_getD,
    List.getElem?_map, List.getElem?_map, h]
  rfl

private theorem rowsThen_fin (i : ℕ) (t : Fin es.length) : rowsThen es i t = es[t].1 := by
  have h := eq_rowsThen_colsThen (i := i) (j := 0) (List.getElem?_eq_getElem t.isLt)
  exact (congrArg Prod.fst h).symm

private theorem colsThen_fin (j : ℕ) (t : Fin es.length) : colsThen es j t = es[t].2 := by
  have h := eq_rowsThen_colsThen (i := 0) (j := j) (List.getElem?_eq_getElem t.isLt)
  exact (congrArg Prod.snd h).symm

omit [Field K] in
private theorem block_rowsThen_colsThen (a : ℕ → ℕ → K) (es : List (ℕ × ℕ)) (i j : ℕ) :
    block es.length es.length (fun s t => a (rowsThen es i s) (colsThen es j t)) =
      pivotBlock a es := by
  ext s t
  simp only [block, pivotBlock, Matrix.of_apply, rowsThen_fin, colsThen_fin]

/-- The block that pivots span is nonsingular. -/
theorem Pivots.isUnit_pivotBlock (h : Pivots a es) : IsUnit (pivotBlock a es) := by
  rw [← block_rowsThen_colsThen a es 0 0]
  exact (h.naturalPivots fun t e => eq_rowsThen_colsThen).isUnit_block

/-- What elimination with pivots leaves is the Schur complement of the block that they span. -/
theorem Pivots.residual_eq_pivotComplement (h : Pivots a es) (i j : ℕ) :
    residual a es i j = pivotComplement a es i j := by
  have hpivots := h.naturalPivots (f := rowsThen es i) (g := colsThen es j)
    fun t e => eq_rowsThen_colsThen
  have hrow : rowsThen es i es.length = i := by simp [rowsThen]
  have hcol : colsThen es j es.length = j := by simp [colsThen]
  have hnatural := natural_of_pivots a (f := rowsThen es i) (g := colsThen es j)
    (fun t e => eq_rowsThen_colsThen) (le_refl es.length) es.length es.length
  rw [hrow, hcol, List.take_length] at hnatural
  rw [← hnatural, hpivots.natural_eq_schurComplement, schurComplement, pivotComplement,
    block_rowsThen_colsThen]
  simp only [rowsThen_fin, colsThen_fin, hrow, hcol]

end Positions

end ReducedSpace.Elimination
