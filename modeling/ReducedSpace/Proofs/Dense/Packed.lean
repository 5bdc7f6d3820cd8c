import ReducedSpace.Proofs.Exact.Inverse
import ReducedSpace.Proofs.Dense.Lu

/-!
# Packed factors from elsewhere

Factors need not come from a factorization: any square matrix with a nonzero diagonal packs a unit
lower and an upper triangle, and any list of rows is a list of row exchanges. Such parts belong to
the matrix `Pᵀ L U`, where `P` is the product of the exchanges. Elimination of that matrix, with its
rows exchanged, finds the two triangles again, so the parts are factors of it.
-/

namespace ReducedSpace

open Finset Elimination

variable {K : Type} [ExactScalar K]

namespace DenseLu

/-- The unit lower triangle below the diagonal of packed factors. -/
def lowerEntry (f : DenseLu K) (i t : ℕ) : K :=
  if i = t then 1 else if t < i then f.packed.entry i t else 0

/-- The upper triangle of packed factors. -/
def upperEntry (f : DenseLu K) (t j : ℕ) : K := if t ≤ j then f.packed.entry t j else 0

/-- The matrix that exchanges two rows. -/
def exchangeMatrix (r : ℕ) (e : ℕ × ℕ) : Matrix (Fin r) (Fin r) K :=
  block r r fun i j => if Permutation.exchange e.1 e.2 i = j then 1 else 0

/-- The product of the row exchanges, the first one rightmost. -/
def rowSwaps (f : DenseLu K) : Matrix (Fin f.dim) (Fin f.dim) K :=
  (allExchanges f.swaps).foldl (fun P e => exchangeMatrix f.dim e * P) 1

/-- The matrix `Pᵀ L U` that packed factors belong to. -/
def factored (f : DenseLu K) : Matrix (Fin f.dim) (Fin f.dim) K :=
  f.rowSwaps.transpose * (block f.dim f.dim f.lowerEntry * block f.dim f.dim f.upperEntry)

/-- A square matrix with a nonzero diagonal and row exchanges within its rows. -/
structure WellPacked (f : DenseLu K) : Prop where
  cols_eq : f.packed.cols = f.dim
  size_swaps_le : f.swaps.size ≤ f.dim
  swaps_lt : ∀ p ∈ f.swaps, p < f.dim
  diagonal_ne_zero : ∀ k, k < f.dim → f.packed.entry k k ≠ 0

variable {f : DenseLu K}

/-- The exchanges are those of each step with the row recorded for it. -/
theorem mem_allExchanges {swaps : Array ℕ} {e : ℕ × ℕ} (he : e ∈ allExchanges swaps) :
    e.1 < swaps.size ∧ e.2 ∈ swaps := by
  unfold allExchanges at he
  obtain ⟨d, hd, rfl⟩ := List.mem_map.1 he
  obtain ⟨-, hlt, hget⟩ := List.mem_zipIdx hd
  rw [Array.length_toList, Nat.zero_add] at hlt
  refine ⟨hlt, Array.mem_toList_iff.1 ?_⟩
  rw [hget]
  exact List.getElem_mem _

/-- In well-packed factors they are in range. -/
theorem WellPacked.allExchanges_lt (h : f.WellPacked) :
    ∀ e ∈ allExchanges f.swaps, e.1 < f.dim ∧ e.2 < f.dim := fun _ he =>
  ⟨Nat.lt_of_lt_of_le (mem_allExchanges he).1 h.size_swaps_le, h.swaps_lt _ (mem_allExchanges he).2⟩

/-- Exchanges one after the other take each row from its source. -/
theorem foldl_exchangeMatrix {r : ℕ} {es : List (ℕ × ℕ)} (hes : ∀ e ∈ es, e.1 < r ∧ e.2 < r) :
    es.foldl (fun P e => exchangeMatrix r e * P) (1 : Matrix (Fin r) (Fin r) K) =
      block r r fun i j => if source es i = j then 1 else 0 := by
  induction es using List.reverseRecOn with
  | nil =>
    ext i j
    exact if_congr Fin.ext_iff rfl rfl
  | append_singleton es e ih =>
    obtain ⟨he₁, he₂⟩ := hes e (List.mem_append_right _ (List.mem_singleton_self e))
    rw [List.foldl_append, List.foldl_cons, List.foldl_nil,
      ih fun d hd => hes d (List.mem_append_left _ hd), exchangeMatrix, block_mul]
    refine block_congr fun i j hi _ => ?_
    have hlt : Permutation.exchange e.1 e.2 i < r := Permutation.exchange_lt he₁ he₂ hi
    simp only [ite_mul, one_mul, zero_mul]
    rw [sum_ite_eq, if_pos (mem_range.2 hlt), source_append]
    rfl

/-- The exchanged rows of `Pᵀ L U` are those of `L U`. -/
theorem WellPacked.entriesOf_factored (h : f.WellPacked) {i j : ℕ} (hi : i < f.dim)
    (hj : j < f.dim) :
    entriesOf f.factored (source f.exchanges i) j =
      triangleProduct f.lowerEntry f.upperEntry f.dim i j := by
  have hswaps : f.rowSwaps.transpose = block f.dim f.dim fun i k =>
      if source (allExchanges f.swaps) k = i then (1 : K) else 0 := by
    rw [rowSwaps]
    rw [foldl_exchangeMatrix h.allExchanges_lt]
    rfl
  have hinjective (k : ℕ) :
      source (allExchanges f.swaps) k = source (allExchanges f.swaps) i ↔ k = i := by
    refine ⟨fun heq => ?_, fun hki => hki ▸ rfl⟩
    rw [← source_reverse_source (allExchanges f.swaps) k, heq, source_reverse_source]
  rw [factored]
  rw [hswaps, block_mul, block_mul, source_exchanges,
    entriesOf_block _ (source_lt h.allExchanges_lt hi) hj]
  simp only [hinjective, ite_mul, one_mul, zero_mul]
  rw [sum_ite_eq', if_pos (mem_range.2 hi)]
  rfl

/-- And the halves are triangles with pivots that are not zero. -/
theorem WellPacked.unitTriangles (h : f.WellPacked) :
    UnitTriangles f.lowerEntry f.upperEntry f.dim where
  lower_self t := if_pos rfl
  lower_zero i t hit := (if_neg (Nat.ne_of_lt hit)).trans (if_neg (Nat.lt_asymm hit))
  upper_zero t j hjt := if_neg (Nat.not_le.2 hjt)
  upper_self t ht := by
    rw [upperEntry]
    rw [if_pos (Nat.le_refl t)]
    exact h.diagonal_ne_zero t ht

/-- Parts from elsewhere are factors of the matrix that they belong to. -/
theorem WellPacked.factorsOf (h : f.WellPacked) : f.FactorsOf f.dim (entriesOf f.factored) where
  rows_eq := rfl
  cols_eq := h.cols_eq
  exchanges_lt e he := h.allExchanges_lt e (List.mem_of_mem_filter he)
  eliminated := by
    have htriangles := h.unitTriangles
    have helim : f.packed.Eliminated (triangleProduct f.lowerEntry f.upperEntry f.dim) f.dim := by
      refine ⟨htriangles.naturalPivots, fun i j _ _ hj hji => ?_, fun i j _ _ hi hij => ?_,
        fun i j hi _ hdim _ => absurd hi (Nat.not_lt.2 hdim)⟩
      · rw [htriangles.lower_eq hj, lowerEntry, if_neg (Nat.ne_of_gt hji), if_pos hji]
      · rw [htriangles.upper_eq hi, upperEntry, if_pos hij]
    have hcols : f.packed.cols = f.dim := h.cols_eq
    refine helim.congr (Nat.le_refl _) (Nat.le_of_eq hcols.symm) fun i j hi hj => ?_
    exact (h.entriesOf_factored hi (hcols ▸ hj)).symm

end DenseLu

end ReducedSpace
