import ReducedSpace.Proofs.Exact.Scalar
import ReducedSpace.Proofs.Vec

/-!
# Substitution

A triangular solve is a sweep whose steps subtract the products with the entries that are already
final. In exact arithmetic the sweep then satisfies one equation per entry. The orders in which the
solves gather their products all give the same sum.
-/

namespace ReducedSpace

open Finset

variable {K : Type} [ExactScalar K]

section Sums

theorem sum_map_range (n : ℕ) (g : ℕ → K) : ((List.range n).map g).sum = ∑ k ∈ range n, g k := by
  induction n with
  | zero => rfl
  | succ n ih =>
    rw [List.range_succ, List.map_append, List.sum_append, ih, sum_range_succ, List.map_singleton,
      List.sum_singleton]

theorem sum_map_range' (m n : ℕ) (g : ℕ → K) :
    ((List.range' m (n - m)).map g).sum = ∑ k ∈ Ico m n, g k := by
  rw [sum_Ico_eq_sum_range, ← sum_map_range, List.range'_eq_map_range, List.map_map]
  rfl

/-- Differences gathered from left to right. -/
theorem foldl_sub {β : Type} (l : List β) (g : β → K) (s : K) :
    l.foldl (fun s k => s - g k) s = s - (l.map g).sum := by
  induction l generalizing s with
  | nil => simp
  | cons k l ih => rw [List.foldl_cons, ih, List.map_cons, List.sum_cons, sub_sub]

/-- Passing over zeros does not change a sum of products. -/
theorem foldl_sub_nonzero (l : List ℕ) (g h : ℕ → K) (s : K) :
    l.foldl (fun s k => if Scalar.isZero (h k) then s else s - g k * h k) s =
      s - (l.map fun k => g k * h k).sum := by
  rw [← foldl_sub]
  congr 1
  funext s k
  split
  · rename_i hzero
    rw [Scalar.isZero_iff.1 hzero, mul_zero, sub_zero]
  · rfl

end Sums

section Sweeps

variable {n : ℕ} {s : ℕ → Array K → K} {g : ℕ → ℕ → K} {d : ℕ → K} {b : Array K}

/-- An ascending sweep is forward substitution. -/
theorem getD_sweep_forward (hn : n ≤ b.size)
    (hstep : ∀ i (z : Array K), i < n →
      s i z = (z.getD i 0 - ∑ k ∈ range i, g i k * z.getD k 0) / d i) {i : ℕ} (hi : i < n) :
    (Vec.sweep (List.range n) s b).getD i 0 =
      (b.getD i 0 - ∑ k ∈ range i, g i k * (Vec.sweep (List.range n) s b).getD k 0) / d i := by
  obtain ⟨z, hz, hbefore, hafter⟩ := Vec.getD_sweep_ascending hi s hn 0
  have hsum : ∑ k ∈ range i, g i k * z.getD k 0 =
      ∑ k ∈ range i, g i k * (Vec.sweep (List.range n) s b).getD k 0 :=
    sum_congr rfl fun k hk => by rw [hbefore k (mem_range.1 hk)]
  rw [hz, hstep i z hi, hafter i (Nat.le_refl i), hsum]

/-- A descending sweep is backward substitution. -/
theorem getD_sweep_backward (hn : n ≤ b.size)
    (hstep : ∀ i (z : Array K), i < n →
      s i z = (z.getD i 0 - ∑ k ∈ Ico (i + 1) n, g i k * z.getD k 0) / d i) {i : ℕ}
    (hi : i < n) :
    (Vec.sweep (List.range n).reverse s b).getD i 0 =
      (b.getD i 0 - ∑ k ∈ Ico (i + 1) n,
        g i k * (Vec.sweep (List.range n).reverse s b).getD k 0) / d i := by
  obtain ⟨z, hz, hbefore, hafter⟩ := Vec.getD_sweep_descending hi s hn 0
  have hsum : ∑ k ∈ Ico (i + 1) n, g i k * z.getD k 0 =
      ∑ k ∈ Ico (i + 1) n, g i k * (Vec.sweep (List.range n).reverse s b).getD k 0 :=
    sum_congr rfl fun k hk => by
      rw [hbefore k (mem_Ico.1 hk).1 (mem_Ico.1 hk).2]
  rw [hz, hstep i z hi, hafter i (Nat.le_refl i), hsum]

end Sweeps

section Columns

variable {n : ℕ} {s : Array K → ℕ → Array K} {g : ℕ → ℕ → K} {d : ℕ → K} {b : Array K}

/-- Forward substitution by columns: every step finishes one entry and takes its products from the
entries after it. -/
theorem getD_columns_forward (hsize : ∀ y k, (s y k).size = y.size)
    (hstep : ∀ (y : Array K) (k i : ℕ), y.size = b.size → k < n → i < n →
      (s y k).getD i 0 =
        if i = k then y.getD k 0 / d k
        else if k < i then y.getD i 0 - g i k * (y.getD k 0 / d k) else y.getD i 0)
    {i : ℕ} (hi : i < n) :
    ((List.range n).foldl s b).getD i 0 =
      (b.getD i 0 - ∑ k ∈ range i, g i k * ((List.range n).foldl s b).getD k 0) / d i := by
  let y : ℕ → Array K := fun m => (List.range m).foldl s b
  have hsucc : ∀ m, y (m + 1) = s (y m) m := by
    intro m
    show (List.range (m + 1)).foldl s b = _
    rw [List.range_succ, List.foldl_append, List.foldl_cons, List.foldl_nil]
  have hy : ∀ m, (y m).size = b.size := by
    intro m
    induction m with
    | zero => rfl
    | succ m ih => rw [hsucc, hsize, ih]
  have hkeep : ∀ m k, k < m → m ≤ n → (y m).getD k 0 = (y (k + 1)).getD k 0 := by
    intro m k hk hm
    induction m with
    | zero => exact absurd hk (Nat.not_lt_zero k)
    | succ m ih =>
      rcases Nat.lt_succ_iff_lt_or_eq.1 hk with hlt | rfl
      · rw [hsucc, hstep _ _ _ (hy m) (by omega) (by omega), if_neg (by omega), if_neg (by omega)]
        exact ih hlt (by omega)
      · rfl
  have hfinish : ∀ k, k < n → (y n).getD k 0 = (y k).getD k 0 / d k := by
    intro k hk
    rw [hkeep n k hk (Nat.le_refl n), hsucc, hstep _ _ _ (hy k) hk hk, if_pos rfl]
  have hpending : ∀ m, m ≤ i →
      (y m).getD i 0 = b.getD i 0 - ∑ k ∈ range m, g i k * (y n).getD k 0 := by
    intro m hm
    induction m with
    | zero => rw [sum_range_zero, sub_zero]; rfl
    | succ m ih =>
      rw [hsucc, hstep _ _ _ (hy m) (by omega) hi, if_neg (by omega), if_pos (by omega),
        ih (by omega), sum_range_succ, hfinish m (by omega), sub_sub]
  rw [← hpending i (Nat.le_refl i)]
  exact hfinish i hi

end Columns

end ReducedSpace
