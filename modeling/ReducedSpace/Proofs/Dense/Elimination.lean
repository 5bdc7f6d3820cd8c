import ReducedSpace.Proofs.Exact.Factors
import ReducedSpace.Proofs.Exact.Scalar
import ReducedSpace.Dense.Matrix

/-!
# Elimination in place

A dense elimination keeps everything in one matrix: the multipliers of the steps so far, the pivot
rows of the steps so far and what is left. `Eliminated` says which entry is which. An exchange of
rows or columns that are still to be eliminated turns the packed elimination of a matrix into that
of the exchanged matrix.
-/

namespace ReducedSpace

open Elimination

variable {K : Type} [ExactScalar K]

/-- An exchange behind a position does not move it. -/
theorem Permutation.exchange_of_lt {k p i : ℕ} (hkp : k ≤ p) (hi : i < k) :
    Permutation.exchange k p i = i := by
  rw [Permutation.exchange]
  rw [if_neg (by omega), if_neg (by omega)]

/-- Nor does it move others in front of its first position. -/
theorem Permutation.le_exchange_iff {k p i : ℕ} (hkp : k ≤ p) :
    k ≤ Permutation.exchange k p i ↔ k ≤ i := by
  rw [Permutation.exchange]
  grind

/-- An exchange in range keeps positions in range. -/
theorem Permutation.exchange_lt {k p i m : ℕ} (hk : k < m) (hp : p < m) (hi : i < m) :
    Permutation.exchange k p i < m := by
  rw [Permutation.exchange]
  grind

namespace DenseMatrix

/-- The matrix packs `k` steps of the elimination of `a`. -/
structure Eliminated (w : DenseMatrix K) (a : ℕ → ℕ → K) (k : ℕ) : Prop where
  pivots : NaturalPivots a k
  lower_eq : ∀ i j, i < w.rows → j < w.cols → j < k → j < i → w.entry i j = lower a i j
  upper_eq : ∀ i j, i < w.rows → j < w.cols → i < k → i ≤ j → w.entry i j = upper a i j
  rest_eq : ∀ i j, i < w.rows → j < w.cols → k ≤ i → k ≤ j → w.entry i j = natural a k i j

/-- Before the first step everything is left. -/
theorem eliminated_zero (w : DenseMatrix K) : w.Eliminated w.entry 0 where
  pivots t ht := absurd ht (Nat.not_lt_zero t)
  lower_eq _ j _ _ hj := absurd hj (Nat.not_lt_zero j)
  upper_eq i _ _ _ hi := absurd hi (Nat.not_lt_zero i)
  rest_eq _ _ _ _ _ _ := rfl

variable {w : DenseMatrix K} {a : ℕ → ℕ → K} {k : ℕ}

/-- An elimination does not see what is outside the matrix. -/
theorem Eliminated.congr (h : w.Eliminated a k) {b : ℕ → ℕ → K} (hkr : k ≤ w.rows)
    (hkc : k ≤ w.cols) (hab : ∀ i j, i < w.rows → j < w.cols → a i j = b i j) :
    w.Eliminated b k := by
  have hnatural {t : ℕ} (ht : t ≤ k) {i j : ℕ} (hi : i < w.rows) (hj : j < w.cols) :
      natural b t i j = natural a t i j :=
    (natural_congr (ht.trans hkr) (ht.trans hkc) hab hi hj).symm
  refine ⟨fun t ht => ?_, fun i j hi hj hjk hji => ?_, fun i j hi hj hik hij => ?_,
    fun i j hi hj hki hkj => ?_⟩
  · rw [hnatural (Nat.le_of_lt ht) (by omega) (by omega)]
    exact h.pivots t ht
  · rw [h.lower_eq i j hi hj hjk hji, lower, lower, hnatural (Nat.le_of_lt hjk) hi hj,
      hnatural (Nat.le_of_lt hjk) (by omega) hj]
  · rw [h.upper_eq i j hi hj hik hij, upper, upper, hnatural (Nat.le_of_lt hik) hi hj]
  · rw [h.rest_eq i j hi hj hki hkj, hnatural (Nat.le_refl k) hi hj]

/-- Rows behind the finished steps may be exchanged. -/
theorem Eliminated.swapRows (h : w.Eliminated a k) {p : ℕ} (hkp : k ≤ p) (hp : p < w.rows) :
    (w.swapRows k p).Eliminated (fun i j => a (Permutation.exchange k p i) j) k := by
  have hk : k < w.rows := Nat.lt_of_le_of_lt hkp hp
  have hfix : ∀ t, t < k → Permutation.exchange k p t = t := fun t ht =>
    Permutation.exchange_of_lt hkp ht
  have hnatural : ∀ l, l ≤ k → ∀ i j,
      natural (fun i j => a (Permutation.exchange k p i) j) l i j =
        natural a l (Permutation.exchange k p i) j := fun l hl i j =>
    natural_reindex a (fun t ht => hfix t (by omega)) (g := fun t => t) (fun _ _ => rfl) i j
  refine ⟨fun t ht => ?_, fun i j hi hj hjk hji => ?_, fun i j hi hj hik hij => ?_,
    fun i j hi hj hki hkj => ?_⟩
  · rw [hnatural t (Nat.le_of_lt ht), hfix t ht]
    exact h.pivots t ht
  · have hei : j < Permutation.exchange k p i := by
      by_cases hik : i < k
      · rw [hfix i hik]
        exact hji
      · exact Nat.lt_of_lt_of_le hjk ((Permutation.le_exchange_iff hkp).2 (Nat.not_lt.1 hik))
    rw [entry_swapRows w hk hp, h.lower_eq _ j (Permutation.exchange_lt hk hp hi) hj hjk hei, lower,
      lower, hnatural j (Nat.le_of_lt hjk), hnatural j (Nat.le_of_lt hjk), hfix j hjk]
  · rw [entry_swapRows w hk hp, hfix i hik, h.upper_eq i j hi hj hik hij, upper, upper,
      hnatural i (Nat.le_of_lt hik), hfix i hik]
  · rw [entry_swapRows w hk hp, h.rest_eq _ j (Permutation.exchange_lt hk hp hi) hj
      ((Permutation.le_exchange_iff hkp).2 hki) hkj, hnatural k (Nat.le_refl k)]

/-- And columns. -/
theorem Eliminated.swapCols (h : w.Eliminated a k) {q : ℕ} (hkq : k ≤ q) (hq : q < w.cols) :
    (w.swapCols k q).Eliminated (fun i j => a i (Permutation.exchange k q j)) k := by
  have hk : k < w.cols := Nat.lt_of_le_of_lt hkq hq
  have hfix : ∀ t, t < k → Permutation.exchange k q t = t := fun t ht =>
    Permutation.exchange_of_lt hkq ht
  have hnatural : ∀ l, l ≤ k → ∀ i j,
      natural (fun i j => a i (Permutation.exchange k q j)) l i j =
        natural a l i (Permutation.exchange k q j) := fun l hl i j =>
    natural_reindex a (f := fun t => t) (fun _ _ => rfl) (fun t ht => hfix t (by omega)) i j
  refine ⟨fun t ht => ?_, fun i j hi hj hjk hji => ?_, fun i j hi hj hik hij => ?_,
    fun i j hi hj hki hkj => ?_⟩
  · rw [hnatural t (Nat.le_of_lt ht), hfix t ht]
    exact h.pivots t ht
  · rw [entry_swapCols w hk hq, hfix j hjk, h.lower_eq i j hi hj hjk hji, lower, lower,
      hnatural j (Nat.le_of_lt hjk), hnatural j (Nat.le_of_lt hjk), hfix j hjk]
  · have hej : i ≤ Permutation.exchange k q j := by
      by_cases hjk : j < k
      · rw [hfix j hjk]
        exact hij
      · exact Nat.le_of_lt
          (Nat.lt_of_lt_of_le hik ((Permutation.le_exchange_iff hkq).2 (Nat.not_lt.1 hjk)))
    rw [entry_swapCols w hk hq, h.upper_eq i _ hi (Permutation.exchange_lt hk hq hj) hik hej, upper,
      upper, hnatural i (Nat.le_of_lt hik)]
  · rw [entry_swapCols w hk hq, h.rest_eq i _ hi (Permutation.exchange_lt hk hq hj) hki
      ((Permutation.le_exchange_iff hkq).2 hkj), hnatural k (Nat.le_refl k)]

/-- One step of elimination in place. -/
theorem Eliminated.eliminate (h : w.Eliminated a k) (hkr : k < w.rows) (hkc : k < w.cols)
    (hpivot : natural a k k k ≠ 0) : (w.eliminate k).Eliminated a (k + 1) := by
  have hcol : ∀ i, i < w.rows → k ≤ i → w.entry i k = natural a k i k := fun i hi hki =>
    h.rest_eq i k hi hkc hki (Nat.le_refl k)
  have hrow : ∀ j, j < w.cols → k ≤ j → w.entry k j = natural a k k j := fun j hj hkj =>
    h.rest_eq k j hkr hj (Nat.le_refl k) hkj
  refine ⟨fun t ht => ?_, fun i j hi hj hjk hji => ?_, fun i j hi hj hik hij => ?_,
    fun i j hi hj hki hkj => ?_⟩
  · rcases Nat.lt_succ_iff_lt_or_eq.1 ht with hlt | rfl
    · exact h.pivots t hlt
    · exact hpivot
  · rw [entry_eliminate w k hi hj]
    rcases Nat.lt_succ_iff_lt_or_eq.1 hjk with hlt | rfl
    · rw [if_pos (.inr hlt)]
      exact h.lower_eq i j hi hj hlt hji
    · rw [if_neg (by omega), if_pos rfl, hcol i hi (Nat.le_of_lt hji), hcol j hkr (Nat.le_refl j),
        lower]
  · rw [entry_eliminate w k hi hj, if_pos (.inl (Nat.le_of_lt_succ hik))]
    rcases Nat.lt_succ_iff_lt_or_eq.1 hik with hlt | rfl
    · exact h.upper_eq i j hi hj hlt hij
    · exact hrow j hj hij
  · rw [entry_eliminate w k hi hj, if_neg (by omega), if_neg (by omega), natural_succ, lower, upper,
      ← hcol i hi (by omega), ← hcol k hkr (Nat.le_refl k), ← hrow j hj (by omega),
      ← h.rest_eq i j hi hj (by omega) (by omega)]
    by_cases hz : w.entry i k / w.entry k k = 0
    · rw [if_pos (Scalar.isZero_iff.2 hz), hz, zero_mul, sub_zero]
    · rw [if_neg fun hzero => hz (Scalar.isZero_iff.1 hzero)]

end DenseMatrix

end ReducedSpace
