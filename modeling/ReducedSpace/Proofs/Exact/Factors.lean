import Mathlib.Tactic.LinearCombination
import ReducedSpace.Proofs.Exact.Elimination

/-!
# Triangular factors

Elimination along the diagonal writes a matrix as a product of triangular factors: the multipliers
below the diagonal and the pivot rows on and above it. Substitution in one triangle after the other
then solves with the matrix, in either orientation. The algorithms differ in how they store and
update the factors; what they compute is `lower` and `upper`.
-/

namespace ReducedSpace.Elimination

open Finset

variable {K : Type} [Field K]

/-- What elimination with the first `k` diagonal entries leaves. -/
def natural (a : ℕ → ℕ → K) : ℕ → ℕ → ℕ → K
  | 0 => a
  | k + 1 => schur (natural a k) k k

/-- The first `k` diagonal entries are nonzero when their turn comes. -/
def NaturalPivots (a : ℕ → ℕ → K) (k : ℕ) : Prop := ∀ t, t < k → natural a t t t ≠ 0

/-- The multiplier of row `i` at step `t`. -/
def lower (a : ℕ → ℕ → K) (i t : ℕ) : K := natural a t i t / natural a t t t

/-- The pivot row of step `t`. -/
def upper (a : ℕ → ℕ → K) (t j : ℕ) : K := natural a t t j

/-- Fewer steps need fewer pivots. -/
theorem NaturalPivots.mono {a : ℕ → ℕ → K} {k l : ℕ} (h : NaturalPivots a l) (hkl : k ≤ l) :
    NaturalPivots a k := fun t ht => h t (Nat.lt_of_lt_of_le ht hkl)

/-- One more step subtracts a multiple of the pivot row. -/
theorem natural_succ (a : ℕ → ℕ → K) (k i j : ℕ) :
    natural a (k + 1) i j = natural a k i j - lower a i k * upper a k j := rfl

/-- The rows of finished steps are zero in what is left. -/
theorem natural_row_eq_zero {a : ℕ → ℕ → K} {k i : ℕ} (h : NaturalPivots a k) (hi : i < k)
    (j : ℕ) : natural a k i j = 0 := by
  induction k generalizing j with
  | zero => exact absurd hi (Nat.not_lt_zero i)
  | succ k ih =>
    rcases Nat.lt_succ_iff_lt_or_eq.1 hi with hlt | rfl
    · exact schur_zero_row (fun j => ih (h.mono (Nat.le_succ k)) hlt j) k k j
    · exact schur_pivot_row (h i (Nat.lt_succ_self i)) j

/-- And so are their columns. -/
theorem natural_col_eq_zero {a : ℕ → ℕ → K} {k j : ℕ} (h : NaturalPivots a k) (hj : j < k)
    (i : ℕ) : natural a k i j = 0 := by
  induction k generalizing i with
  | zero => exact absurd hj (Nat.not_lt_zero j)
  | succ k ih =>
    rcases Nat.lt_succ_iff_lt_or_eq.1 hj with hlt | rfl
    · exact schur_zero_col (fun i => ih (h.mono (Nat.le_succ k)) hlt i) k k i
    · exact schur_pivot_col (h j (Nat.lt_succ_self j)) i

/-- Reordering rows and columns that are not eliminated yet commutes with elimination. -/
theorem natural_reindex (a : ℕ → ℕ → K) {f g : ℕ → ℕ} {k : ℕ} (hf : ∀ t, t < k → f t = t)
    (hg : ∀ t, t < k → g t = t) (i j : ℕ) :
    natural (fun i j => a (f i) (g j)) k i j = natural a k (f i) (g j) := by
  induction k generalizing i j with
  | zero => rfl
  | succ k ih =>
    have ih := ih (fun t ht => hf t (by omega)) fun t ht => hg t (by omega)
    simp only [natural, schur, ih]
    rw [hf k (Nat.lt_succ_self k), hg k (Nat.lt_succ_self k)]

/-- The last pivot is eliminated last. -/
theorem residual_append (a : ℕ → ℕ → K) (es : List (ℕ × ℕ)) (e : ℕ × ℕ) :
    residual a (es ++ [e]) = schur (residual a es) e.1 e.2 := by
  induction es generalizing a with
  | nil => rfl
  | cons d es ih => exact ih _

/-- One more pivot must not be zero in what the others leave. -/
theorem pivots_append_iff {a : ℕ → ℕ → K} {es : List (ℕ × ℕ)} {e : ℕ × ℕ} :
    Pivots a (es ++ [e]) ↔ Pivots a es ∧ residual a es e.1 e.2 ≠ 0 := by
  induction es generalizing a with
  | nil => exact and_comm
  | cons d es ih => exact (and_congr_right fun _ => ih).trans and_assoc.symm

/-- Elimination of a block along its diagonal is elimination of the matrix with the positions that
the diagonal came from. -/
theorem natural_of_pivots (a : ℕ → ℕ → K) {es : List (ℕ × ℕ)} {f g : ℕ → ℕ}
    (hes : ∀ t e, es[t]? = some e → e = (f t, g t)) {k : ℕ} (hk : k ≤ es.length) (i j : ℕ) :
    natural (fun i j => a (f i) (g j)) k i j = residual a (es.take k) (f i) (g j) := by
  induction k generalizing i j with
  | zero => rfl
  | succ k ih =>
    have ih := ih (by omega)
    have hlt : k < es.length := hk
    have hget : es[k]? = some es[k] := List.getElem?_eq_getElem hlt
    rw [List.take_add_one, hget, Option.toList_some, residual_append, hes k _ hget]
    simp only [natural, schur, ih]

/-- The positions that the first `k` entries of the diagonal of a block come from. -/
def diagonal (f g : ℕ → ℕ) (k : ℕ) : List (ℕ × ℕ) := (List.range k).map fun t => (f t, g t)

/-- Pivots in any places are diagonal pivots of the rearranged matrix. -/
theorem residual_diagonal (a : ℕ → ℕ → K) (f g : ℕ → ℕ) (k i j : ℕ) :
    residual a (diagonal f g k) (f i) (g j) = natural (fun i j => a (f i) (g j)) k i j := by
  have hes : ∀ t e, (diagonal f g k)[t]? = some e → e = (f t, g t) := by
    intro t e he
    unfold diagonal at he
    rw [List.getElem?_map] at he
    obtain ⟨s, hs, rfl⟩ := Option.map_eq_some_iff.1 he
    obtain ⟨_, rfl⟩ := List.getElem?_eq_some_iff.1 hs
    rw [List.getElem_range]
  have hlen : (diagonal f g k).length = k := by
    unfold diagonal
    rw [List.length_map, List.length_range]
  rw [natural_of_pivots a hes (Nat.le_of_eq hlen.symm), List.take_of_length_le (Nat.le_of_eq hlen)]

/-- The diagonal pivots of a block are pivots of the matrix. -/
theorem NaturalPivots.pivots {a : ℕ → ℕ → K} {f g : ℕ → ℕ} {k : ℕ}
    (h : NaturalPivots (fun i j => a (f i) (g j)) k) : Pivots a (diagonal f g k) := by
  induction k with
  | zero => exact trivial
  | succ k ih =>
    have hsucc : diagonal f g (k + 1) = diagonal f g k ++ [(f k, g k)] := by
      unfold diagonal
      rw [List.range_succ, List.map_append, List.map_singleton]
    rw [hsucc, pivots_append_iff, residual_diagonal]
    exact ⟨ih (h.mono (Nat.le_succ k)), h k (Nat.lt_succ_self k)⟩

/-- The rank counts the diagonal pivots of a reordered matrix if they leave nothing. -/
theorem NaturalPivots.rank_eq {a : ℕ → ℕ → K} {f g : ℕ → ℕ} {m n k : ℕ}
    (h : NaturalPivots (fun i j => a (f i) (g j)) k) (hkm : k ≤ m) (hkn : k ≤ n)
    (hf : ∀ i, i < m → f i < m) (hg : ∀ j, j < n → g j < n)
    (hf' : ∀ i, i < m → ∃ i', i' < m ∧ f i' = i) (hg' : ∀ j, j < n → ∃ j', j' < n ∧ g j' = j)
    (hzero : ∀ i j, k ≤ i → i < m → k ≤ j → j < n →
      natural (fun i j => a (f i) (g j)) k i j = 0) :
    (block m n a).rank = k := by
  have hlt : ∀ e ∈ diagonal f g k, e.1 < m ∧ e.2 < n := by
    intro e he
    obtain ⟨t, ht, rfl⟩ := List.mem_map.1 he
    have ht := List.mem_range.1 ht
    exact ⟨hf t (by omega), hg t (by omega)⟩
  have hlen : (diagonal f g k).length = k := by
    rw [diagonal]
    rw [List.length_map, List.length_range]
  rw [h.pivots.rank_eq_length hlt, hlen]
  intro i j hi hj
  obtain ⟨i', hi', rfl⟩ := hf' i hi
  obtain ⟨j', hj', rfl⟩ := hg' j hj
  rw [residual_diagonal]
  by_cases hik : i' < k
  · exact natural_row_eq_zero h hik _
  · by_cases hjk : j' < k
    · exact natural_col_eq_zero h hjk _
    · exact hzero _ _ (Nat.not_lt.1 hik) hi' (Nat.not_lt.1 hjk) hj'

/-- An initial part of a pivot sequence is one. -/
theorem Pivots.take {a : ℕ → ℕ → K} {es : List (ℕ × ℕ)} (h : Pivots a es) (k : ℕ) :
    Pivots a (es.take k) := by
  induction es generalizing a k with
  | nil => simpa using h
  | cons e es ih =>
    cases k with
    | zero => exact trivial
    | succ k => exact ⟨h.1, ih h.2 k⟩

/-- No pivot is zero when it is taken. -/
theorem Pivots.getElem_ne_zero {a : ℕ → ℕ → K} {es : List (ℕ × ℕ)} (h : Pivots a es) {k : ℕ}
    {e : ℕ × ℕ} (he : es[k]? = some e) : residual a (es.take k) e.1 e.2 ≠ 0 := by
  induction es generalizing a k with
  | nil => simp at he
  | cons d es ih =>
    cases k with
    | zero =>
      cases he
      exact h.1
    | succ k => exact ih h.2 he

/-- The pivots of a matrix are the diagonal pivots of the block that they lead to. -/
theorem Pivots.naturalPivots {a : ℕ → ℕ → K} {es : List (ℕ × ℕ)} {f g : ℕ → ℕ}
    (h : Pivots a es) (hes : ∀ t e, es[t]? = some e → e = (f t, g t)) :
    NaturalPivots (fun i j => a (f i) (g j)) es.length := by
  intro t ht
  have hget : es[t]? = some es[t] := List.getElem?_eq_getElem ht
  rw [natural_of_pivots a hes (Nat.le_of_lt ht)]
  have := h.getElem_ne_zero hget
  rwa [hes t _ hget] at this

/-- Elimination on a block does not see what is outside the block. -/
theorem natural_congr {a b : ℕ → ℕ → K} {m n k : ℕ} (hk : k ≤ m) (hk' : k ≤ n)
    (hab : ∀ i j, i < m → j < n → a i j = b i j) {i j : ℕ} (hi : i < m) (hj : j < n) :
    natural a k i j = natural b k i j := by
  induction k generalizing i j with
  | zero => exact hab i j hi hj
  | succ k ih =>
    have hrow {j : ℕ} (hj : j < n) := ih (by omega) (by omega) (show k < m by omega) hj
    have hcol {i : ℕ} (hi : i < m) := ih (by omega) (by omega) hi (show k < n by omega)
    simp only [natural, schur]
    rw [ih (by omega) (by omega) hi hj, hrow hj, hcol hi, hrow (show k < n by omega)]

section Factors

variable {a : ℕ → ℕ → K} {n : ℕ}

/-- The diagonal of `L` is one. -/
theorem lower_self {t : ℕ} (h : NaturalPivots a n) (ht : t < n) : lower a t t = 1 :=
  div_self (h t ht)

/-- Above it `L` is zero. -/
theorem lower_eq_zero {i t : ℕ} (h : NaturalPivots a n) (ht : t < n) (hit : i < t) :
    lower a i t = 0 := by
  rw [lower, natural_row_eq_zero (h.mono (Nat.le_of_lt ht)) hit, zero_div]

/-- Below its diagonal `U` is zero. -/
theorem upper_eq_zero {t j : ℕ} (h : NaturalPivots a n) (ht : t < n) (hjt : j < t) :
    upper a t j = 0 :=
  natural_col_eq_zero (h.mono (Nat.le_of_lt ht)) hjt t

/-- The factors of the steps so far and what is left add up to the matrix. -/
theorem sum_factors_add_natural (a : ℕ → ℕ → K) (k i j : ℕ) :
    ∑ t ∈ range k, lower a i t * upper a t j + natural a k i j = a i j := by
  induction k with
  | zero => rw [sum_range_zero, zero_add, natural]
  | succ k ih =>
    rw [sum_range_succ, natural_succ]
    linear_combination ih

/-- The factors multiply to the matrix. -/
theorem sum_factors (h : NaturalPivots a n) {i : ℕ} (hi : i < n) (j : ℕ) :
    ∑ t ∈ range n, lower a i t * upper a t j = a i j := by
  have := sum_factors_add_natural a n i j
  rwa [natural_row_eq_zero h hi, add_zero] at this

end Factors

section Triangles

variable {l u : ℕ → ℕ → K} {n : ℕ}

/-- A unit lower triangle and an upper triangle without a zero on its diagonal. -/
structure UnitTriangles (l u : ℕ → ℕ → K) (n : ℕ) : Prop where
  lower_self : ∀ t, l t t = 1
  lower_zero : ∀ i t, i < t → l i t = 0
  upper_zero : ∀ t j, j < t → u t j = 0
  upper_self : ∀ t, t < n → u t t ≠ 0

/-- The product of two triangles. -/
def triangleProduct (l u : ℕ → ℕ → K) (n i j : ℕ) : K := ∑ t ∈ range n, l i t * u t j

/-- Each step of the elimination of a product of triangles takes one column of the lower and one row
of the upper triangle away. -/
theorem UnitTriangles.natural_eq (h : UnitTriangles l u n) {k : ℕ} (hk : k ≤ n) (i j : ℕ) :
    natural (triangleProduct l u n) k i j = ∑ t ∈ Ico k n, l i t * u t j := by
  induction k generalizing i j with
  | zero =>
    rw [← Finset.range_eq_Ico]
    rfl
  | succ k ih =>
    have ih := ih (Nat.le_of_succ_le hk)
    have hsplit (i j : ℕ) : natural (triangleProduct l u n) k i j =
        l i k * u k j + ∑ t ∈ Ico (k + 1) n, l i t * u t j := by
      rw [ih, sum_eq_sum_Ico_succ_bot hk]
    have hrow (j : ℕ) : natural (triangleProduct l u n) k k j = u k j := by
      rw [hsplit, h.lower_self, one_mul, add_eq_left]
      refine sum_eq_zero fun t ht => ?_
      rw [h.lower_zero k t (mem_Ico.1 ht).1, zero_mul]
    have hcol (i : ℕ) : natural (triangleProduct l u n) k i k = l i k * u k k := by
      rw [hsplit, add_eq_left]
      refine sum_eq_zero fun t ht => ?_
      rw [h.upper_zero t k (mem_Ico.1 ht).1, mul_zero]
    rw [natural_succ, lower, upper, hrow, hrow, hcol, mul_div_cancel_right₀ _ (h.upper_self k hk),
      hsplit, add_sub_cancel_left]

/-- Elimination of a product of triangles meets the rows of the upper one. -/
theorem UnitTriangles.upper_eq (h : UnitTriangles l u n) {t : ℕ} (ht : t < n) (j : ℕ) :
    upper (triangleProduct l u n) t j = u t j := by
  rw [upper]
  rw [h.natural_eq (Nat.le_of_lt ht), sum_eq_sum_Ico_succ_bot ht, h.lower_self, one_mul,
    add_eq_left]
  refine sum_eq_zero fun s hs => ?_
  rw [h.lower_zero t s (mem_Ico.1 hs).1, zero_mul]

/-- A product of triangles has the diagonal of the upper one as its pivots. -/
theorem UnitTriangles.naturalPivots (h : UnitTriangles l u n) :
    NaturalPivots (triangleProduct l u n) n := fun t ht => by
  have hupper := h.upper_eq ht t
  rw [upper] at hupper
  rw [hupper]
  exact h.upper_self t ht

/-- Its multipliers are the columns of the lower one. -/
theorem UnitTriangles.lower_eq (h : UnitTriangles l u n) {t : ℕ} (ht : t < n) (i : ℕ) :
    lower (triangleProduct l u n) i t = l i t := by
  have hpivot : natural (triangleProduct l u n) t t t = u t t := h.upper_eq ht t
  rw [lower]
  rw [hpivot, h.natural_eq (Nat.le_of_lt ht), sum_eq_sum_Ico_succ_bot ht, add_div,
    mul_div_cancel_right₀ _ (h.upper_self t ht), add_eq_left]
  refine (div_eq_zero_iff).2 (.inl (sum_eq_zero fun s hs => ?_))
  rw [h.upper_zero s t (mem_Ico.1 hs).1, mul_zero]

end Triangles

section Substitution

variable {t : ℕ → ℕ → K} {y b : ℕ → K} {n : ℕ}

/-- Forward substitution solves with a lower triangle. -/
theorem sum_of_forward (ht : ∀ i j, j < n → i < j → t i j = 0)
    (hy : ∀ i, i < n → t i i * y i = b i - ∑ k ∈ range i, t i k * y k) {i : ℕ} (hi : i < n) :
    ∑ k ∈ range n, t i k * y k = b i := by
  have hsub : range (i + 1) ⊆ range n := range_subset_range.2 hi
  rw [← sum_subset hsub, sum_range_succ, hy i hi, add_sub_cancel]
  intro k hk hki
  rw [ht i k (mem_range.1 hk) (by simpa using hki), zero_mul]

/-- Backward substitution solves with an upper triangle. -/
theorem sum_of_backward (ht : ∀ i j, i < n → j < i → t i j = 0)
    (hy : ∀ i, i < n → t i i * y i = b i - ∑ k ∈ Ico (i + 1) n, t i k * y k) {i : ℕ}
    (hi : i < n) : ∑ k ∈ range n, t i k * y k = b i := by
  have hsub : Ico i n ⊆ range n := by
    intro k hk
    exact mem_range.2 (mem_Ico.1 hk).2
  rw [← sum_subset hsub, sum_eq_sum_Ico_succ_bot hi, hy i hi, sub_add_cancel]
  intro k hk hki
  have hki : k < i := by
    by_contra hle
    exact hki (mem_Ico.2 ⟨Nat.not_lt.1 hle, mem_range.1 hk⟩)
  rw [ht i k hi hki, zero_mul]

variable {a : ℕ → ℕ → K}

/-- Substitution in both factors solves with the matrix. -/
theorem sum_of_substitution (h : NaturalPivots a n) {x y b : ℕ → K}
    (hy : ∀ i, i < n → y i = b i - ∑ k ∈ range i, lower a i k * y k)
    (hx : ∀ i, i < n → upper a i i * x i = y i - ∑ k ∈ Ico (i + 1) n, upper a i k * x k)
    {i : ℕ} (hi : i < n) : ∑ j ∈ range n, a i j * x j = b i := by
  have hlower : ∑ t ∈ range n, lower a i t * y t = b i := by
    refine sum_of_forward (fun i t ht hit => lower_eq_zero h ht hit) (fun i hi => ?_) hi
    rw [lower_self h hi, one_mul, hy i hi]
  have hupper : ∀ t ∈ range n, ∑ j ∈ range n, upper a t j * x j = y t := fun t ht =>
    sum_of_backward (fun t j ht hjt => upper_eq_zero h ht hjt) hx (mem_range.1 ht)
  calc ∑ j ∈ range n, a i j * x j
      = ∑ j ∈ range n, ∑ t ∈ range n, lower a i t * (upper a t j * x j) := by
        refine sum_congr rfl fun j _ => ?_
        rw [← sum_factors h hi j, sum_mul]
        exact sum_congr rfl fun t _ => mul_assoc _ _ _
    _ = ∑ t ∈ range n, lower a i t * y t := by
        rw [sum_comm]
        refine sum_congr rfl fun t ht => ?_
        rw [← mul_sum, hupper t ht]
    _ = b i := hlower

/-- Substitution in the transposed factors solves with the transposed matrix. -/
theorem sum_of_substitution_transpose (h : NaturalPivots a n) {w z b : ℕ → K}
    (hz : ∀ k, k < n → upper a k k * z k = b k - ∑ i ∈ range k, upper a i k * z i)
    (hw : ∀ k, k < n → w k = z k - ∑ i ∈ Ico (k + 1) n, lower a i k * w i)
    {j : ℕ} (hj : j < n) : ∑ i ∈ range n, a i j * w i = b j := by
  have hupper : ∑ t ∈ range n, upper a t j * z t = b j :=
    sum_of_forward (t := fun j t => upper a t j)
      (fun j t ht hjt => upper_eq_zero h ht hjt) hz hj
  have hlower : ∀ t ∈ range n, ∑ i ∈ range n, lower a i t * w i = z t := by
    intro t ht
    refine sum_of_backward (t := fun t i => lower a i t)
      (fun t i ht hit => lower_eq_zero h ht hit) (fun k hk => ?_) (mem_range.1 ht)
    rw [lower_self h hk, one_mul, hw k hk]
  calc ∑ i ∈ range n, a i j * w i
      = ∑ i ∈ range n, ∑ t ∈ range n, upper a t j * (lower a i t * w i) := by
        refine sum_congr rfl fun i hi => ?_
        rw [← sum_factors h (mem_range.1 hi) j, sum_mul]
        refine sum_congr rfl fun t _ => ?_
        ring
    _ = ∑ t ∈ range n, upper a t j * z t := by
        rw [sum_comm]
        refine sum_congr rfl fun t ht => ?_
        rw [← mul_sum, hlower t ht]
    _ = b j := hupper

end Substitution

end ReducedSpace.Elimination
