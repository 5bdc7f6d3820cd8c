import Mathlib
import ReducedSpace.Proofs.Exact.SchurComplement

/-!
# Leading minors and leading columns

An elimination along the diagonal meets the quotients of successive leading minors, so it goes on
exactly as long as the leading minors are nonzero. If the rows are exchanged on the way, what counts
is whether the leading columns are independent: the first column that depends on those before it is
the first one in which no pivot is left.
-/

namespace ReducedSpace.Elimination

open Matrix

variable {K : Type} [Field K] {a : ℕ → ℕ → K} {k n : ℕ}

section Minors

/-- The leading principal minor of order `k`. -/
noncomputable def leadingMinor (a : ℕ → ℕ → K) (k : ℕ) : K := (block k k a).det

@[simp] theorem leadingMinor_zero (a : ℕ → ℕ → K) : leadingMinor a 0 = 1 := Matrix.det_fin_zero

/-- Each pivot multiplies the minor that was reached. -/
theorem NaturalPivots.leadingMinor_succ (h : NaturalPivots a k) :
    leadingMinor a (k + 1) = leadingMinor a k * natural a k k k := by
  let _ := h.isUnit_block.invertible
  let row : Matrix (Fin 1) (Fin k) K := .of fun _ j => a k j
  let col : Matrix (Fin k) (Fin 1) K := .of fun i _ => a i k
  let corner : Matrix (Fin 1) (Fin 1) K := .of fun _ _ => a k k
  have hsplit : (block (k + 1) (k + 1) a).submatrix finSumFinEquiv finSumFinEquiv =
      fromBlocks (block k k a) col row corner := by
    ext (i | i) (j | j) <;> simp [block, row, col, corner]
  have hcomplement : (corner - row * ⅟(block k k a) * col) 0 0 = schurComplement a k k k := by
    rw [invOf_eq_nonsing_inv, Matrix.mul_assoc]
    rfl
  rw [leadingMinor, ← det_submatrix_equiv_self finSumFinEquiv, hsplit, det_fromBlocks₁₁,
    det_fin_one, hcomplement, ← h.natural_eq_schurComplement, leadingMinor]

/-- The diagonal pivots are nonzero as long as the leading minors are. -/
theorem naturalPivots_iff_leadingMinor_ne_zero :
    NaturalPivots a n ↔ ∀ k, k ≤ n → leadingMinor a k ≠ 0 := by
  induction n with
  | zero => simp [NaturalPivots]
  | succ n ih =>
    constructor
    · intro h k hk
      have hprevious := ih.1 (h.mono (Nat.le_succ n))
      rcases Nat.le_succ_iff.1 hk with hlt | rfl
      · exact hprevious k hlt
      · rw [(h.mono (Nat.le_succ n)).leadingMinor_succ]
        exact mul_ne_zero (hprevious n le_rfl) (h n (Nat.lt_succ_self n))
    · intro h t ht
      have hprevious := ih.2 fun k hk => h k (hk.trans (Nat.le_succ n))
      rcases Nat.lt_succ_iff_lt_or_eq.1 ht with hlt | rfl
      · exact hprevious t hlt
      · have hminor := h (t + 1) le_rfl
        rw [hprevious.leadingMinor_succ] at hminor
        exact right_ne_zero_of_mul hminor

/-- The leading minors are nonzero up to order `k`, and the next one is zero. -/
structure FirstZeroMinor (a : ℕ → ℕ → K) (k : ℕ) : Prop where
  ne_zero : ∀ l, l ≤ k → leadingMinor a l ≠ 0
  eq_zero : leadingMinor a (k + 1) = 0

/-- The elimination stops at the first leading minor that vanishes. -/
theorem firstZeroMinor_iff :
    FirstZeroMinor a k ↔ NaturalPivots a k ∧ natural a k k k = 0 := by
  constructor
  · intro h
    have hpivots := naturalPivots_iff_leadingMinor_ne_zero.2 h.ne_zero
    have hzero := h.eq_zero
    rw [hpivots.leadingMinor_succ] at hzero
    exact ⟨hpivots, (mul_eq_zero.1 hzero).resolve_left (h.ne_zero k le_rfl)⟩
  · rintro ⟨hpivots, hzero⟩
    exact ⟨naturalPivots_iff_leadingMinor_ne_zero.1 hpivots, by
      rw [hpivots.leadingMinor_succ, hzero, mul_zero]⟩

/-- Only one leading minor is the first one that vanishes. -/
theorem FirstZeroMinor.unique {l : ℕ} (hk : FirstZeroMinor a k) (hl : FirstZeroMinor a l) :
    k = l := by
  rcases Nat.lt_trichotomy k l with hlt | heq | hgt
  · exact absurd hk.eq_zero (hl.ne_zero _ hlt)
  · exact heq
  · exact absurd hl.eq_zero (hk.ne_zero _ hgt)

end Minors

section Columns

/-- The first `k` columns of a matrix with `n` rows. -/
def leadingColumns (a : ℕ → ℕ → K) (n k : ℕ) : Fin k → Fin n → K := fun j i => a i j

/-- The leading columns are independent if they have full rank. -/
theorem linearIndependent_leadingColumns_iff :
    LinearIndependent K (leadingColumns a n k) ↔ (block n k a).rank = k := by
  rw [linearIndependent_iff_card_eq_finrank_span, Fintype.card_fin, eq_comm,
    Matrix.rank_eq_finrank_span_cols]
  rfl

/-- The first `k` columns are independent, and the next one depends on them. -/
structure FirstDependentColumn (a : ℕ → ℕ → K) (n k : ℕ) : Prop where
  independent : LinearIndependent K (leadingColumns a n k)
  dependent : ¬ LinearIndependent K (leadingColumns a n (k + 1))

theorem linearIndependent_leadingColumns_mono {l : ℕ}
    (h : LinearIndependent K (leadingColumns a n l)) (hkl : k ≤ l) :
    LinearIndependent K (leadingColumns a n k) :=
  h.comp (Fin.castLE hkl) (Fin.castLE_injective hkl)

/-- Only one column is the first one that depends on those before it. -/
theorem FirstDependentColumn.unique {l : ℕ} (hk : FirstDependentColumn a n k)
    (hl : FirstDependentColumn a n l) : k = l := by
  rcases Nat.lt_trichotomy k l with hlt | heq | hgt
  · exact absurd (linearIndependent_leadingColumns_mono hl.independent hlt) hk.dependent
  · exact heq
  · exact absurd (linearIndependent_leadingColumns_mono hk.independent hgt) hl.dependent

end Columns

end ReducedSpace.Elimination
