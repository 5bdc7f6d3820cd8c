import Mathlib.LinearAlgebra.Matrix.Rank
import Mathlib.Algebra.BigOperators.Field
import Mathlib.Algebra.BigOperators.Intervals
import Mathlib.Tactic.FieldSimp
import Mathlib.Tactic.Ring

/-!
# Elimination

Elimination with a nonzero pivot replaces a matrix by its Schur complement, in which the row and the
column of the pivot are zero. What a sequence of pivots leaves is the `residual`; each pivot takes
exactly one from the rank. Elimination along the diagonal is `natural`, and the multipliers and
pivot rows it meets are the triangular factors.

Matrices are functions of two naturals here, so that an elimination need not carry its size: a
permutation of rows or columns is a composition, and the size enters only where a rank is taken.
-/

namespace ReducedSpace.Elimination

open Finset

variable {K : Type} [Field K]

/-- What elimination with the pivot at `(p, q)` leaves. -/
def schur (a : ℕ → ℕ → K) (p q : ℕ) : ℕ → ℕ → K := fun i j => a i j - a i q / a p q * a p j

/-- The row of the pivot vanishes. -/
theorem schur_pivot_row {a : ℕ → ℕ → K} {p q : ℕ} (h : a p q ≠ 0) (j : ℕ) :
    schur a p q p j = 0 := by
  rw [schur]
  rw [div_self h, one_mul, sub_self]

/-- The column of the pivot vanishes. -/
theorem schur_pivot_col {a : ℕ → ℕ → K} {p q : ℕ} (h : a p q ≠ 0) (i : ℕ) :
    schur a p q i q = 0 := by
  rw [schur]
  rw [div_mul_cancel₀ _ h, sub_self]

/-- A zero row stays zero. -/
theorem schur_zero_row {a : ℕ → ℕ → K} {i : ℕ} (h : ∀ j, a i j = 0) (p q j : ℕ) :
    schur a p q i j = 0 := by
  rw [schur]
  rw [h, h, zero_div, zero_mul, sub_zero]

/-- A zero column stays zero. -/
theorem schur_zero_col {a : ℕ → ℕ → K} {j : ℕ} (h : ∀ i, a i j = 0) (p q i : ℕ) :
    schur a p q i j = 0 := by
  rw [schur]
  rw [h, h, mul_zero, sub_zero]

/-- What elimination with the listed pivots leaves. -/
def residual (a : ℕ → ℕ → K) : List (ℕ × ℕ) → ℕ → ℕ → K
  | [] => a
  | e :: es => residual (schur a e.1 e.2) es

/-- Every listed pivot is nonzero when its turn comes. -/
def Pivots (a : ℕ → ℕ → K) : List (ℕ × ℕ) → Prop
  | [] => True
  | e :: es => a e.1 e.2 ≠ 0 ∧ Pivots (schur a e.1 e.2) es

/-- A row of zeros stays one. -/
theorem residual_zero_row {a : ℕ → ℕ → K} {i : ℕ} (h : ∀ j, a i j = 0) (es : List (ℕ × ℕ))
    (j : ℕ) : residual a es i j = 0 := by
  induction es generalizing a with
  | nil => exact h j
  | cons e es ih => exact ih fun j => schur_zero_row h e.1 e.2 j

/-- And so does a column. -/
theorem residual_zero_col {a : ℕ → ℕ → K} {j : ℕ} (h : ∀ i, a i j = 0) (es : List (ℕ × ℕ))
    (i : ℕ) : residual a es i j = 0 := by
  induction es generalizing a with
  | nil => exact h i
  | cons e es ih => exact ih fun i => schur_zero_col h e.1 e.2 i

section Sequence

variable {a : ℕ → ℕ → K} {es : List (ℕ × ℕ)}

/-- The row of a pivot is zero afterwards. -/
theorem Pivots.residual_row (h : Pivots a es) {e : ℕ × ℕ} (he : e ∈ es) (j : ℕ) :
    residual a es e.1 j = 0 := by
  induction es generalizing a with
  | nil => cases he
  | cons d es ih =>
    rcases List.mem_cons.1 he with rfl | he
    · exact residual_zero_row (fun j => schur_pivot_row h.1 j) es j
    · exact ih h.2 he

/-- And so is its column. -/
theorem Pivots.residual_col (h : Pivots a es) {e : ℕ × ℕ} (he : e ∈ es) (i : ℕ) :
    residual a es i e.2 = 0 := by
  induction es generalizing a with
  | nil => cases he
  | cons d es ih =>
    rcases List.mem_cons.1 he with rfl | he
    · exact residual_zero_col (fun i => schur_pivot_col h.1 i) es i
    · exact ih h.2 he

private theorem Pivots.row_ne (h : Pivots a es) {i : ℕ} (hz : ∀ j, a i j = 0) :
    i ∉ es.map (·.1) := by
  induction es generalizing a with
  | nil => simp
  | cons e es ih =>
    intro hmem
    rcases List.mem_cons.1 hmem with rfl | hmem
    · exact h.1 (hz e.2)
    · exact ih h.2 (fun j => schur_zero_row hz e.1 e.2 j) hmem

private theorem Pivots.col_ne (h : Pivots a es) {j : ℕ} (hz : ∀ i, a i j = 0) :
    j ∉ es.map (·.2) := by
  induction es generalizing a with
  | nil => simp
  | cons e es ih =>
    intro hmem
    rcases List.mem_cons.1 hmem with rfl | hmem
    · exact h.1 (hz e.1)
    · exact ih h.2 (fun i => schur_zero_col hz e.1 e.2 i) hmem

/-- No row has two pivots. -/
theorem Pivots.nodup_rows (h : Pivots a es) : (es.map (·.1)).Nodup := by
  induction es generalizing a with
  | nil => exact List.nodup_nil
  | cons e es ih =>
    exact List.nodup_cons.2 ⟨h.2.row_ne fun j => schur_pivot_row h.1 j, ih h.2⟩

/-- No column has two pivots. -/
theorem Pivots.nodup_cols (h : Pivots a es) : (es.map (·.2)).Nodup := by
  induction es generalizing a with
  | nil => exact List.nodup_nil
  | cons e es ih =>
    exact List.nodup_cons.2 ⟨h.2.col_ne fun i => schur_pivot_col h.1 i, ih h.2⟩

end Sequence

section Rank

/-- The leading `m` rows and `n` columns as a matrix. -/
def block (m n : ℕ) (a : ℕ → ℕ → K) : Matrix (Fin m) (Fin n) K := .of fun i j => a i j

/-- Elimination with one pivot takes exactly one from the rank. -/
theorem rank_schur {m n : ℕ} {a : ℕ → ℕ → K} {p q : ℕ} (hp : p < m) (hq : q < n)
    (h : a p q ≠ 0) : (block m n a).rank = (block m n (schur a p q)).rank + 1 := by
  let A := block m n a
  let B := block m n (schur a p q)
  let v : Fin m → K := fun i => a i q
  let c : (Fin n → K) → K := fun x => (∑ j : Fin n, a p j * x j) / a p q
  have hAe : A.mulVec (Pi.single ⟨q, hq⟩ 1) = v := by
    funext i
    simp [A, block, v, Matrix.mulVec, dotProduct, Pi.single_apply]
  have hB : ∀ x, B.mulVec x = A.mulVec x - c x • v := by
    intro x
    funext i
    simp only [B, A, block, v, c, schur, Matrix.mulVec, dotProduct, Matrix.of_apply, Pi.sub_apply,
      Pi.smul_apply, smul_eq_mul]
    rw [div_mul_eq_mul_div, Finset.sum_mul, Finset.sum_div, ← Finset.sum_sub_distrib]
    refine Finset.sum_congr rfl fun j _ => ?_
    field_simp
  have hzero : ∀ x, B.mulVec x ⟨p, hp⟩ = 0 := by
    intro x
    simp only [B, block, Matrix.mulVec, dotProduct, Matrix.of_apply, schur_pivot_row h, zero_mul,
      Finset.sum_const_zero]
  have hsup : LinearMap.range A.mulVecLin = LinearMap.range B.mulVecLin ⊔ K ∙ v := by
    apply le_antisymm
    · rintro _ ⟨x, rfl⟩
      have hx : A.mulVec x = B.mulVec x + c x • v := by
        rw [hB, sub_add_cancel]
      rw [Matrix.mulVecLin_apply, hx]
      exact Submodule.add_mem_sup ⟨x, rfl⟩
        (Submodule.smul_mem _ _ (Submodule.mem_span_singleton_self v))
    · refine sup_le ?_ ?_
      · rintro _ ⟨x, rfl⟩
        refine ⟨x - c x • Pi.single ⟨q, hq⟩ 1, ?_⟩
        rw [Matrix.mulVecLin_apply, Matrix.mulVecLin_apply, Matrix.mulVec_sub, Matrix.mulVec_smul,
          hAe, hB]
      · rw [Submodule.span_singleton_le_iff_mem]
        exact ⟨Pi.single ⟨q, hq⟩ 1, hAe⟩
  have hinf : LinearMap.range B.mulVecLin ⊓ K ∙ v = ⊥ := by
    rw [eq_bot_iff]
    rintro w ⟨⟨x, hx⟩, hw⟩
    obtain ⟨s, rfl⟩ := Submodule.mem_span_singleton.1 hw
    have hs : s * a p q = 0 := by
      have := congrFun hx ⟨p, hp⟩
      rw [Matrix.mulVecLin_apply, hzero] at this
      exact this.symm
    have hs0 : s = 0 := (mul_eq_zero.1 hs).resolve_right h
    rw [hs0, zero_smul]
    exact Submodule.zero_mem _
  have hv : v ≠ 0 := fun hv => h (congrFun hv ⟨p, hp⟩)
  have hdim := Submodule.finrank_sup_add_finrank_inf_eq (LinearMap.range B.mulVecLin) (K ∙ v)
  rw [hinf, finrank_bot, finrank_span_singleton hv, ← hsup, Nat.add_zero] at hdim
  exact hdim

/-- A sequence of pivots takes its length from the rank. -/
theorem Pivots.rank_eq {m n : ℕ} {a : ℕ → ℕ → K} {es : List (ℕ × ℕ)} (h : Pivots a es)
    (hlt : ∀ e ∈ es, e.1 < m ∧ e.2 < n) :
    (block m n a).rank = es.length + (block m n (residual a es)).rank := by
  induction es generalizing a with
  | nil => exact (Nat.zero_add _).symm
  | cons e es ih =>
    obtain ⟨hp, hq⟩ := hlt e List.mem_cons_self
    rw [rank_schur hp hq h.1, ih h.2 fun e' he' => hlt e' (List.mem_cons_of_mem _ he'),
      List.length_cons, residual]
    omega

/-- The rank counts the pivots if they leave nothing inside the matrix. -/
theorem Pivots.rank_eq_length {m n : ℕ} {a : ℕ → ℕ → K} {es : List (ℕ × ℕ)} (h : Pivots a es)
    (hlt : ∀ e ∈ es, e.1 < m ∧ e.2 < n)
    (hzero : ∀ i j, i < m → j < n → residual a es i j = 0) :
    (block m n a).rank = es.length := by
  have hres : block m n (residual a es) = 0 := by
    ext i j
    exact hzero i j i.isLt j.isLt
  rw [h.rank_eq hlt, hres, Matrix.rank_zero, Nat.add_zero]

/-- As many pivots as there are rows or columns leave nothing. -/
theorem Pivots.residual_eq_zero {m n : ℕ} {a : ℕ → ℕ → K} {es : List (ℕ × ℕ)} (h : Pivots a es)
    (hlt : ∀ e ∈ es, e.1 < m ∧ e.2 < n) (hlen : min m n ≤ es.length) {i j : ℕ} (hi : i < m)
    (hj : j < n) : residual a es i j = 0 := by
  rcases Nat.le_total m n with hmn | hnm
  · have hperm : (es.map (·.1)).Perm (List.range m) := by
      have hsub : es.map (·.1) ⊆ List.range m := by
        intro i hi
        obtain ⟨e, he, rfl⟩ := List.mem_map.1 hi
        exact List.mem_range.2 (hlt e he).1
      refine (h.nodup_rows.subperm hsub).perm_of_length_le ?_
      rw [List.length_range, List.length_map]
      omega
    obtain ⟨e, he, rfl⟩ := List.mem_map.1 (hperm.mem_iff.2 (List.mem_range.2 hi))
    exact h.residual_row he j
  · have hperm : (es.map (·.2)).Perm (List.range n) := by
      have hsub : es.map (·.2) ⊆ List.range n := by
        intro j hj
        obtain ⟨e, he, rfl⟩ := List.mem_map.1 hj
        exact List.mem_range.2 (hlt e he).2
      refine (h.nodup_cols.subperm hsub).perm_of_length_le ?_
      rw [List.length_range, List.length_map]
      omega
    obtain ⟨e, he, rfl⟩ := List.mem_map.1 (hperm.mem_iff.2 (List.mem_range.2 hj))
    exact h.residual_col he i

end Rank

end ReducedSpace.Elimination
