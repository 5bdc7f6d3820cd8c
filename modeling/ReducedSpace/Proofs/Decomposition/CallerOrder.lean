import Mathlib
import ReducedSpace.Proofs.Decomposition.Steps

/-!
# Views in the caller's order

What callers see of a decomposition is a number of matrices and the step for a residual. Two
decompositions agree if the matrices have the same entries at the caller's indices and the steps are
the same. Decompositions of the same gradients for the same choice agree.
-/

namespace ReducedSpace

open Finset Elimination

variable {K : Type} [ExactScalar K]

section Views

/-- What callers see of a decomposition, whatever solver it comes from. -/
structure Views (K : Type) where
  partition : Partition
  kind : RangeBasis
  d : LinearOperator K
  z : LinearOperator K
  y : LinearOperator K
  r : LinearOperator K
  uy? : Option (LinearOperator K)
  uz? : Option (LinearOperator K)
  /-- The step in the space of all variables for a constraint residual. -/
  step : Array K → Attempt (DecompError K) (Array K)

/-- The views of a decomposition. -/
def Decomposition.views {S N : Type} [Factorization S N K] (dec : Decomposition K S N) :
    Views K where
  partition := dec.partition
  kind := dec.kind
  d := dec.d
  z := dec.z
  y := dec.y
  r := dec.r
  uy? := dec.uy?
  uz? := dec.uz?
  step := dec.step

/-- Two operators are matrices of the same size with the same entry at each pair of labels. A label
of a row has the position `row₁` in the first matrix and `row₂` in the second one, and so have the
labels of columns. -/
def SameMatrix (op₁ op₂ : LinearOperator K) (rows cols : ℕ) (row₁ row₂ col₁ col₂ : ℕ → ℕ) :
    Prop :=
  ∃ a₁ a₂ : ℕ → ℕ → K, op₁.Represents rows cols a₁ ∧ op₂.Represents rows cols a₂ ∧
    ∀ i j, row₁ i < rows → col₁ j < cols → a₁ (row₁ i) (col₁ j) = a₂ (row₂ i) (col₂ j)

/-- The same matrices and steps in the caller's order. Variables and decomposed equations are
labelled by the caller's indices, the columns of `Y` and `R` by the dependent variables. Independent
variables and undecomposed equations are labelled by their positions. -/
structure Views.Agree (v w : Views K) : Prop where
  d_same : SameMatrix v.d w.d v.partition.rank (v.partition.n - v.partition.rank)
    v.partition.varPerm.new w.partition.varPerm.new id id
  z_same : SameMatrix v.z w.z v.partition.n (v.partition.n - v.partition.rank)
    v.partition.varPerm.new w.partition.varPerm.new id id
  y_same : SameMatrix v.y w.y v.partition.n v.partition.rank
    v.partition.varPerm.new w.partition.varPerm.new
    v.partition.varPerm.new w.partition.varPerm.new
  r_same : SameMatrix v.r w.r v.partition.rank v.partition.rank
    v.partition.equPerm.new w.partition.equPerm.new
    v.partition.varPerm.new w.partition.varPerm.new
  uy_same : Option.Rel (fun u u' => SameMatrix u u' (v.partition.m - v.partition.rank)
    v.partition.rank id id v.partition.varPerm.new w.partition.varPerm.new) v.uy? w.uy?
  uz_same : Option.Rel (fun u u' => SameMatrix u u' (v.partition.m - v.partition.rank)
    (v.partition.n - v.partition.rank) id id id id) v.uz? w.uz?
  step_same : ∀ c, v.step c = w.step c
  step_ok : ∀ c : Array K, c.size = v.partition.m →
    ∃ x, v.step c = .ok x ∧ x.size = v.partition.n

end Views

namespace Decomposition

variable {S₁ N₁ S₂ N₂ : Type} [Factorization S₁ N₁ K] [Factorization S₂ N₂ K]
  {dec₁ : Decomposition K S₁ N₁} {dec₂ : Decomposition K S₂ N₂} {gc : SparseMatrix K}
  {settings₁ settings₂ : Settings K} {d₁ d₂ : ℕ → ℕ → K}

variable (h : Counterparts dec₁ dec₂ gc settings₁ settings₂ d₁ d₂)
include h

/-- Either both have undecomposed equations or neither has any. -/
theorem Counterparts.undecomposed_cases :
    dec₁.rank < dec₁.partition.m ∧ dec₂.rank < dec₂.partition.m ∨
      dec₁.undecomposed = none ∧ dec₂.undecomposed = none := by
  have hrank := h.rank_eq
  have hm := h.m_eq
  by_cases hlt : dec₁.rank < dec₁.partition.m
  · exact .inl ⟨hlt, by omega⟩
  · refine .inr ⟨h.derived₁.built.undecomposed_none (Nat.not_lt.1 hlt),
      h.derived₂.built.undecomposed_none ?_⟩
    show dec₂.partition.m ≤ dec₂.rank
    omega

/-- In the caller's order `Uy` is the same. -/
theorem Counterparts.uy_same :
    Option.Rel (fun u u' => SameMatrix u u' (dec₁.partition.m - dec₁.rank) dec₁.rank id id
      dec₁.partition.varPerm.new dec₂.partition.varPerm.new) dec₁.uy? dec₂.uy? := by
  rcases h.undecomposed_cases with ⟨hlt₁, hlt₂⟩ | ⟨hnone₁, hnone₂⟩
  · obtain ⟨u₁, hu₁, hrep₁⟩ := h.sensitivity₁.uy_represents h.derived₁ hlt₁
    obtain ⟨u₂, hu₂, hrep₂⟩ := h.sensitivity₂.uy_represents h.derived₂ hlt₂
    rw [h.m_eq, h.n_eq, h.rank_eq, ← h.kind_eq] at hrep₂
    rw [hu₁, hu₂]
    refine .some ⟨_, _, hrep₁, hrep₂, fun i w _ hw => ?_⟩
    exact (h.y_relabelled hw).sum_gradients h.var_lt_n_iff
      (h.equs.old_eq _ (Nat.le_add_right _ _)) gc
  · rw [uy?, uy?, hnone₁, hnone₂]
    exact .none

/-- And so is `Uz`. -/
theorem Counterparts.uz_same :
    Option.Rel (fun u u' => SameMatrix u u' (dec₁.partition.m - dec₁.rank)
      (dec₁.partition.n - dec₁.rank) id id id id) dec₁.uz? dec₂.uz? := by
  rcases h.undecomposed_cases with ⟨hlt₁, hlt₂⟩ | ⟨hnone₁, hnone₂⟩
  · obtain ⟨u₁, hu₁, hrep₁⟩ := h.sensitivity₁.uz_represents h.derived₁ hlt₁
    obtain ⟨u₂, hu₂, hrep₂⟩ := h.sensitivity₂.uz_represents h.derived₂ hlt₂
    rw [h.m_eq, h.n_eq, h.rank_eq] at hrep₂
    rw [hu₁, hu₂]
    refine .some ⟨_, _, hrep₁, hrep₂, fun i j _ hj => ?_⟩
    exact (h.z_relabelled hj).sum_gradients h.var_lt_n_iff
      (h.equs.old_eq _ (Nat.le_add_right _ _)) gc
  · rw [uz?, uz?, hnone₁, hnone₂]
    exact .none

/-- Counterparts are the same in the caller's order. -/
theorem Counterparts.views_agree : dec₁.views.Agree dec₂.views where
  d_same := by
    have hrep₂ := h.sensitivity₂.represents
    rw [h.n_eq, h.rank_eq] at hrep₂
    exact ⟨d₁, d₂, h.sensitivity₁.represents, hrep₂, fun v j hv hj => h.d_relabelled hj v hv⟩
  z_same := by
    have hrep₂ := h.sensitivity₂.z_represents
    rw [h.n_eq, h.rank_eq] at hrep₂
    exact ⟨_, _, h.sensitivity₁.z_represents, hrep₂, fun v j hv hj => h.z_relabelled hj v hv⟩
  y_same := by
    have hrep₂ := h.sensitivity₂.y_represents
    rw [h.n_eq, h.rank_eq, ← h.kind_eq] at hrep₂
    exact ⟨_, _, h.sensitivity₁.y_represents, hrep₂, fun v w hv hw => h.y_relabelled hw v hv⟩
  r_same := by
    have hrep₂ := h.sensitivity₂.r_represents h.derived₂
    rw [h.n_eq, h.rank_eq, ← h.kind_eq] at hrep₂
    refine ⟨_, _, h.sensitivity₁.r_represents h.derived₁, hrep₂, fun j w _ hw => ?_⟩
    exact (h.y_relabelled hw).sum_gradients h.var_lt_n_iff
      ((Permutation.old_new _ j).trans (Permutation.old_new _ j).symm) gc
  uy_same := h.uy_same
  uz_same := h.uz_same
  step_same := h.step_eq
  step_ok _ hc := by
    obtain ⟨x, ⟨hstep, -⟩, hsize⟩ := h.exists_step hc
    exact ⟨x, hstep, hsize⟩

end Decomposition

end ReducedSpace
