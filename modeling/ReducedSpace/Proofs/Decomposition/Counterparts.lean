import Mathlib
import ReducedSpace.Proofs.Decomposition.Identities

/-!
# Decompositions for the same choice

A choice of a basis says which variables are dependent and which equations are decomposed, but
decompositions for the same choice may put them in different orders, and their factors may come from
different solvers. Labelled by the caller's indices the matrices are the same nevertheless: `D` is
the only solution of `C D = -N`, and everything else is formed from `D` and the gradients by sums
over all variables or all dependent ones.
-/

namespace ReducedSpace

open Finset Elimination

variable {K : Type} [ExactScalar K]

section Labels

/-- Two functions of a position have the same value at each index that two permutations put in
front of position `s`. -/
def Relabelled (p q : Permutation) (s : ℕ) (f g : ℕ → K) : Prop :=
  ∀ i, p.new i < s → f (p.new i) = g (q.new i)

/-- A sum over the positions in front of which two permutations put the same indices. -/
theorem Relabelled.sum_eq {p q : Permutation} {s : ℕ} {f g : ℕ → K} (h : Relabelled p q s f g)
    (hs : ∀ i, p.new i < s ↔ q.new i < s) : ∑ k ∈ range s, f k = ∑ k ∈ range s, g k := by
  refine sum_nbij' (fun k => q.new (p.old k)) (fun k => p.new (q.old k)) ?_ ?_ ?_ ?_ ?_
  · intro k hk
    rw [mem_range] at hk ⊢
    rwa [← hs, p.new_old]
  · intro k hk
    rw [mem_range] at hk ⊢
    rwa [hs, q.new_old]
  · intro k _
    rw [q.old_new, p.new_old]
  · intro k _
    rw [p.old_new, q.new_old]
  · intro k hk
    have := h (p.old k)
    rw [p.new_old] at this
    exact this (mem_range.1 hk)

/-- The gradients of an equation multiply functions of the variables to the same sum. -/
theorem Relabelled.sum_gradients {p q : Partition} {s i₁ i₂ : ℕ} {f₁ f₂ : ℕ → K}
    (h : Relabelled p.varPerm q.varPerm s f₁ f₂)
    (hs : ∀ v, p.varPerm.new v < s ↔ q.varPerm.new v < s)
    (hi : p.equPerm.old i₁ = q.equPerm.old i₂) (gc : SparseMatrix K) :
    ∑ k ∈ range s, p.reordered gc k i₁ * f₁ k = ∑ k ∈ range s, q.reordered gc k i₂ * f₂ k := by
  have hterm : Relabelled p.varPerm q.varPerm s (fun k => p.reordered gc k i₁ * f₁ k)
      fun k => q.reordered gc k i₂ * f₂ k := by
    intro v hv
    dsimp only
    unfold Partition.reordered
    rw [h v hv, hi, Permutation.old_new, Permutation.old_new]
  exact hterm.sum_eq hs

/-- A nonsingular matrix has at most one solution. -/
theorem InversePair.eq_of_sum_eq {r : ℕ} {a b : ℕ → ℕ → K} (h : InversePair r a b) {x y : ℕ → K}
    (hxy : ∀ i, i < r → ∑ k ∈ range r, a k i * x k = ∑ k ∈ range r, a k i * y k) {k : ℕ}
    (hk : k < r) : x k = y k := by
  have hrecover (z : ℕ → K) : ∑ i ∈ range r, b i k * ∑ l ∈ range r, a l i * z l = z k := by
    calc ∑ i ∈ range r, b i k * ∑ l ∈ range r, a l i * z l
        = ∑ l ∈ range r, (∑ i ∈ range r, a l i * b i k) * z l := by
          simp only [mul_sum, sum_mul]
          rw [sum_comm]
          refine sum_congr rfl fun l _ => sum_congr rfl fun i _ => ?_
          ring
      _ = ∑ l ∈ range r, if l = k then z l else 0 := by
          refine sum_congr rfl fun l hl => ?_
          rw [h.mul_eq l k (mem_range.1 hl) hk, ite_mul, one_mul, zero_mul]
      _ = z k := by
          rw [sum_ite_eq', if_pos (mem_range.2 hk)]
  rw [← hrecover x, ← hrecover y]
  refine sum_congr rfl fun i hi => ?_
  rw [hxy i (mem_range.1 hi)]

end Labels

namespace Decomposition

variable {S₁ N₁ S₂ N₂ : Type} [Factorization S₁ N₁ K] [Factorization S₂ N₂ K]

/-- Two decompositions of the same gradients for the same choice, with their matrices `D`. -/
structure Counterparts (dec₁ : Decomposition K S₁ N₁) (dec₂ : Decomposition K S₂ N₂)
    (gc : SparseMatrix K) (settings₁ settings₂ : Settings K) (d₁ d₂ : ℕ → ℕ → K) : Prop where
  derived₁ : dec₁.Derived gc settings₁
  derived₂ : dec₂.Derived gc settings₂
  sensitivity₁ : dec₁.HasSensitivity gc d₁
  sensitivity₂ : dec₂.HasSensitivity gc d₂
  choice : dec₁.partition.SameChoice dec₂.partition
  kind_eq : dec₁.kind = dec₂.kind

variable {dec₁ : Decomposition K S₁ N₁} {dec₂ : Decomposition K S₂ N₂} {gc : SparseMatrix K}
  {settings₁ settings₂ : Settings K} {d₁ d₂ : ℕ → ℕ → K}

section Orders

variable (h : Counterparts dec₁ dec₂ gc settings₁ settings₂ d₁ d₂)
include h

/-- Counterparts have the same rank. -/
theorem Counterparts.rank_eq : dec₂.rank = dec₁.rank := (Partition.sameChoice_iff.1 h.choice).1.symm

/-- Their orders of the variables agree on which are dependent. -/
theorem Counterparts.vars :
    dec₁.partition.varPerm.AgreeFrom dec₂.partition.varPerm dec₁.rank :=
  (Partition.sameChoice_iff.1 h.choice).2.1

/-- Their orders of the equations agree on which are decomposed. -/
theorem Counterparts.equs :
    dec₁.partition.equPerm.AgreeFrom dec₂.partition.equPerm dec₁.rank :=
  (Partition.sameChoice_iff.1 h.choice).2.2

/-- They have the same number of variables. -/
theorem Counterparts.n_eq : dec₂.partition.n = dec₁.partition.n := h.vars.size_eq.symm

/-- And of equations. -/
theorem Counterparts.m_eq : dec₂.partition.m = dec₁.partition.m := h.equs.size_eq.symm

/-- And the same variables. -/
theorem Counterparts.var_lt_n_iff (i : ℕ) : dec₁.partition.varPerm.new i < dec₁.partition.n ↔
    dec₂.partition.varPerm.new i < dec₁.partition.n := by
  have h₁ : dec₁.partition.varPerm.new i < dec₁.partition.n ↔ i < dec₁.partition.n :=
    dec₁.partition.varPerm.new_lt_iff
  have h₂ : dec₂.partition.varPerm.new i < dec₂.partition.n ↔ i < dec₂.partition.n :=
    dec₂.partition.varPerm.new_lt_iff
  rw [h₁, ← h.n_eq, h₂]

/-- The solutions for the same right-hand side are the same: the second one, in the first order,
solves the first system. -/
theorem Counterparts.solution_relabelled {x₁ x₂ b₁ b₂ : ℕ → K}
    (hx₁ : ∀ i, i < dec₁.rank →
      ∑ k ∈ range dec₁.rank, dec₁.partition.reordered gc k i * x₁ k = b₁ i)
    (hx₂ : ∀ i, i < dec₁.rank →
      ∑ k ∈ range dec₁.rank, dec₂.partition.reordered gc k i * x₂ k = b₂ i)
    (hb : Relabelled dec₁.partition.equPerm dec₂.partition.equPerm dec₁.rank b₁ b₂) :
    Relabelled dec₁.partition.varPerm dec₂.partition.varPerm dec₁.rank x₁ x₂ := by
  obtain ⟨inverse, hpair, -⟩ := h.derived₁.inverts.exists_inverse
  let y (k : ℕ) : K := x₂ (dec₂.partition.varPerm.new (dec₁.partition.varPerm.old k))
  have hy : Relabelled dec₁.partition.varPerm dec₂.partition.varPerm dec₁.rank y x₂ := by
    intro v _
    show x₂ (dec₂.partition.varPerm.new (dec₁.partition.varPerm.old _)) = _
    rw [Permutation.old_new]
  intro v hv
  rw [← hy v hv]
  refine hpair.eq_of_sum_eq (fun i hi => ?_) hv
  let j := dec₁.partition.equPerm.old i
  have hj : dec₁.partition.equPerm.new j = i := dec₁.partition.equPerm.new_old i
  have hlt : dec₂.partition.equPerm.new j < dec₁.rank := by
    rw [← h.equs.new_lt_iff, hj]
    exact hi
  have hold : dec₁.partition.equPerm.old i =
      dec₂.partition.equPerm.old (dec₂.partition.equPerm.new j) :=
    (dec₂.partition.equPerm.old_new j).symm
  rw [hx₁ i hi, hy.sum_gradients (fun _ => h.vars.new_lt_iff) hold gc, hx₂ _ hlt,
    ← hb j (hj ▸ hi), hj]

end Orders

section Matrices

variable (h : Counterparts dec₁ dec₂ gc settings₁ settings₂ d₁ d₂)
include h

/-- The columns of `D` are the same under the labels of the variables. -/
theorem Counterparts.d_relabelled {j : ℕ} (hj : j < dec₁.partition.n - dec₁.rank) :
    Relabelled dec₁.partition.varPerm dec₂.partition.varPerm dec₁.rank (fun k => d₁ k j)
      fun k => d₂ k j := by
  have hd₂ : ∀ i, i < dec₁.rank → ∑ k ∈ range dec₁.rank,
      dec₂.partition.reordered gc k i * d₂ k j =
        -dec₂.partition.reordered gc (dec₁.rank + j) i := by
    intro i hi
    have hd := h.sensitivity₂.c_mul_d i j
    rw [h.rank_eq, h.n_eq] at hd
    exact hd hi hj
  refine h.solution_relabelled (fun i hi => h.sensitivity₁.c_mul_d i j hi hj) hd₂ fun l _ => ?_
  unfold Partition.reordered
  rw [h.vars.old_eq _ (Nat.le_add_right _ _), Permutation.old_new, Permutation.old_new]

/-- And those of `Z`. -/
theorem Counterparts.z_relabelled {j : ℕ} (hj : j < dec₁.partition.n - dec₁.rank) :
    Relabelled dec₁.partition.varPerm dec₂.partition.varPerm dec₁.partition.n
      (fun k => stackedIdentity dec₁.rank d₁ k j) fun k => stackedIdentity dec₁.rank d₂ k j := by
  intro v _
  dsimp only
  unfold stackedIdentity
  by_cases hv : dec₁.partition.varPerm.new v < dec₁.rank
  · rw [if_pos hv, if_pos (h.vars.new_lt_iff.1 hv)]
    exact h.d_relabelled hj v hv
  · rw [h.vars.new_eq (Nat.not_lt.1 hv), if_neg hv, if_neg hv]

/-- A column of `Y` belongs to a dependent variable, and for the same variable it is the same. -/
theorem Counterparts.y_relabelled {w : ℕ} (hw : dec₁.partition.varPerm.new w < dec₁.rank) :
    Relabelled dec₁.partition.varPerm dec₂.partition.varPerm dec₁.partition.n
      (fun k => rangeEntries dec₁.kind dec₁.rank d₁ k (dec₁.partition.varPerm.new w))
      fun k => rangeEntries dec₁.kind dec₁.rank d₂ k (dec₂.partition.varPerm.new w) := by
  have hinjective (p : Permutation) (v : ℕ) : p.new v = p.new w ↔ v = w :=
    ⟨fun heq => p.inverse.old_injective heq, fun heq => heq ▸ rfl⟩
  intro v hv
  dsimp only
  cases dec₁.kind with
  | coordinate =>
    unfold rangeEntries leadingIdentity
    dsimp only
    simp only [hinjective]
  | orthogonal =>
    unfold rangeEntries identityStacked
    dsimp only
    simp only [hinjective]
    by_cases hlt : dec₁.partition.varPerm.new v < dec₁.rank
    · rw [if_pos hlt, if_pos (h.vars.new_lt_iff.1 hlt)]
    · rw [h.vars.new_eq (Nat.not_lt.1 hlt), if_neg hlt, if_neg hlt]
      exact congrArg Neg.neg (h.d_relabelled (by omega) w hw)

end Matrices

end Decomposition

end ReducedSpace
