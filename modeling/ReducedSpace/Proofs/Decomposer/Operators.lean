import Mathlib
import ReducedSpace.Proofs.Decomposer.RangeSpace
import ReducedSpace.Proofs.Decomposition.Spanning
import ReducedSpace.Proofs.Exact.Adjoint

/-!
# The operators of published decompositions

The matrices `Y` and `Z` of a published decomposition split the space of all variables, and every
operator that a decomposition hands out is linear with its transposed product as its adjoint. Both
hold whatever solver computes the decomposition, whatever calls lead to it and however its
sensitivity matrix is held.
-/

namespace ReducedSpace

open Decomposition

variable {K : Type} [ExactScalar K]

section Spanning

variable {S N : Type} [Factorization S N K] {dec : Decomposition K S N} {gc : SparseMatrix K}

/-- Every vector is `Y py + Z pz` for exactly one pair of vectors, and the decomposed gradients take
it to zero exactly if it is `Z pz` for exactly one vector. Vectors are in the order of the
partition. -/
theorem published_views_span (h : dec.PublishedFor gc) {v : Array K}
    (hv : v.size = dec.partition.n) :
    (∃! p : Array K × Array K, dec.Splits p ∧ dec.combined p.1 p.2 = .ok v) ∧
      (dec.gradientProduct gc v = .ok (Vec.zero dec.rank) ↔
        ∃! pz : Array K, pz.size = dec.partition.n - dec.rank ∧ dec.z.apply pz = .ok v) := by
  obtain ⟨settings, hderived⟩ := h.derived
  obtain ⟨d, hd⟩ := hderived.exists_sensitivity
  exact ⟨hd.existsUnique_combined hv, hd.null_iff_existsUnique hderived hv⟩

/-- A decomposition of the orthogonal kind: the parts of a vector, and a vector in the null
space. -/
theorem published_views_span_sample :
    let s : Decomposer (MarkowitzSolver Rat) Rat MarkowitzStructure (SparseLu Rat) :=
      .tall (.ofSettings (sampleSettings .markowitz)) .markowitz
    ∃ dec, (s.run [.set firstBasis tallGradients]).current = some dec ∧
      dec.PublishedFor tallGradients ∧ dec.kind = .orthogonal ∧
      dec.combined #[2, 0] #[0, 2] = .ok #[7, 4, -4, -3] ∧
      (∃! p : Array Rat × Array Rat, dec.Splits p ∧
        dec.combined p.1 p.2 = .ok #[7, 4, -4, -3]) ∧
      dec.gradientProduct tallGradients #[2, 2, 1, 0] = .ok (Vec.zero dec.rank) ∧
      ∃! pz : Array Rat, pz.size = dec.partition.n - dec.rank ∧
        dec.z.apply pz = .ok #[2, 2, 1, 0] := by
  intro s
  obtain ⟨dec, hdec, hpublished, -, hkind, hn, hcombined, hnull⟩ :=
    Decomposer.exists_published_tall s.solver .markowitz (.set firstBasis tallGradients)
      (fun dec => dec.kind = .orthogonal ∧ dec.partition.n = 4 ∧
        dec.combined #[2, 0] #[0, 2] = .ok #[7, 4, -4, -3] ∧
        dec.gradientProduct tallGradients #[2, 2, 1, 0] = .ok (Vec.zero dec.rank))
      (fun _ =>
        .markowitz (MarkowitzSolver.admissible_ofSettings (sampleSettings_valid .markowitz)))
      (by decide +kernel)
  have hspan := published_views_span hpublished (v := #[7, 4, -4, -3]) hn.symm
  have hbasis := published_views_span hpublished (v := #[2, 2, 1, 0]) hn.symm
  exact ⟨dec, hdec, hpublished, hkind, hcombined, hspan.1, hnull, hbasis.2.1 hnull⟩

end Spanning

section Linearity

/-- The operators that a decomposition hands out, with `D` in either form. -/
inductive Decomposition.View {S N : Type} [Factorization S N K] (dec : Decomposition K S N) :
    LinearOperator K → Prop
  | c : View dec dec.c
  | n : View dec dec.nonbasis.toOperator
  | d : View dec dec.d
  | implicit : View dec (implicitSensitivity dec.cInverse dec.nonbasis)
  | z : View dec dec.z
  | y : View dec dec.y
  | r : View dec dec.r
  | uy {op : LinearOperator K} (h : dec.uy? = some op) : View dec op
  | uz {op : LinearOperator K} (h : dec.uz? = some op) : View dec op

variable {S N : Type} [Factorization S N K] {dec : Decomposition K S N} {gc : SparseMatrix K}
  {settings : Settings K} {op : LinearOperator K}

/-- The sensitivity matrix that is applied by solves represents a matrix, also where another form
is stored. -/
theorem Decomposition.Derived.implicit_represents (h : dec.Derived gc settings) :
    ∃ d, (implicitSensitivity dec.cInverse dec.nonbasis).Represents dec.nonbasis.rows
      dec.nonbasis.cols d := by
  obtain ⟨inverse, -, hsolve⟩ := h.inverts.exists_inverse
  obtain ⟨hrows, -⟩ := h.size_nonbasis
  rw [← hrows] at hsolve
  exact ⟨_, implicitSensitivity_represents (hsolve .transposed) (hsolve .plain)⟩

/-- Equations are left undecomposed exactly where their gradients are kept. -/
theorem Decomposition.Derived.rank_lt_of_undecomposed (h : dec.Derived gc settings)
    {gu : SparseMatrix K} (hgu : dec.undecomposed = some gu) : dec.rank < dec.partition.m := by
  by_contra hle
  have hnone := h.built.undecomposed_none (Nat.not_lt.1 hle)
  rw [hgu] at hnone
  cases hnone

/-- Every view represents a matrix. -/
theorem Decomposition.Derived.view_represents (h : dec.Derived gc settings) (hview : dec.View op) :
    ∃ rows cols a, op.Represents rows cols a := by
  obtain ⟨d, hd⟩ := h.exists_sensitivity
  cases hview with
  | c => exact ⟨_, _, _, h.c_represents⟩
  | n => exact ⟨_, _, _, h.n_represents⟩
  | d => exact ⟨_, _, _, hd.represents⟩
  | implicit => exact ⟨_, _, h.implicit_represents⟩
  | z => exact ⟨_, _, _, hd.z_represents⟩
  | y => exact ⟨_, _, _, hd.y_represents⟩
  | r => exact ⟨_, _, _, hd.r_represents h⟩
  | uy hop =>
    obtain ⟨gu, hgu, -⟩ := Option.map_eq_some_iff.1 hop
    obtain ⟨op', hop', hrep⟩ := hd.uy_represents h (h.rank_lt_of_undecomposed hgu)
    obtain rfl : op' = op := Option.some.inj (hop'.symm.trans hop)
    exact ⟨_, _, _, hrep⟩
  | uz hop =>
    obtain ⟨gu, hgu, -⟩ := Option.map_eq_some_iff.1 hop
    obtain ⟨op', hop', hrep⟩ := hd.uz_represents h (h.rank_lt_of_undecomposed hgu)
    obtain rfl : op' = op := Option.some.inj (hop'.symm.trans hop)
    exact ⟨_, _, _, hrep⟩

/-- Every operator of the library is linear with its transposed product as its adjoint: stored
matrices and permutations, the matrices `Y` of either kind for every size and every `D`, and the
views of every published decomposition. -/
theorem operators_linear :
    (∀ a : SparseMatrix K, a.toOperator.Linear) ∧ (∀ a : DenseMatrix K, a.toOperator.Linear) ∧
      (∀ p : Permutation, (p.toOperator : LinearOperator K).Linear) ∧
      (∀ n r : ℕ, r ≤ n → (coordinateRange n r : LinearOperator K).Linear) ∧
      (∀ d : DenseMatrix K, (orthogonalRange d).Linear) ∧
      ∀ {S N : Type} [Factorization S N K] {dec : Decomposition K S N} {gc : SparseMatrix K},
        dec.PublishedFor gc → ∀ op, dec.View op → op.Linear := by
  refine ⟨fun a => a.represents.linear, fun a => a.represents.linear, fun p => p.represents.linear,
    fun n r hr => (coordinateRange_represents hr).linear,
    fun d => (orthogonalRange_represents d).linear, ?_⟩
  intro S N _ dec gc h op hview
  obtain ⟨settings, hderived⟩ := h.derived
  obtain ⟨rows, cols, a, hrep⟩ := hderived.view_represents hview
  exact hrep.linear

/-- The matrix `[I; 0]` of a size, and two views of a decomposition of the orthogonal kind with an
undecomposed equation. -/
theorem operators_linear_sample :
    let s : Decomposer (MarkowitzSolver Rat) Rat MarkowitzStructure (SparseLu Rat) :=
      .sample (.ofSettings (sampleSettings .markowitz))
        { sampleSettings .markowitz with kind := .orthogonal }
    2 ≤ 4 ∧ (coordinateRange 4 2 : LinearOperator Rat).Linear ∧
      ∃ dec uy, (s.run [.set sampleClient sampleGradients]).current = some dec ∧
        dec.PublishedFor sampleGradients ∧ dec.uy? = some uy ∧
        uy.apply #[1, 0] = .ok #[8] ∧ uy.applyTranspose #[1] = .ok #[8, 11 / 3] ∧
        uy.Linear ∧ (implicitSensitivity dec.cInverse dec.nonbasis).Linear := by
  intro s
  have hnew : Decomposer.new 3 3 s.solver s.settings = .ok s :=
    Decomposer.new_eq_ok_iff.2 ⟨by decide +kernel, .inl (Nat.le_refl 3), rfl⟩
  have hrun : (s.run [.set sampleClient sampleGradients]).current.bind (fun dec =>
      dec.uy?.map fun uy => decide (uy.apply #[1, 0] = .ok #[8] ∧
        uy.applyTranspose #[1] = .ok #[8, 11 / 3])) = some true := by
    decide +kernel
  obtain ⟨dec, hdec, hparts⟩ := Option.bind_eq_some_iff.1 hrun
  obtain ⟨uy, huy, hproducts⟩ := Option.map_eq_some_iff.1 hparts
  obtain ⟨happly, htranspose⟩ := of_decide_eq_true hproducts
  have hpublished : dec.PublishedFor sampleGradients :=
    .markowitz (MarkowitzSolver.admissible_ofSettings (sampleSettings_valid .markowitz))
      ⟨3, 3, _, _, _, hnew, hdec, Decomposer.lastGradients_first rfl hdec⟩
  obtain ⟨-, -, -, hrange, -, hview⟩ := operators_linear (K := Rat)
  exact ⟨by decide, hrange 4 2 (by decide), dec, uy, hdec, hpublished, huy, happly, htranspose,
    hview hpublished uy (.uy huy), hview hpublished _ .implicit⟩

end Linearity

end ReducedSpace
