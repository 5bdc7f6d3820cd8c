import Mathlib
import ReducedSpace.Proofs.Decomposition.Identities
import ReducedSpace.Proofs.Exact.Lengths
import ReducedSpace.Decomposition.SelfTest

/-!
# The forms of the sensitivity matrix

A coordinate decomposition either forms `D` ahead of time, with a solve for every column of `N` that
is not zero, or applies it with a product and a solve each time. In exact arithmetic both are the
same operator, on vectors of the wrong length as well: they refuse them in the same way. As nothing
else of the decomposition depends on the form, everything that is computed from it is the same.
-/

namespace ReducedSpace

open Elimination

section Lengths

variable {α : Type} [Scalar α]

/-- `D` applied by solves checks its arguments where it first uses them. -/
theorem implicitSensitivity_checksLength {c : InverseOperator α} {n : SparseMatrix α}
    (hc : ∀ x : Array α, x.size ≠ n.rows → c.solveTranspose x = .error .length) :
    (implicitSensitivity c n).ChecksLength where
  apply_eq x hx := by
    have hx : x.size ≠ n.cols := hx
    show (n.mulAdd x (Vec.zero n.rows) (-1) 0 >>= c.solve) = _
    rw [SparseMatrix.mulAdd, Checked.sameLength_of_ne hx]
    rfl
  applyTranspose_eq x hx := by
    show (c.solveTranspose x >>= n.mulVecTranspose (-1)) = _
    rw [hc x hx]
    rfl

omit [Scalar α] in
theorem BasisMatrix.solve_of_size_ne {S N : Type} [Factorization S N α] (b : BasisMatrix S N)
    (o : Orientation) {x : Array α} (hx : x.size ≠ b.dim) : b.solve o x = .error .length := by
  rw [solve, Checked.sameLength_of_ne hx]
  rfl

end Lengths

variable {K : Type} [ExactScalar K]

namespace Decomposition

variable {S N : Type} [Factorization S N K]

/-- Two decompositions that give the same results, whatever is asked of them: they belong to the
same choice, their operators are equal as functions of vectors of any length, and so are the steps,
the residuals, the measures and the self-tests. Only the matrix `D` itself may be at hand in one and
not in the other. -/
structure Interchangeable (dec dec' : Decomposition K S N) : Prop where
  partition_eq : dec.partition = dec'.partition
  generation_eq : dec.generation = dec'.generation
  basis_eq : dec.basis = dec'.basis
  nonbasis_eq : dec.nonbasis = dec'.nonbasis
  kind_eq : dec.kind = dec'.kind
  d_eq : dec.d = dec'.d
  z_eq : dec.z = dec'.z
  uz_eq : dec.uz? = dec'.uz?
  y_eq : dec.y = dec'.y
  uy_eq : dec.uy? = dec'.uy?
  c_eq : dec.c = dec'.c
  cInverse_eq : dec.cInverse = dec'.cInverse
  r_eq : dec.r = dec'.r
  rInverse_eq : dec.rInverse = dec'.rInverse
  quasiNormalStep_eq : ∀ c, dec.quasiNormalStep c = dec'.quasiNormalStep c
  rangeResidual_eq : ∀ py c, dec.rangeResidual py c = dec'.rangeResidual py c
  rangeSpaceStep_eq : ∀ py, dec.rangeSpaceStep py = dec'.rangeSpaceStep py
  beta_eq : ∀ source py c, dec.beta source py c = dec'.beta source py c
  selfTest_eq : ∀ gc, dec.selfTest gc = dec'.selfTest gc
  verify_eq : ∀ gc tol, dec.verify gc tol = dec'.verify gc tol

section Forms

/-- A matrix with the products of `-C⁻¹ N` may take its place. -/
theorem interchangeable_of_toOperator_eq (dec : Decomposition K S N) {a : DenseMatrix K}
    (ha : a.toOperator = implicitSensitivity dec.cInverse dec.nonbasis) :
    Interchangeable { dec with sensitivity := .explicit a }
      { dec with sensitivity := .implicit } := by
  let e : Decomposition K S N := { dec with sensitivity := .explicit a }
  let i : Decomposition K S N := { dec with sensitivity := .implicit }
  have hd : e.d = i.d := ha
  have hz : e.z = i.z := congrArg nullSpace hd
  have htest : ∀ gc, e.selfTest gc = i.selfTest gc := by
    intro gc
    unfold selfTest
    rw [hd, hz]
    rfl
  exact {
    partition_eq := rfl
    generation_eq := rfl
    basis_eq := rfl
    nonbasis_eq := rfl
    kind_eq := rfl
    d_eq := hd
    z_eq := hz
    uz_eq := congrArg (fun z => dec.undecomposed.map fun gu => projected gu z) hz
    y_eq := rfl
    uy_eq := rfl
    c_eq := rfl
    cInverse_eq := rfl
    r_eq := rfl
    rInverse_eq := rfl
    quasiNormalStep_eq := fun _ => rfl
    rangeResidual_eq := fun _ _ => rfl
    rangeSpaceStep_eq := fun _ => rfl
    beta_eq := fun _ _ _ => rfl
    selfTest_eq := htest
    verify_eq := fun gc tol => by
      unfold verify
      rw [htest gc] }

/-- The matrix that the solves form, column by column, multiplies like the solves do. -/
theorem exists_formSensitivity {basis : BasisMatrix S N} {n : SparseMatrix K} {w : ℕ → ℕ → K}
    (h : Inverts basis.solve basis.dim w) (hrows : n.rows = basis.dim) :
    ∃ a, formSensitivity basis n = .ok a ∧ a.toOperator =
      implicitSensitivity ⟨basis.dim, basis.solve .transposed, basis.solve .plain⟩ n := by
  obtain ⟨inverse, -, hformed, himplicit⟩ := exists_sensitivityEntries (hrows ▸ h)
  refine ⟨_, hformed, (DenseMatrix.represents_ofFn _ _ _).operator_ext himplicit
    (DenseMatrix.checksLength _) (implicitSensitivity_checksLength fun x hx => ?_)⟩
  exact basis.solve_of_size_ne .plain (hrows ▸ hx)

end Forms

/-- With the factors of any nonsingular matrix, both forms of a coordinate decomposition are built
or neither is, for the same reason, and they are interchangeable. -/
theorem build_interchangeable {settings : Settings K} (hkind : settings.kind = .coordinate)
    {basis : BasisMatrix S N} {w : ℕ → ℕ → K} (h : Inverts basis.solve basis.dim w)
    (partition : Partition) (gc : SparseMatrix K) (generation : ℕ) :
    SameAnswer Interchangeable
      (build partition basis gc { settings with sensitivity := .explicit } generation)
      (build partition basis gc { settings with sensitivity := .implicit } generation) := by
  unfold build storeSensitivity
  simp only [hkind]
  by_cases hdim : basis.dim = partition.rank
  · rw [if_neg (not_not.2 hdim), if_neg (not_not.2 hdim)]
    refine (sameAnswer_self _).bind ?_
    rintro c _ ⟨-, rfl⟩
    refine (sameAnswer_self _).bind ?_
    rintro block _ ⟨hblock, rfl⟩
    obtain ⟨-, hcols, -⟩ := Partition.nonbasisBlock_spec (Attempt.ofChecked_eq_ok_iff.1 hblock)
    obtain ⟨a, ha, heq⟩ := exists_formSensitivity (n := block.transpose) h (hcols.trans hdim.symm)
    have hforms (u : Option (SparseMatrix K)) : Interchangeable
        ⟨partition, generation, basis, c, block.transpose, .explicit a, u⟩
        ⟨partition, generation, basis, c, block.transpose, .implicit, u⟩ :=
      interchangeable_of_toOperator_eq
        ⟨partition, generation, basis, c, block.transpose, .implicit, u⟩ heq
    rw [ha]
    by_cases hr : partition.rank < partition.m
    · rw [if_pos hr, if_pos hr]
      refine (sameAnswer_self _).bind ?_
      rintro u _ ⟨-, rfl⟩
      exact .ok (hforms u)
    · rw [if_neg hr, if_neg hr]
      exact .ok (hforms none)
  · rw [if_pos hdim, if_pos hdim]
    exact .error _

end Decomposition

end ReducedSpace
