import Mathlib
import ReducedSpace.Proofs.Basis.StoredZeros
import ReducedSpace.Proofs.Decomposer.Correspondence
import ReducedSpace.Proofs.Decomposition.CallerOrder
import ReducedSpace.Proofs.Decomposition.RelatedParts
import ReducedSpace.Proofs.Decomposition.StoredForms

/-!
# Stored zeros in a decomposition

In exact arithmetic a matrix multiplies by its dense values, so decompositions whose blocks differ
in stored zeros only have the same views: they are equal as functions of vectors of any length, and
so are the steps and the self-tests. Such decompositions are built from gradients that differ in
stored zeros, if the factors differ in nothing that a solve looks at.
-/

namespace ReducedSpace

open Finset

variable {K : Type} [ExactScalar K]

namespace SparseMatrix

variable {a a' : SparseMatrix K}

/-- A value that is not stored counts as zero. -/
theorem denseValue_eq_getD (v : Option K) : denseValue v = v.getD 0 := by
  cases v with
  | none => rfl
  | some v => exact zero_add v

/-- Matrices with the same values have the same entries. -/
theorem SameValues.entry_eq (h : a.SameValues a') (i j : ℕ) : a.entry i j = a'.entry i j := by
  have hvalue := h.value_eq i j
  rwa [denseValue_eq_getD, denseValue_eq_getD] at hvalue

/-- Products look at the dense values only. -/
theorem SameValues.mulAdd_eq (h : a.SameValues a') (x y : Array K) (alpha beta : K) :
    a.mulAdd x y alpha beta = a'.mulAdd x y alpha beta := by
  by_cases hsize : x.size = a.cols ∧ y.size = a.rows
  · obtain ⟨hx, hy⟩ := hsize
    rw [SparseMatrix.mulAdd_eq a hx hy,
      SparseMatrix.mulAdd_eq a' (hx.trans h.cols_eq) (hy.trans h.rows_eq), h.rows_eq, h.cols_eq]
    simp only [h.entry_eq]
  · rw [mulAdd_of_size_ne a hsize, mulAdd_of_size_ne a' (h.rows_eq ▸ h.cols_eq ▸ hsize)]

/-- And the same transposed products. -/
theorem SameValues.mulAddTranspose_eq (h : a.SameValues a') (x y : Array K) (alpha beta : K) :
    a.mulAddTranspose x y alpha beta = a'.mulAddTranspose x y alpha beta := by
  by_cases hsize : x.size = a.rows ∧ y.size = a.cols
  · obtain ⟨hx, hy⟩ := hsize
    rw [SparseMatrix.mulAddTranspose_eq a hx hy,
      SparseMatrix.mulAddTranspose_eq a' (hx.trans h.rows_eq) (hy.trans h.cols_eq), h.rows_eq,
      h.cols_eq]
    simp only [h.entry_eq]
  · rw [mulAddTranspose_of_size_ne a hsize,
      mulAddTranspose_of_size_ne a' (h.rows_eq ▸ h.cols_eq ▸ hsize)]

/-- The product alone is the case of nothing to add. -/
theorem SameValues.mulVec_eq (h : a.SameValues a') (alpha : K) :
    a.mulVec alpha = a'.mulVec alpha := by
  funext x
  rw [mulVec, mulVec, h.mulAdd_eq, h.rows_eq]

/-- In either orientation. -/
theorem SameValues.mulVecTranspose_eq (h : a.SameValues a') (alpha : K) :
    a.mulVecTranspose alpha = a'.mulVecTranspose alpha := by
  funext x
  rw [mulVecTranspose, mulVecTranspose, h.mulAddTranspose_eq, h.cols_eq]

/-- Blocks of matrices with the same values have the same values, or cannot be formed. -/
theorem blockRelation_sameValues : BlockRelation (SameValues (α := K)) where
  select {a a'} h rows cols := by
    rw [SparseMatrix.select, SparseMatrix.select, h.rows_eq, h.cols_eq]
    split
    · exact .ok (h.submatrix rows cols)
    · exact .error _
  transpose {a a'} h :=
    ⟨h.cols_eq, h.rows_eq, fun i j => by
      rw [find?_transpose, find?_transpose]
      exact h.value_eq j i⟩

/-- Projections onto a basis depend on the values only. -/
theorem SameValues.projected_eq (h : a.SameValues a') (basis : LinearOperator K) :
    projected a basis = projected a' basis := by
  rw [projected, projected, h.cols_eq, h.mulVec_eq, h.mulVecTranspose_eq]

/-- So does a sensitivity that is applied by solves. -/
theorem SameValues.implicitSensitivity_eq (h : a.SameValues a') (c : InverseOperator K) :
    implicitSensitivity c a = implicitSensitivity c a' := by
  rw [implicitSensitivity, implicitSensitivity, h.rows_eq, h.cols_eq, h.mulVec_eq,
    h.mulVecTranspose_eq]

end SparseMatrix

/-- The same dimension and factors, and structures that are equal after `forget`. -/
structure BasisMatrix.SameFactors {S N : Type} (forget : S → S) (b b' : BasisMatrix S N) :
    Prop where
  dim_eq : b.dim = b'.dim
  symbolic_eq : forget b.symbolic = forget b'.symbolic
  numeric_eq : b.numeric = b'.numeric

/-- What is forgotten is nothing that a solve looks at. -/
def KeepsSolves {S : Type} (N : Type) {α : Type} [Factorization S N α] (forget : S → S) : Prop :=
  ∀ (symbolic : S) (numeric : N) (o : Orientation) (x : Array α),
    Factorization.solve (forget symbolic) numeric o x = Factorization.solve symbolic numeric o x

namespace Decomposition

variable {S N : Type} [Factorization S N K] {forget : S → S}

/-- Two decompositions that give the same results: they belong to the same choice, and their
operators are equal as functions of vectors of any length. -/
structure SameResults (dec dec' : Decomposition K S N) : Prop where
  generation_eq : dec.generation = dec'.generation
  views_eq : dec.views = dec'.views
  formed_eq : dec.formed? = dec'.formed?
  c_eq : dec.c = dec'.c
  cInverse_eq : dec.cInverse = dec'.cInverse
  rInverse_eq : dec.rInverse = dec'.rInverse
  quasiNormalStep_eq : ∀ c, dec.quasiNormalStep c = dec'.quasiNormalStep c
  rangeResidual_eq : ∀ py c, dec.rangeResidual py c = dec'.rangeResidual py c
  rangeSpaceStep_eq : ∀ py, dec.rangeSpaceStep py = dec'.rangeSpaceStep py
  beta_eq : ∀ source py c, dec.beta source py c = dec'.beta source py c

/-- Decompositions whose parts differ in stored zeros, and in what `forget` takes away. -/
abbrev SameParts (forget : S → S) : Decomposition K S N → Decomposition K S N → Prop :=
  RelatedParts SparseMatrix.SameValues (BasisMatrix.SameFactors forget)

omit [Factorization S N K] in
/-- Every decomposition has the parts of itself. -/
theorem SameParts.refl (forget : S → S) (dec : Decomposition K S N) : SameParts forget dec dec where
  partition_eq := rfl
  generation_eq := rfl
  basis := ⟨rfl, rfl, rfl⟩
  basisBlock := .refl _
  nonbasis := .refl _
  sensitivity_eq := rfl
  undecomposed := by
    cases dec.undecomposed with
    | none => exact .none
    | some u => exact .some (.refl u)

variable {dec dec' : Decomposition K S N}

omit [ExactScalar K] in
/-- The same factors solve alike, whatever the structure remembers. -/
theorem solve_eq_of_sameFactors {α : Type} [Factorization S N α] (hforget : KeepsSolves N forget)
    {b b' : BasisMatrix S N} (h : b.SameFactors forget b') : b.solve = b'.solve := by
  funext o x
  rw [BasisMatrix.solve, BasisMatrix.solve, h.dim_eq, h.numeric_eq, ← hforget b.symbolic,
    h.symbolic_eq, hforget]

section Views

omit [Factorization S N K]

variable (h : SameParts forget dec dec')
include h

/-- Decompositions with the same parts have the same view `C`. -/
theorem SameParts.c_eq : dec.c = dec'.c := by
  rw [c, c, h.basis.dim_eq, h.basisBlock.mulVec_eq, h.basisBlock.mulVecTranspose_eq]

/-- The same `R`. -/
theorem SameParts.r_eq : dec.r = dec'.r := by
  rw [r, r, h.woodbury_eq, h.c_eq]

/-- The same `Uy`. -/
theorem SameParts.uy_eq : dec.uy? = dec'.uy? := by
  have hundecomposed := h.undecomposed
  rw [uy?, uy?, h.y_eq]
  generalize dec.undecomposed = u at hundecomposed ⊢
  generalize dec'.undecomposed = u' at hundecomposed ⊢
  cases hundecomposed with
  | none => rfl
  | some hu => exact congrArg some (hu.projected_eq _)

variable [Factorization S N K] (hforget : KeepsSolves N forget)
include hforget

/-- The same solves with `C`. -/
theorem SameParts.cInverse_eq : dec.cInverse = dec'.cInverse := by
  rw [cInverse, cInverse, h.basis.dim_eq, solve_eq_of_sameFactors hforget h.basis]

/-- The same `D`. -/
theorem SameParts.d_eq : dec.d = dec'.d := by
  rw [d, d, h.formed_eq, h.cInverse_eq hforget, h.nonbasis.implicitSensitivity_eq]

/-- The same `Z`, which is made of `D`. -/
theorem SameParts.z_eq : dec.z = dec'.z := congrArg nullSpace (h.d_eq hforget)

/-- The same `Uz`. -/
theorem SameParts.uz_eq : dec.uz? = dec'.uz? := by
  have hundecomposed := h.undecomposed
  rw [uz?, uz?, h.z_eq hforget]
  generalize dec.undecomposed = u at hundecomposed ⊢
  generalize dec'.undecomposed = u' at hundecomposed ⊢
  cases hundecomposed with
  | none => rfl
  | some hu => exact congrArg some (hu.projected_eq _)

/-- And the same solves with `R`. -/
theorem SameParts.rInverse_eq : dec.rInverse = dec'.rInverse := by
  rw [rInverse, rInverse, h.woodbury_eq, h.cInverse_eq hforget]

/-- The views do not tell such decompositions apart. -/
theorem SameParts.sameResults : dec.SameResults dec' := by
  have hstep : ∀ c, dec.quasiNormalStep c = dec'.quasiNormalStep c := by
    intro c
    rw [quasiNormalStep, quasiNormalStep, decomposedResidual, decomposedResidual, h.partition_eq,
      h.rInverse_eq hforget]
  have hrange : ∀ py, dec.rangeSpaceStep py = dec'.rangeSpaceStep py := by
    intro py
    rw [rangeSpaceStep, rangeSpaceStep, checkStep, checkStep, rank, rank, h.partition_eq, h.y_eq]
  have hresidual : ∀ py c, dec.rangeResidual py c = dec'.rangeResidual py c := by
    intro py c
    rw [rangeResidual, rangeResidual, decomposedResidual, decomposedResidual, checkStep, checkStep,
      rank, rank, h.partition_eq, h.r_eq]
  have hviews : dec.views = dec'.views := by
    have hsteps : dec.step = dec'.step := by
      funext c
      rw [step, step, hstep, funext hrange]
    rw [views, views, h.partition_eq, h.kind_eq, h.d_eq hforget, h.z_eq hforget, h.y_eq, h.r_eq,
      h.uy_eq, h.uz_eq hforget, hsteps]
  refine ⟨h.generation_eq, hviews, h.formed_eq, h.c_eq, h.cInverse_eq hforget,
    h.rInverse_eq hforget, hstep, hresidual, hrange, fun source py c => ?_⟩
  rw [beta, beta, decomposedResidual, decomposedResidual, checkStep, checkStep, rank, rank,
    h.partition_eq]
  simp only [hresidual]

/-- Nor does the self-test. -/
theorem SameParts.verify_eq {gc gc' : SparseMatrix K} (hgc : gc.SameValues gc') (tol : K) :
    dec.verify gc tol = dec'.verify gc' tol := by
  have hcheck : (dec'.partition.checkGradients gc : Except (DecompError K) Unit) =
      dec'.partition.checkGradients gc' := by
    rw [Partition.checkGradients, Partition.checkGradients, Partition.checkShape,
      Partition.checkShape, hgc.rows_eq, hgc.cols_eq]
  have hproduct : dec.gradientProduct gc = dec'.gradientProduct gc' := by
    funext w
    rw [gradientProduct, gradientProduct, h.partition_eq, hgc.mulVecTranspose_eq]
  have htest : dec.selfTest gc = dec'.selfTest gc' := by
    unfold selfTest
    simp only [hcheck, hproduct, hgc.maxAbs_eq, rank, h.partition_eq, h.d_eq hforget, h.c_eq,
      h.z_eq hforget, h.y_eq, h.r_eq, h.nonbasis.mulAdd_eq]
  rw [verify, verify, htest]

end Views

section Building

variable {gc gc' : SparseMatrix K} {basis basis' : BasisMatrix S N}

/-- The columns of `D` are solves, so they depend on the factors and the values of `N` only. -/
theorem formSensitivity_congr (hforget : KeepsSolves N forget)
    (hbasis : basis.SameFactors forget basis') {n n' : SparseMatrix K} (hn : n.SameValues n') :
    formSensitivity basis n = formSensitivity basis' n' := by
  have hcolumn : sensitivityColumn basis n = sensitivityColumn basis' n' := by
    funext j
    unfold sensitivityColumn
    simp only [hn.rows_eq, hn.entry_eq, solve_eq_of_sameFactors hforget hbasis]
  rw [formSensitivity, formSensitivity, hn.rows_eq, hn.cols_eq, hcolumn]

/-- Whichever form of `D` the settings ask for. -/
theorem storeSensitivity_congr (hforget : KeepsSolves N forget)
    (hbasis : basis.SameFactors forget basis') {n n' : SparseMatrix K} (hn : n.SameValues n')
    (settings : Settings K) (rank : ℕ) :
    storeSensitivity settings rank basis n = storeSensitivity settings rank basis' n' := by
  rw [storeSensitivity, storeSensitivity, formSensitivity_congr hforget hbasis hn]

/-- Gradients that differ in stored zeros are prepared alike. -/
theorem prepare_sameParts (hforget : KeepsSolves N forget)
    (hbasis : basis.SameFactors forget basis') (hgc : gc.SameValues gc') (partition : Partition)
    (settings : Settings K) (generation : ℕ) :
    SameAnswer (SameParts forget)
      (Decomposer.prepare settings partition basis gc generation)
      (Decomposer.prepare settings partition basis' gc' generation) := by
  have hbuild := build_relatedParts SparseMatrix.blockRelation_sameValues hgc hbasis.dim_eq hbasis
    partition (fun _ _ hn => storeSensitivity_congr hforget hbasis hn settings partition.rank)
    generation
  refine hbuild.bind fun dec dec' (h : SameParts forget dec dec') => ?_
  rw [h.verify_eq hforget hgc]
  split
  · exact (sameAnswer_self _).bind fun _ _ _ => .ok h
  · exact .ok h

end Building

end Decomposition

end ReducedSpace
