import ReducedSpace.Basis.Solver
import ReducedSpace.Dense.Cholesky
import ReducedSpace.Partition
import ReducedSpace.Settings

/-!
# Decompositions

Everything that is derived from one choice of a basis. In the order of the partition, with `n`
variables, `m` equations and rank `r`:

```text
C = Gc(dependent, decomposed)ᵀ        r × r
N = Gc(independent, decomposed)ᵀ      r × (n - r)
D = -C⁻¹ N                            r × (n - r)
```

The basis factors belong to `Cᵀ`. The sensitivity matrix `D` is either formed here, with one solve
per column of `N`, or applied by solves. The orthogonal kind forms it and also factors `I + Dᵀ D`.
-/

namespace ReducedSpace

/-- How `D` is held. -/
inductive StoredSensitivity (α : Type) where
  /-- Not at all; products solve with the basis. -/
  | implicit
  /-- As a matrix. -/
  | explicit (d : DenseMatrix α)
  /-- As a matrix, with the factors of `I + Dᵀ D` unless `D` has no columns. -/
  | orthogonal (d : DenseMatrix α) (gram : Option (Cholesky α))

/-- The matrices of one basis choice. -/
structure Decomposition (α S N : Type) where
  partition : Partition
  /-- The generation of the basis that the decomposition belongs to. -/
  generation : Nat
  /-- The factors of `Cᵀ`. -/
  basis : BasisMatrix S N
  /-- The values of `Cᵀ`, for products. -/
  basisBlock : SparseMatrix α
  /-- The matrix `N`. -/
  nonbasis : SparseMatrix α
  sensitivity : StoredSensitivity α
  /-- The undecomposed columns of the gradients in the order of the partition, if there are any. -/
  undecomposed : Option (SparseMatrix α)

namespace Decomposition

variable {α S N : Type}

section Building

variable [Scalar α] [Factorization S N α]

/-- A column of `D`: the negative solution for a column of `N`. A column whose entries are all zero
needs no solve. -/
def sensitivityColumn (basis : BasisMatrix S N) (n : SparseMatrix α) (j : Nat) :
    Checked (Array α) := do
  let rhs := tabulate n.rows fun i => n.entry i j
  if Scalar.isZero (Vec.normInf rhs) then return Vec.zero n.rows
  else return Vec.neg (← basis.solve .transposed rhs)

/-- The matrix `D`, column by column. -/
def formSensitivity (basis : BasisMatrix S N) (n : SparseMatrix α) : Checked (DenseMatrix α) := do
  let columns ← (List.range n.cols).mapM (sensitivityColumn basis n)
  return .ofColumns n.rows columns.toArray

/-- The factors of `I + Dᵀ D`. A failure names the rank as the pivot and the largest entry of `D` as
its size. -/
def factorGram (rank : Nat) (d : DenseMatrix α) :
    Except (DecompError α) (Option (Cholesky α)) :=
  if d.cols = 0 then .ok none
  else match Cholesky.factor? (d.transpose.mul d).addIdentity with
    | some gram => .ok (some gram)
    | none => .error (.numericallySingular rank d.maxAbs)

/-- `D` in the form that the settings ask for; the orthogonal kind always forms it. -/
def storeSensitivity (settings : Settings α) (rank : Nat) (basis : BasisMatrix S N)
    (n : SparseMatrix α) : Attempt (DecompError α) (StoredSensitivity α) :=
  match settings.kind, settings.sensitivity with
  | .coordinate, .implicit => return .implicit
  | .coordinate, .explicit => return .explicit (← .ofChecked (formSensitivity basis n))
  | .orthogonal, _ => do
    let d ← .ofChecked (formSensitivity basis n)
    return .orthogonal d (← .ofExcept (factorGram rank d))

/-- The decomposition of a matrix of gradients for a partition and the factors of its basis. -/
def build (partition : Partition) (basis : BasisMatrix S N) (gc : SparseMatrix α)
    (settings : Settings α) (generation : Nat) :
    Attempt (DecompError α) (Decomposition α S N) := do
  if basis.dim ≠ partition.rank then
    Attempt.fail (.dimensionMismatch "basis factorization" partition.rank basis.dim)
  else
    let basisBlock ← .ofChecked (partition.basisBlock gc)
    let nonbasisBlock ← .ofChecked (partition.nonbasisBlock gc)
    let nonbasis := nonbasisBlock.transpose
    let undecomposed ←
      if partition.rank < partition.m then
        (Attempt.ofChecked (partition.undecomposedBlock gc)).map some
      else pure none
    let sensitivity ← storeSensitivity settings partition.rank basis nonbasis
    return ⟨partition, generation, basis, basisBlock, nonbasis, sensitivity, undecomposed⟩

end Building

/-- The number of decomposed equations. -/
def rank (dec : Decomposition α S N) : Nat := dec.partition.rank

/-- The kind of the range-space basis. -/
def kind (dec : Decomposition α S N) : RangeBasis :=
  match dec.sensitivity with
  | .orthogonal .. => .orthogonal
  | _ => .coordinate

/-- The matrix `D`, if it was formed. -/
def formed? (dec : Decomposition α S N) : Option (DenseMatrix α) :=
  match dec.sensitivity with
  | .implicit => none
  | .explicit d => some d
  | .orthogonal d _ => some d

end Decomposition

end ReducedSpace
