import ReducedSpace.Sparse.Matrix
import ReducedSpace.Error

/-!
# Partitions of variables and equations

A partition orders the variables and the equations so that the dependent variables and the
decomposed equations come first; the rank is the number of each. In that order the constraint
gradients fall into four blocks:

```text
             decomposed   undecomposed
dependent        Cᵀ            Eᵀ
independent      Nᵀ            Fᵀ
```
-/

namespace ReducedSpace

/-- An order of the variables, an order of the equations and the number of leading ones of each. -/
structure Partition where
  varPerm : Permutation
  equPerm : Permutation
  rank : Nat
  rank_le_n : rank ≤ varPerm.size
  rank_le_m : rank ≤ equPerm.size
  deriving DecidableEq

namespace Partition

variable {α : Type}

/-- The partition with the given orders, if the rank does not exceed their sizes. -/
def new (varPerm equPerm : Permutation) (rank : Nat) : Except (DecompError α) Partition :=
  if h : rank ≤ varPerm.size ∧ rank ≤ equPerm.size then
    .ok ⟨varPerm, equPerm, rank, h.1, h.2⟩
  else
    .error (.invalidPartition
      s!"rank {rank} exceeds n = {varPerm.size} or m = {equPerm.size}")

/-- The partition with the given tables of old indices; each must be a bijection. -/
def ofIndexMaps (varMap equMap : Array Nat) (rank : Nat) : Except (DecompError α) Partition :=
  match Permutation.ofMap? varMap with
  | none => .error (.invalidPartition "variable order is not a permutation")
  | some varPerm => match Permutation.ofMap? equMap with
    | none => .error (.invalidPartition "equation order is not a permutation")
    | some equPerm => new varPerm equPerm rank

/-- The partition that keeps the given order. -/
def leading (n m rank : Nat) : Except (DecompError α) Partition :=
  new (.identity n) (.identity m) rank

/-- The number of variables. -/
def n (p : Partition) : Nat := p.varPerm.size

/-- The number of equations. -/
def m (p : Partition) : Nat := p.equPerm.size

/-- The dependent variables. -/
def depVars (p : Partition) : Array Nat := p.varPerm.olds.extract 0 p.rank

/-- The independent variables. -/
def indepVars (p : Partition) : Array Nat := p.varPerm.olds.extract p.rank p.n

/-- The decomposed equations. -/
def decompEqus (p : Partition) : Array Nat := p.equPerm.olds.extract 0 p.rank

/-- The undecomposed equations. -/
def undecompEqus (p : Partition) : Array Nat := p.equPerm.olds.extract p.rank p.m

/-- Checks that a matrix is `n × m`. -/
def checkShape (gc : SparseMatrix α) (n m : Nat) : Except (DecompError α) Unit :=
  if gc.rows ≠ n then .error (.dimensionMismatch "Gc rows" n gc.rows)
  else if gc.cols ≠ m then .error (.dimensionMismatch "Gc columns" m gc.cols)
  else .ok ()

/-- Checks that a matrix has the size of the partition. -/
def checkGradients (p : Partition) (gc : SparseMatrix α) : Except (DecompError α) Unit :=
  checkShape gc p.n p.m

/-- The dependent rows and decomposed columns: the transpose of `C`. -/
def basisBlock (p : Partition) (gc : SparseMatrix α) : Checked (SparseMatrix α) :=
  gc.select p.depVars p.decompEqus

/-- The independent rows and decomposed columns: the transpose of `N`. -/
def nonbasisBlock (p : Partition) (gc : SparseMatrix α) : Checked (SparseMatrix α) :=
  gc.select p.indepVars p.decompEqus

/-- All rows in the order of the partition, and the undecomposed columns. -/
def undecomposedBlock (p : Partition) (gc : SparseMatrix α) : Checked (SparseMatrix α) :=
  gc.select p.varPerm.olds p.undecompEqus

section Vectors

variable [Scalar α]

/-- A vector over the variables in the order of the partition. -/
def permuteVars (p : Partition) (x : Array α) : Checked (Array α) := p.varPerm.apply x

/-- A vector over the variables back in the caller's order. -/
def unpermuteVars (p : Partition) (x : Array α) : Checked (Array α) := p.varPerm.applyInverse x

/-- A vector over the equations in the order of the partition. -/
def permuteEqus (p : Partition) (c : Array α) : Checked (Array α) := p.equPerm.apply c

/-- A vector over the equations back in the caller's order. -/
def unpermuteEqus (p : Partition) (c : Array α) : Checked (Array α) := p.equPerm.applyInverse c

end Vectors

end Partition

end ReducedSpace
