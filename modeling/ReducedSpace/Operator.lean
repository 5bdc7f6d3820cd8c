import ReducedSpace.Dense.Matrix

/-!
# Linear operators

A linear operator is known by its products with vectors, in both orientations, and an invertible one
also by its solves. Every product checks the length of its argument. Stored matrices and
permutations are operators; `materialize` goes the other way and tabulates the products with the
unit vectors.
-/

namespace ReducedSpace

/-- Whether an operation uses a matrix or its transpose. -/
inductive Orientation where
  | plain
  | transposed
  deriving DecidableEq, Repr

/-- The other orientation. -/
def Orientation.flip : Orientation → Orientation
  | plain => transposed
  | transposed => plain

/-- Products with a matrix and with its transpose. -/
structure LinearOperator (α : Type) where
  rows : Nat
  cols : Nat
  /-- The product with a vector of length `cols`. -/
  apply : Array α → Checked (Array α)
  /-- The product of the transpose with a vector of length `rows`. -/
  applyTranspose : Array α → Checked (Array α)

/-- Solves with a square matrix and with its transpose. -/
structure InverseOperator (α : Type) where
  dim : Nat
  /-- The solution for a right-hand side of length `dim`. -/
  solve : Array α → Checked (Array α)
  /-- The solution of the transposed system. -/
  solveTranspose : Array α → Checked (Array α)

variable {α : Type}

/-- The product in a given orientation. -/
def LinearOperator.applyIn (op : LinearOperator α) : Orientation → Array α → Checked (Array α)
  | .plain => op.apply
  | .transposed => op.applyTranspose

/-- The solution in a given orientation. -/
def InverseOperator.solveIn (inv : InverseOperator α) : Orientation → Array α → Checked (Array α)
  | .plain => inv.solve
  | .transposed => inv.solveTranspose

/-- The number of columns in a given orientation. -/
def LinearOperator.colsIn (op : LinearOperator α) : Orientation → Nat
  | .plain => op.cols
  | .transposed => op.rows

/-- The number of rows in a given orientation. -/
def LinearOperator.rowsIn (op : LinearOperator α) : Orientation → Nat
  | .plain => op.rows
  | .transposed => op.cols

variable [Scalar α]

/-- The dense matrix whose columns are the products with the unit vectors. -/
def LinearOperator.materialize (op : LinearOperator α) (o : Orientation) :
    Checked (DenseMatrix α) := do
  let columns ← (List.range (op.colsIn o)).mapM fun j => op.applyIn o (Vec.unit (op.colsIn o) j)
  return .ofColumns (op.rowsIn o) columns.toArray

namespace SparseMatrix

/-- A vector times a factor; the factors zero and one do not multiply. -/
def scaled (beta : α) (y : Array α) : Array α :=
  if Scalar.isZero beta then Vec.zero y.size
  else if Scalar.eq beta 1 then y
  else y.map fun v => v * beta

/-- Adds `alpha` times the product with `x` to `y`, one stored entry after the other. -/
def accumulate (a : SparseMatrix α) (alpha : α) (x y : Array α) : Array α :=
  if Scalar.isZero alpha then y
  else a.toTriplets.foldl (fun y t => y.modify t.1 fun s => s + alpha * t.2.2 * x.getD t.2.1 0) y

/-- Adds `alpha` times the product of the transpose with `x` to `y`. -/
def accumulateTranspose (a : SparseMatrix α) (alpha : α) (x y : Array α) : Array α :=
  if Scalar.isZero alpha then y
  else a.toTriplets.foldl (fun y t => y.modify t.2.1 fun s => s + alpha * t.2.2 * x.getD t.1 0) y

theorem size_scaled (beta : α) (y : Array α) : (scaled beta y).size = y.size := by
  rw [scaled]
  split
  · exact Vec.size_zero _
  split
  · rfl
  · exact Array.size_map

/-- Adding a product to a vector keeps its length. -/
theorem size_accumulate (a : SparseMatrix α) (alpha : α) (x y : Array α) :
    (a.accumulate alpha x y).size = y.size := by
  rw [accumulate]
  split
  · rfl
  · exact size_foldl_modify _ _ (fun (t : Nat × Nat × α) s => s + alpha * t.2.2 * x.getD t.2.1 0) _

/-- Also in the other orientation. -/
theorem size_accumulateTranspose (a : SparseMatrix α) (alpha : α) (x y : Array α) :
    (a.accumulateTranspose alpha x y).size = y.size := by
  rw [accumulateTranspose]
  split
  · rfl
  · exact size_foldl_modify _ _ (fun (t : Nat × Nat × α) s => s + alpha * t.2.2 * x.getD t.1 0) _

/-- The vector `alpha * A * x + beta * y`. -/
def mulAdd (a : SparseMatrix α) (x y : Array α) (alpha beta : α) : Checked (Array α) := do
  Checked.sameLength a.cols x.size
  Checked.sameLength a.rows y.size
  return a.accumulate alpha x (scaled beta y)

/-- The vector `alpha * Aᵀ * x + beta * y`. -/
def mulAddTranspose (a : SparseMatrix α) (x y : Array α) (alpha beta : α) :
    Checked (Array α) := do
  Checked.sameLength a.rows x.size
  Checked.sameLength a.cols y.size
  return a.accumulateTranspose alpha x (scaled beta y)

/-- The combined product of vectors of the right sizes. -/
theorem mulAdd_eq_ok {a : SparseMatrix α} {x y : Array α} (hx : x.size = a.cols)
    (hy : y.size = a.rows) (alpha beta : α) :
    a.mulAdd x y alpha beta = .ok (a.accumulate alpha x (scaled beta y)) := by
  rw [mulAdd, hx, hy, Checked.sameLength_self, Checked.sameLength_self]
  rfl

/-- And the transposed one. -/
theorem mulAddTranspose_eq_ok {a : SparseMatrix α} {x y : Array α} (hx : x.size = a.rows)
    (hy : y.size = a.cols) (alpha beta : α) :
    a.mulAddTranspose x y alpha beta = .ok (a.accumulateTranspose alpha x (scaled beta y)) := by
  rw [mulAddTranspose, hx, hy, Checked.sameLength_self, Checked.sameLength_self]
  rfl

/-- The product `alpha * A * x`. -/
def mulVec (a : SparseMatrix α) (alpha : α) (x : Array α) : Checked (Array α) :=
  a.mulAdd x (Vec.zero a.rows) alpha 0

/-- The product `alpha * Aᵀ * x`. -/
def mulVecTranspose (a : SparseMatrix α) (alpha : α) (x : Array α) : Checked (Array α) :=
  a.mulAddTranspose x (Vec.zero a.cols) alpha 0

/-- A sparse matrix as an operator. -/
def toOperator (a : SparseMatrix α) : LinearOperator α where
  rows := a.rows
  cols := a.cols
  apply := a.mulVec 1
  applyTranspose := a.mulVecTranspose 1

end SparseMatrix

namespace DenseMatrix

/-- One entry of the product with a vector: the columns are added from left to right, and those that
meet a zero of the vector are left out. -/
def mulVecEntry (a : DenseMatrix α) (x : Array α) (i : Nat) : α :=
  (List.range a.cols).foldl
    (fun s j => let xj := x.getD j 0; if Scalar.isZero xj then s else s + a.entry i j * xj) 0

/-- One entry of the product of the transpose with a vector: a sum that starts at negative zero. -/
def mulVecTransposeEntry (a : DenseMatrix α) (x : Array α) (j : Nat) : α :=
  (List.range a.rows).foldl (fun s i => s + a.entry i j * x.getD i 0) (-0)

/-- The product with a vector. -/
def mulVec (a : DenseMatrix α) (x : Array α) : Checked (Array α) := do
  Checked.sameLength a.cols x.size
  return tabulate a.rows (a.mulVecEntry x)

/-- The product of the transpose with a vector. -/
def mulVecTranspose (a : DenseMatrix α) (x : Array α) : Checked (Array α) := do
  Checked.sameLength a.rows x.size
  return tabulate a.cols (a.mulVecTransposeEntry x)

/-- A dense matrix as an operator. -/
def toOperator (a : DenseMatrix α) : LinearOperator α where
  rows := a.rows
  cols := a.cols
  apply := a.mulVec
  applyTranspose := a.mulVecTranspose

end DenseMatrix

namespace Permutation

/-- A permutation as an operator. Its products read as much of the argument as they need, so only a
vector that is too short is refused. -/
def toOperator (p : Permutation) : LinearOperator α where
  rows := p.size
  cols := p.size
  apply x := do
    Checked.require (decide (p.size ≤ x.size)) .index
    return p.gather x
  applyTranspose x := do
    Checked.require (decide (p.size ≤ x.size)) .index
    return p.scatter x

end Permutation

end ReducedSpace
