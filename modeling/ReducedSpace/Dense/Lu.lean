import ReducedSpace.Operator
import ReducedSpace.Error

/-!
# Dense LU factorization

Elimination with partial pivoting on a square matrix. Both factors are packed into one matrix, `U`
in the upper triangle and the multipliers of `L` below it. The row exchanges are kept as a list: at
step `k` row `k` was exchanged with row `swaps[k]`.
-/

namespace ReducedSpace

/-- Packed triangular factors and the row exchanges in front of them. -/
structure DenseLu (α : Type) where
  packed : DenseMatrix α
  swaps : Array Nat

namespace DenseLu

variable {α : Type} [Scalar α]

/-- The number of rows of the factored matrix. -/
def dim (f : DenseLu α) : Nat := f.packed.rows

/-- The row of the largest entry of column `k` on or below the diagonal, with its magnitude; the
first such row if there are several. -/
def pivotRow (a : DenseMatrix α) (k : Nat) : Nat × α :=
  (List.range' (k + 1) (a.rows - (k + 1))).foldl
    (fun best i =>
      let v := Scalar.abs (a.entry i k)
      if Scalar.lt best.2 v then (i, v) else best)
    (k, Scalar.abs (a.entry k k))

/-- Eliminates from column `k` on; `steps` columns remain. -/
def factorFrom (tol : α) : (steps k : Nat) → DenseMatrix α → Array Nat →
    Except (SolverError α) (DenseLu α)
  | 0, _, a, swaps => .ok ⟨a, swaps⟩
  | steps + 1, k, a, swaps =>
    let (p, magnitude) := pivotRow a k
    if Scalar.lt tol magnitude then
      factorFrom tol steps (k + 1) ((a.swapRows k p).eliminate k) (swaps.push p)
    else .error (.numericallySingular k magnitude)

/-- Factors a square matrix. It is singular when the largest candidate for a pivot is not above
`tol`. -/
def factor (a : DenseMatrix α) (tol : α) : Except (SolverError α) (DenseLu α) :=
  if a.cols = a.rows then factorFrom tol a.rows 0 a #[]
  else .error (.dimensionMismatch a.rows a.cols)

/-- The smallest and the largest magnitude on the diagonal of `U`. -/
def pivotRange (f : DenseLu α) : Checked (α × α) := do
  Checked.require (decide (f.dim ≤ f.packed.cols)) .index
  return (List.range f.dim).foldl
    (fun range k =>
      let v := Scalar.abs (f.packed.entry k k)
      (Scalar.min range.1 v, Scalar.max range.2 v))
    (Scalar.infinity, 0)

/-- The row exchanges that move something, as pairs of rows. -/
def exchanges (f : DenseLu α) : List (Nat × Nat) :=
  (f.swaps.toList.zipIdx.map fun e => (e.2, e.1)).filter fun e => e.1 != e.2

/-- Exchanges entries of a vector, one pair after the other. -/
def exchangeAll (pairs : List (Nat × Nat)) (b : Array α) : Array α :=
  pairs.foldl (fun b e => b.swapIfInBounds e.1 e.2) b

/-- Solves `L y = b`, with the unit diagonal of `L` implied. Zeros of `y` are passed over. -/
def solveLower (f : DenseLu α) (b : Array α) : Array α :=
  Vec.sweep (List.range f.dim)
    (fun i y => (List.range i).foldl
      (fun s k =>
        let yk := y.getD k 0
        if Scalar.isZero yk then s else s - f.packed.entry i k * yk) (y.getD i 0)) b

/-- Solves `U x = y` from the last row on. Zeros of `x` are passed over. -/
def solveUpper (f : DenseLu α) (y : Array α) : Array α :=
  Vec.sweep (List.range f.dim).reverse
    (fun i x => (List.range' (i + 1) (f.dim - (i + 1))).reverse.foldl
      (fun s k =>
        let xk := x.getD k 0
        if Scalar.isZero xk then s else s - f.packed.entry i k * xk) (x.getD i 0)
      / f.packed.entry i i) y

/-- Solves `Uᵀ z = b`. -/
def solveUpperTranspose (f : DenseLu α) (b : Array α) : Array α :=
  Vec.sweep (List.range f.dim)
    (fun k z => (List.range k).foldl (fun s i => s - f.packed.entry i k * z.getD i 0) (z.getD k 0)
      / f.packed.entry k k) b

/-- Solves `Lᵀ w = z` from the last row on. -/
def solveLowerTranspose (f : DenseLu α) (z : Array α) : Array α :=
  Vec.sweep (List.range f.dim).reverse
    (fun k w => (List.range' (k + 1) (f.dim - (k + 1))).foldl
      (fun s i => s - f.packed.entry i k * w.getD i 0) (w.getD k 0)) z

/-- What every solve demands: a right-hand side of the right length and row exchanges in range. -/
def checkSolve (f : DenseLu α) (b : Array α) : Checked Unit := do
  Checked.sameLength f.dim b.size
  Checked.require (decide (f.dim ≤ f.packed.cols)) .index
  Checked.require
    (f.exchanges.all fun e => decide (e.1 < f.dim) && decide (e.2 < f.dim)) .index

/-- Solves with the factored matrix. -/
def solve (f : DenseLu α) (b : Array α) : Checked (Array α) := do
  f.checkSolve b
  return f.solveUpper (f.solveLower (exchangeAll f.exchanges b))

/-- Solves with the transpose of the factored matrix. -/
def solveTranspose (f : DenseLu α) (b : Array α) : Checked (Array α) := do
  f.checkSolve b
  return exchangeAll f.exchanges.reverse (f.solveLowerTranspose (f.solveUpperTranspose b))

/-- Solves in a given orientation. -/
def solveIn (f : DenseLu α) : Orientation → Array α → Checked (Array α)
  | .plain => f.solve
  | .transposed => f.solveTranspose

end DenseLu

end ReducedSpace
