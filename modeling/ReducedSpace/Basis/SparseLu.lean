import ReducedSpace.Basis.ActiveMatrix

/-!
# Sparse LU factorization in natural order

Elimination of a square block with the pivots on its diagonal, in order. `L` is kept by columns with
its unit diagonal implied, `U` by rows with its diagonal apart. A vanishing update removes the value
but not the place in the pattern of its column.
-/

namespace ReducedSpace

/-- Triangular factors of a square block. -/
structure SparseLu (α : Type) where
  lowerCols : Array (SparseVec α)
  upperRows : Array (SparseVec α)
  diagonal : Array α

namespace SparseLu

variable {α : Type}

/-- Factors of the empty block. -/
def empty : SparseLu α := ⟨#[], #[], #[]⟩

/-- The number of rows of the factored block. -/
def dim (f : SparseLu α) : Nat := f.diagonal.size

/-- The number of stored entries, the diagonal of `U` included. -/
def storedCount (f : SparseLu α) : Nat :=
  let count := fun (n : Nat) (v : SparseVec α) => n + v.size
  f.dim + f.lowerCols.foldl count 0 + f.upperRows.foldl count 0

/-- A column of `L` below the diagonal. -/
def lowerCol (f : SparseLu α) (k : Nat) : SparseVec α := f.lowerCols.getD k .empty

/-- A row of `U` to the right of the diagonal. -/
def upperRow (f : SparseLu α) (k : Nat) : SparseVec α := f.upperRows.getD k .empty

/-- Adds the factors of one more step. -/
def push (f : SparseLu α) (lower upper : SparseVec α) (pivot : α) : SparseLu α :=
  ⟨f.lowerCols.push lower, f.upperRows.push upper, f.diagonal.push pivot⟩

variable [Scalar α]

/-- Stores an updated value; a zero leaves the pattern of the column as it is. -/
def update (a : ActiveMatrix α) (i j : Nat) (v : α) : ActiveMatrix α :=
  if Scalar.isZero v then a.blank i j else a.insert i j v

/-- Eliminates the value of row `i` in column `k`. A multiplier that is not zero joins the column of
`L`, and the row loses its multiple of the pivot row. -/
def eliminateRow (upper : SparseVec α) (pivot : α) (k : Nat)
    (s : ActiveMatrix α × SparseVec α) (i : Nat) : ActiveMatrix α × SparseVec α :=
  let (a, lower) := s
  let l := a.value i k / pivot
  let a := a.blank i k
  if Scalar.isZero l then (a, lower)
  else
    (upper.entries.foldl (fun a e => update a i e.1 (a.value i e.1 - l * e.2)) a, lower.insert i l)

/-- Eliminates with the pivots from `k` on; `steps` of them remain. -/
def factorFrom (tol : α) : (steps k : Nat) → ActiveMatrix α → SparseLu α →
    Except (SolverError α) (SparseLu α)
  | 0, _, _, f => .ok f
  | steps + 1, k, a, f =>
    let pivot := a.value k k
    let upper := (a.row k).erase k
    if Scalar.lt tol (Scalar.abs pivot) then
      let below := (a.column k).indices.filter fun i => decide (k < i)
      let (a, lower) := below.foldl (eliminateRow upper pivot k) (a, .empty)
      factorFrom tol steps (k + 1) a (f.push lower upper pivot)
    else .error (.numericallySingular k (Scalar.abs pivot))

/-- Factors a square block. Pivots up to the multiple `refactorTol` of its largest entry are
singular. -/
def factor (refactorTol : α) (block : SparseMatrix α) : Except (SolverError α) (SparseLu α) :=
  factorFrom (refactorTol * block.maxAbs) block.rows 0 (.ofSparse block) .empty

/-- Subtracts the multiple `x` of a sparse vector from a vector. -/
def subtractMultiple (v : SparseVec α) (x : α) (y : Array α) : Array α :=
  v.entries.foldl (fun y e => y.modify e.1 fun s => s - e.2 * x) y

/-- Subtracts the products of a sparse vector with the entries of a vector from a number. -/
def subtractProducts (v : SparseVec α) (s : α) (y : Array α) : α :=
  v.entries.foldl (fun s e => s - e.2 * y.getD e.1 0) s

/-- Solves `L y = b`. -/
def solveLower (f : SparseLu α) (b : Array α) : Array α :=
  (List.range f.dim).foldl (fun y k => subtractMultiple (f.lowerCol k) (y.getD k 0) y) b

/-- Solves `U x = y` from the last row on. -/
def solveUpper (f : SparseLu α) (y : Array α) : Array α :=
  Vec.sweep (List.range f.dim).reverse
    (fun k x => subtractProducts (f.upperRow k) (x.getD k 0) x / f.diagonal.getD k 0) y

/-- Solves `Uᵀ z = b`. -/
def solveUpperTranspose (f : SparseLu α) (b : Array α) : Array α :=
  (List.range f.dim).foldl
    (fun z k =>
      let zk := z.getD k 0 / f.diagonal.getD k 0
      subtractMultiple (f.upperRow k) zk (z.setIfInBounds k zk)) b

/-- Solves `Lᵀ w = z` from the last row on. -/
def solveLowerTranspose (f : SparseLu α) (z : Array α) : Array α :=
  Vec.sweep (List.range f.dim).reverse
    (fun k w => subtractProducts (f.lowerCol k) (w.getD k 0) w) z

/-- Solves in a given orientation; the right-hand side must reach as far as the factors. -/
def solveIn (f : SparseLu α) (o : Orientation) (b : Array α) : Checked (Array α) := do
  Checked.require (decide (f.dim ≤ b.size)) .index
  return match o with
    | .plain => f.solveUpper (f.solveLower b)
    | .transposed => f.solveLowerTranspose (f.solveUpperTranspose b)

end SparseLu

end ReducedSpace
