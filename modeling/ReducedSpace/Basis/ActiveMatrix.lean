import ReducedSpace.Basis.Solver

/-!
# The active matrix of a sparse elimination

The part of a matrix that is not eliminated yet. Rows hold the nonzero values, columns only the set
of rows in which they have one, so that columns can be scanned and counted. All changes go through a
few operations on single positions, which keep rows and columns in step.
-/

namespace ReducedSpace

/-- Values by rows and their pattern by columns. -/
structure ActiveMatrix (α : Type) where
  rows : Array (SparseVec α)
  cols : Array IndexSet

namespace ActiveMatrix

variable {α : Type}

/-- The values of a row. -/
def row (a : ActiveMatrix α) (i : Nat) : SparseVec α := a.rows.getD i .empty

/-- The rows in which a column has a value. -/
def column (a : ActiveMatrix α) (j : Nat) : IndexSet := a.cols.getD j .empty

/-- Forgets the value at a position. -/
def erase (a : ActiveMatrix α) (i j : Nat) : ActiveMatrix α where
  rows := a.rows.modify i fun r => r.erase j
  cols := a.cols.modify j fun c => c.erase i

/-- Stores a value at a position. -/
def insert (a : ActiveMatrix α) (i j : Nat) (v : α) : ActiveMatrix α where
  rows := a.rows.modify i fun r => r.insert j v
  cols := a.cols.modify j fun c => c.add i

/-- Forgets a whole row. -/
def clearRow (a : ActiveMatrix α) (i : Nat) : ActiveMatrix α :=
  (a.row i).indices.foldl (fun a j => a.erase i j) a

/-- Forgets the value at a position but keeps the row in the pattern of the column. -/
def blank (a : ActiveMatrix α) (i j : Nat) : ActiveMatrix α :=
  { a with rows := a.rows.modify i fun r => r.erase j }

variable [Scalar α]

/-- The nonzero entries of a matrix. -/
def ofSparse (a : SparseMatrix α) : ActiveMatrix α :=
  let nonzero (i j : Nat) : Option α := (a.find? i j).filter fun v => !Scalar.isZero v
  { rows := tabulate a.rows fun i => .ofFn a.cols fun j => nonzero i j
    cols := tabulate a.cols fun j => .ofFn a.rows fun i => (nonzero i j).map fun _ => () }

/-- The value at a position, zero if there is none. -/
def value (a : ActiveMatrix α) (i j : Nat) : α := ((a.row i).find? j).getD 0

/-- Stores a value, or forgets the position if the value is zero. -/
def store (a : ActiveMatrix α) (i j : Nat) (v : α) : ActiveMatrix α :=
  if Scalar.isZero v then a.erase i j else a.insert i j v

/-- Subtracts from row `i` the multiple of the pivot row that cancels its value in column `q`. -/
def eliminateRow (pivotRow : SparseVec α) (pivot : α) (q : Nat) (a : ActiveMatrix α) (i : Nat) :
    ActiveMatrix α :=
  let l := a.value i q / pivot
  let a := a.erase i q
  if Scalar.isZero l then a
  else pivotRow.entries.foldl
    (fun a e => if e.1 = q then a else a.store i e.1 (a.value i e.1 - l * e.2)) a

/-- Eliminates with the pivot at `(p, q)`; row `p` and column `q` are empty afterwards. -/
def eliminate (a : ActiveMatrix α) (p q : Nat) : ActiveMatrix α :=
  let pivotRow := a.row p
  let pivot := a.value p q
  ((a.column q).erase p).indices.foldl (eliminateRow pivotRow pivot q) (a.clearRow p)

end ActiveMatrix

end ReducedSpace
