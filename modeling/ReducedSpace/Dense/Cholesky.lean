import ReducedSpace.Dense.Product

/-!
# Cholesky factorization

The factorization `S = L Lᵀ` of a symmetric positive definite matrix, of which only the lower
triangle is read. It fails as soon as a diagonal entry is not positive.
-/

namespace ReducedSpace

/-- The lower triangular factor of a matrix. -/
structure Cholesky (α : Type) where
  lower : DenseMatrix α

namespace Cholesky

variable {α : Type} [Scalar α]

/-- An entry of the remaining matrix in column `j`: the entry of `s` less the products of the
columns that are already final. -/
def remaining (s lower : DenseMatrix α) (j i : Nat) : α :=
  (List.range j).foldl (fun v k => -lower.entry j k * lower.entry i k + v) (s.entry i j)

/-- Adds column `j` to the factor, unless its diagonal entry is not positive. -/
def addColumn (s lower : DenseMatrix α) (j : Nat) : Option (DenseMatrix α) :=
  let column := tabulate s.rows fun i => if i < j then 0 else remaining s lower j i
  let d := column.getD j 0
  if Scalar.lt 0 d then
    let root := Scalar.sqrt d
    some (.ofFn s.rows s.rows fun i k =>
      if k ≠ j then lower.entry i k
      else if i < j then 0
      else if i = j then root
      else column.getD i 0 / root)
  else none

/-- The factorization of a matrix, column by column. -/
def factor? (s : DenseMatrix α) : Option (Cholesky α) :=
  ((List.range s.rows).foldlM (addColumn s) (.zero s.rows s.rows)).map fun lower => ⟨lower⟩

/-- Solves `L y = b` from the first row on. -/
def forward (c : Cholesky α) (b : Array α) : Array α :=
  Vec.sweep (List.range c.lower.rows)
    (fun i y => (List.range i).foldl (fun v k => -y.getD k 0 * c.lower.entry i k + v) (y.getD i 0)
      / c.lower.entry i i) b

/-- Solves `Lᵀ x = y` from the last row on. -/
def backward (c : Cholesky α) (y : Array α) : Array α :=
  let n := c.lower.rows
  Vec.sweep (List.range n).reverse
    (fun i x =>
      let known := blockedSum (n - (i + 1)) (fun t => c.lower.entry (i + 1 + t) i)
        fun t => x.getD (i + 1 + t) 0
      (x.getD i 0 - known) / c.lower.entry i i) y

/-- Solves with the factored matrix. -/
def solve (c : Cholesky α) (b : Array α) : Array α := c.backward (c.forward b)

end Cholesky

end ReducedSpace
