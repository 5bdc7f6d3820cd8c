import ReducedSpace.Dense.Matrix

/-!
# Products of dense matrices

Sums of products in two fixed orders of summation. A *chained* sum starts with its first product and
adds each further product in front; a *blocked* sum runs eight interleaved sums over whole blocks of
eight and adds the products that remain one by one. With exact arithmetic both are the same sum.
-/

namespace ReducedSpace

variable {α : Type} [Scalar α]

/-- The sum of `f k * g k` for `k < n`, chained from the first product on. -/
def chainedSum (n : Nat) (f g : Nat → α) : α :=
  match n with
  | 0 => 0
  | n + 1 => (List.range n).foldl (fun s k => f (k + 1) * g (k + 1) + s) (f 0 * g 0)

/-- The sum of the products at `q, q + 8, …` over the whole blocks. -/
def laneSum (blocks : Nat) (f g : Nat → α) (q : Nat) : α :=
  (List.range blocks).foldl (fun s b => s + f (8 * b + q) * g (8 * b + q)) 0

/-- The sum of `f k * g k` for `k < n`, in eight lanes. -/
def blockedSum (n : Nat) (f g : Nat → α) : α :=
  let lane := laneSum (n / 8) f g
  let lanes := (List.range 4).foldl (fun s q => s + (lane q + lane (q + 4))) 0
  (List.range' (8 * (n / 8)) (n % 8)).foldl (fun s k => s + f k * g k) lanes

namespace DenseMatrix

/-- The product of two matrices. -/
def mul (a b : DenseMatrix α) : DenseMatrix α :=
  ofFn a.rows b.cols fun i j => chainedSum a.cols (a.entry i) fun k => b.entry k j

/-- The product with a vector of length `cols`. -/
def mulVecChained (a : DenseMatrix α) (x : Array α) : Array α :=
  tabulate a.rows fun i => chainedSum a.cols (a.entry i) fun k => x.getD k 0

/-- The matrix with one added to each entry of the diagonal. -/
def addIdentity (a : DenseMatrix α) : DenseMatrix α :=
  ofFn a.rows a.cols fun i j => if i = j then a.entry i j + 1 else a.entry i j

end DenseMatrix

end ReducedSpace
