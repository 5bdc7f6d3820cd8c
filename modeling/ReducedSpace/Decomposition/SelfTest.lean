import ReducedSpace.Decomposition.Steps

/-!
# Self-test of a decomposition

Three identities hold of every decomposition: `C D + N = 0`, `Gc(:, decomposed)ᵀ Z = 0` and
`Gc(:, decomposed)ᵀ Y = R`. The test measures how far each is from holding on a fixed probe vector,
relative to the size of the gradients. Products with the gradients are taken in the caller's order,
so that a mixed up permutation is found as well as a loss of accuracy.
-/

namespace ReducedSpace

/-- The relative residuals of the three identities. -/
structure SelfTest (α : Type) where
  /-- Of `C D + N = 0`. -/
  sensitivity : α
  /-- Of `Gc(:, decomposed)ᵀ Z = 0`. -/
  nullSpace : α
  /-- Of `Gc(:, decomposed)ᵀ Y = R`. -/
  rangeSpace : α
  deriving DecidableEq, Repr

namespace SelfTest

variable {α : Type} [Scalar α]

/-- The residuals with the names under which they are reported. -/
def named (t : SelfTest α) : List (String × α) :=
  [("C*D + N", t.sensitivity), ("Gc'*Z", t.nullSpace), ("Gc'*Y - R", t.rangeSpace)]

/-- The name and value of the worst residual, where a NaN counts as worse than anything before it.
Without a residual above zero it is the first name with zero. -/
def worst (t : SelfTest α) : String × α :=
  t.named.foldl
    (fun best e => if Scalar.isNaN e.2 || Scalar.lt best.2 e.2 then e else best) ("C*D + N", 0)

/-- The probe vector: signs alternate, and magnitudes run through `1, 3/2, 2`. -/
def probe (n : Nat) : Array α :=
  tabulate n fun j =>
    let sign : α := if j % 2 = 0 then 1 else -1
    sign * (1 + Scalar.ofNat (j % 3) * Scalar.half)

@[simp] theorem size_probe (n : Nat) : (probe n : Array α).size = n := size_tabulate _ _

/-- The size of a residual relative to the gradients and to the vector it was measured on. -/
def relative (scale : α) (residual x : Array α) : α :=
  Vec.normInf residual / (scale * (1 + Vec.normInf x))

end SelfTest

namespace Decomposition

variable {α S N : Type} [Scalar α] [Factorization S N α] (dec : Decomposition α S N)

omit [Factorization S N α] in
/-- The decomposed entries of `Gcᵀ w`, for `w` in the order of the partition. -/
def gradientProduct (gc : SparseMatrix α) (w : Array α) : Checked (Array α) := do
  let w ← dec.partition.unpermuteVars w
  let g ← gc.mulVecTranspose 1 w
  return dec.partition.decompEqus.map fun j => g.getD j 0

/-- The relative residuals of the identities for the gradients of the decomposition. -/
def selfTest (gc : SparseMatrix α) : Attempt (DecompError α) (SelfTest α) := do
  .ofExcept (dec.partition.checkGradients gc)
  let scale := 1 + gc.maxAbs
  let x := SelfTest.probe (dec.partition.n - dec.rank)
  let dx ← .ofChecked (dec.d.apply x)
  let cdx ← .ofChecked (dec.c.apply dx)
  let cdx ← .ofChecked (dec.nonbasis.mulAdd x cdx 1 1)
  let zx ← .ofChecked (dec.z.apply x)
  let gz ← .ofChecked (dec.gradientProduct gc zx)
  let x := SelfTest.probe dec.rank
  let yx ← .ofChecked (dec.y.apply x)
  let gy ← .ofChecked (dec.gradientProduct gc yx)
  let rx ← .ofChecked (dec.r.apply x)
  return {
    sensitivity := SelfTest.relative scale cdx dx
    nullSpace := SelfTest.relative scale gz zx
    rangeSpace := SelfTest.relative scale (Vec.sub gy rx) yx }

/-- The self-test as a check: its worst residual must be a number that does not exceed `tol`. -/
def verify (gc : SparseMatrix α) (tol : α) : Attempt (DecompError α) (SelfTest α) := do
  let t ← dec.selfTest gc
  let (name, value) := t.worst
  if Scalar.isNaN value || Scalar.lt tol value then Attempt.fail (.testFailed name value tol)
  else return t

end Decomposition

end ReducedSpace
