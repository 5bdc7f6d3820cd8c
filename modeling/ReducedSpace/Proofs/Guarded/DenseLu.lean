import ReducedSpace.Proofs.Dense.Packed
import ReducedSpace.Proofs.Guarded.DenseMatrix

/-!
# Dense factorization with guarded accesses

The search for a pivot reads the column on and below the diagonal, and the row it finds is exchanged
and eliminated with. Partial pivoting never leaves a square matrix. The factors that it forms are
square and exchange rows of the block, which is all that a solve demands of them.
-/

namespace ReducedSpace

variable {α : Type} [Scalar α]

/-- Square factors of `r` rows whose row exchanges stay inside them. -/
structure DenseLu.Shaped (f : DenseLu α) (r : Nat) : Prop where
  rows_eq : f.packed.rows = r
  cols_eq : f.packed.cols = r
  size_swaps : f.swaps.size = r
  swaps_lt : ∀ p ∈ f.swaps, p < r

namespace Guarded

/-- The row of the largest entry of column `k` on or below the diagonal, with its magnitude. -/
def pivotRow (a : DenseMatrix α) (k : Nat) : Checked (Nat × α) := do
  let first ← entry a k k
  (List.range' (k + 1) (a.rows - (k + 1))).foldlM
    (fun best i => do
      let v := Scalar.abs (← entry a i k)
      return if Scalar.lt best.2 v then (i, v) else best)
    (k, Scalar.abs first)

/-- Eliminates with partial pivoting from column `k` on; `steps` columns remain. -/
def factorDenseFrom (tol : α) : (steps k : Nat) → DenseMatrix α → Array Nat →
    Attempt (SolverError α) (DenseLu α)
  | 0, _, a, swaps => .ok ⟨a, swaps⟩
  | steps + 1, k, a, swaps => do
    let best ← .ofChecked (pivotRow a k)
    if Scalar.lt tol best.2 then
      let a ← .ofChecked (swapRows a k best.1)
      let a ← .ofChecked (reduce a k)
      factorDenseFrom tol steps (k + 1) a (swaps.push best.1)
    else Attempt.fail (.numericallySingular k best.2)

/-- Factors a square matrix with partial pivoting. -/
def factorDense (a : DenseMatrix α) (tol : α) : Attempt (SolverError α) (DenseLu α) :=
  if a.cols = a.rows then factorDenseFrom tol a.rows 0 a #[]
  else Attempt.fail (.dimensionMismatch a.rows a.cols)

variable {a : DenseMatrix α} {k : Nat}

/-- The search for the largest entry below a pivot reads within the column. -/
theorem pivotRow_eq (hsquare : a.cols = a.rows) (hk : k < a.rows) :
    pivotRow a k = .ok (DenseLu.pivotRow a k) := by
  rw [pivotRow]
  rw [entry_eq hk (hsquare ▸ hk), ok_bind]
  refine foldlM_eq_ok_of_forall (fun best i hi => ?_) _
  have hi : i < a.rows := by
    have := List.mem_range'_1.1 hi
    omega
  rw [entry_eq hi (hsquare ▸ hk)]
  rfl

/-- And it finds a row of the matrix. -/
theorem pivotRow_lt (hk : k < a.rows) : (DenseLu.pivotRow a k).1 < a.rows := by
  rw [DenseLu.pivotRow]
  refine List.foldlRecOn (motive := fun best : Nat × α => best.1 < a.rows) _ _ hk
    fun best hbest i hi => ?_
  have := List.mem_range'_1.1 hi
  dsimp only
  split
  · show i < a.rows
    omega
  · exact hbest

/-- By induction on the steps that are left, every access of them is in range. -/
theorem factorDenseFrom_eq {tol : α} {steps : Nat} {swaps : Array Nat} (hsquare : a.cols = a.rows)
    (hsteps : k + steps = a.rows) :
    factorDenseFrom tol steps k a swaps = .ofExcept (DenseLu.factorFrom tol steps k a swaps) := by
  induction steps generalizing k a swaps with
  | zero => rfl
  | succ steps ih =>
    have hk : k < a.rows := by omega
    have hswap : swapRows a k (DenseLu.pivotRow a k).1 =
        .ok (a.swapRows k (DenseLu.pivotRow a k).1) := if_pos ⟨hk, pivotRow_lt hk⟩
    have hreduce : reduce (a.swapRows k (DenseLu.pivotRow a k).1) k =
        .ok ((a.swapRows k (DenseLu.pivotRow a k).1).eliminate k) :=
      reduce_eq (a := a.swapRows k (DenseLu.pivotRow a k).1) hk (hsquare ▸ hk)
    rw [factorDenseFrom, DenseLu.factorFrom]
    rw [pivotRow_eq hsquare hk, Attempt.ofChecked_ok, ok_bind]
    dsimp only
    split
    · rw [hswap, Attempt.ofChecked_ok, ok_bind, hreduce, Attempt.ofChecked_ok, ok_bind]
      refine ih hsquare ?_
      show k + 1 + steps = a.rows
      omega
    · rfl

/-- Partial pivoting never leaves the matrix. -/
theorem factorDense_eq (a : DenseMatrix α) (tol : α) :
    factorDense a tol = .ofExcept (DenseLu.factor a tol) := by
  rw [factorDense, DenseLu.factor]
  split
  · rename_i hsquare
    exact factorDenseFrom_eq hsquare (Nat.zero_add _)
  · rfl

/-- The swaps that a factorization records are rows of the block. -/
private theorem shaped_factorDenseFrom {tol : α} {steps r : Nat} {swaps : Array Nat} {f : DenseLu α}
    (hrows : a.rows = r) (hcols : a.cols = r) (hsteps : k + steps = r) (hsize : swaps.size = k)
    (hlt : ∀ p ∈ swaps, p < r) (h : DenseLu.factorFrom tol steps k a swaps = .ok f) :
    f.Shaped r := by
  induction steps generalizing k a swaps with
  | zero =>
    cases h
    exact ⟨hrows, hcols, hsize.trans hsteps, hlt⟩
  | succ steps ih =>
    have hk : k < a.rows := by omega
    have hpush : (swaps.push (DenseLu.pivotRow a k).1).size = k + 1 := by
      rw [Array.size_push, hsize]
    rw [DenseLu.factorFrom] at h
    dsimp only at h
    split at h
    · refine ih (a := (a.swapRows k (DenseLu.pivotRow a k).1).eliminate k) hrows hcols
        (by omega) hpush (fun p hp => ?_) h
      rcases Array.mem_push.1 hp with hp | rfl
      · exact hlt p hp
      · exact hrows ▸ pivotRow_lt hk
    · cases h

/-- The factors that partial pivoting forms are shaped. -/
theorem shaped_factorDense {tol : α} {f : DenseLu α} (h : DenseLu.factor a tol = .ok f) :
    f.Shaped a.rows := by
  rw [DenseLu.factor] at h
  split at h
  · rename_i hsquare
    exact shaped_factorDenseFrom rfl hsquare (Nat.zero_add _) rfl (by simp) h
  · cases h

end Guarded

end ReducedSpace
