import ReducedSpace.Proofs.Basis.Answers
import ReducedSpace.Proofs.Guarded.DenseLu
import ReducedSpace.Proofs.Guarded.Permutation

/-!
# Complete pivoting with guarded accesses

The search for a pivot reads the entries that remain and looks up their rows, and the pivot it finds
is one of them. The exchanges that bring it to the diagonal and the step of elimination stay inside
the matrix, which keeps its size.
-/

namespace ReducedSpace.Guarded

open PivotedMatrix (remaining better)

variable {α : Type} [Scalar α]

/-- The largest magnitude among the remaining entries. -/
def largest (a : DenseMatrix α) (k : Nat) : Checked α :=
  (remaining a k).foldlM (fun acc e => do return Scalar.max acc (Scalar.abs (← entry a e.1 e.2))) 0

/-- The better of the best candidate so far and the entry at a position. -/
def improve (s : PivotedMatrix α) (hints : AnalysisHints) (bound : α) (best : Option (DensePivot α))
    (e : Nat × Nat) : Checked (Option (DensePivot α)) := do
  let magnitude := Scalar.abs (← entry s.matrix e.1 e.2)
  if Scalar.lt magnitude bound then return best
  else
    let preferred := hints.isPreferred (← s.rowPerm.oldIndex e.1)
    if better preferred magnitude best then return some ⟨preferred, magnitude, e.1, e.2⟩
    else return best

/-- The best of the remaining entries whose magnitude is at least `bound`. -/
def bestPivot (s : PivotedMatrix α) (hints : AnalysisHints) (bound : α) (k : Nat) :
    Checked (Option (DensePivot α)) :=
  (remaining s.matrix k).foldlM (improve s hints bound) none

/-- Moves an entry to the diagonal and eliminates below it. -/
def pivot (s : PivotedMatrix α) (k p q : Nat) : Checked (PivotedMatrix α) := do
  let matrix ← swapRows s.matrix k p
  let rowPerm ← exchange s.rowPerm k p
  let matrix ← swapCols matrix k q
  let colPerm ← exchange s.colPerm k q
  let matrix ← reduce matrix k
  return ⟨matrix, rowPerm, colPerm⟩

/-- The next elimination step, if an acceptable pivot is left. -/
def step (s : PivotedMatrix α) (hints : AnalysisHints) (u absTol : α) (k : Nat) :
    Checked (Option (PivotedMatrix α)) := do
  let top ← largest s.matrix k
  if Scalar.le top absTol || Scalar.isZero top then return none
  else match ← bestPivot s hints (u * top) k with
    | none => return none
    | some best => return some (← pivot s k best.row best.col)

/-- Eliminates from step `k` on, at most `steps` times. -/
def run (hints : AnalysisHints) (u absTol : α) : (steps k : Nat) → PivotedMatrix α →
    Checked (Nat × PivotedMatrix α)
  | 0, k, s => .ok (k, s)
  | steps + 1, k, s => do
    match ← step s hints u absTol k with
    | none => return (k, s)
    | some s => run hints u absTol steps (k + 1) s

/-- The leading square block, which must be inside the matrix. -/
def leading (a : DenseMatrix α) (r : Nat) : Checked (DenseMatrix α) :=
  if r ≤ a.rows ∧ r ≤ a.cols then .ok (a.leading r r) else .error .index

/-- Packed factors with one row exchange for each row. -/
def packed (matrix : DenseMatrix α) (swaps : Array Nat) : Checked (DenseLu α) := do
  Checked.sameLength matrix.rows swaps.size
  return ⟨matrix, swaps⟩

/-- Analysis with complete pivoting. -/
def analyzeDense (solver : DenseSolver α) (a : SparseMatrix α) (hints : AnalysisHints) :
    Attempt (SolverError α) (Analysis DenseStructure (DenseLu α)) := do
  let u := thresholdForAttempt solver.pivotThreshold hints.attempt
  let absTol := solver.rankTol * a.maxAbs
  let matrix ← .ofChecked (toDense a)
  let (rank, s) ← .ofChecked (run hints u absTol (min a.rows a.cols) 0 (.start matrix))
  if rank < hints.requiredRank then Attempt.fail (.singularBasis rank hints.requiredRank)
  else
    let block ← .ofChecked (leading s.matrix rank)
    let lu ← .ofChecked (packed block (Array.range rank))
    let rowPerm ← .ofChecked (bijection s.rowPerm.olds)
    let colPerm ← .ofChecked (bijection s.colPerm.olds)
    return ⟨rowPerm, colPerm, rank, rank, ⟨rank⟩, lu⟩

/-- Refactorization with partial pivoting. -/
def refactorDense (solver : DenseSolver α) (block : SparseMatrix α) (symbolic : DenseStructure) :
    Attempt (SolverError α) (BasisMatrix DenseStructure (DenseLu α)) := do
  if block.rows = symbolic.dim ∧ block.cols = symbolic.dim then
    let matrix ← .ofChecked (toDense block)
    let lu ← factorDense matrix (solver.refactorTol * block.maxAbs)
    return ⟨symbolic.dim, symbolic, lu⟩
  else Attempt.fail (.dimensionMismatch symbolic.dim (max block.rows block.cols))

/-- A matrix of the given size with orders of its rows and columns. -/
structure Fits (s : PivotedMatrix α) (m n : Nat) : Prop where
  rows_eq : s.matrix.rows = m
  cols_eq : s.matrix.cols = n
  size_rowPerm : s.rowPerm.size = m
  size_colPerm : s.colPerm.size = n

variable {s : PivotedMatrix α} {hints : AnalysisHints} {u absTol : α} {m n k : Nat}

omit [Scalar α] in
private theorem lt_of_mem_remaining {a : DenseMatrix α} {e : Nat × Nat} (he : e ∈ remaining a k) :
    e.1 < a.rows ∧ e.2 < a.cols := by
  rw [remaining] at he
  simp only [List.mem_flatMap, List.mem_map, List.mem_range'_1] at he
  obtain ⟨j, hj, i, hi, rfl⟩ := he
  exact ⟨by dsimp only; omega, by dsimp only; omega⟩

/-- Every access of the search for the largest magnitude is in range. -/
theorem largest_eq (a : DenseMatrix α) (k : Nat) :
    largest a k = .ok (PivotedMatrix.largest a k) := by
  refine foldlM_eq_ok_of_forall (fun acc e he => ?_) 0
  obtain ⟨hi, hj⟩ := lt_of_mem_remaining he
  rw [entry_eq hi hj]
  rfl

/-- The search keeps to the remaining entries, and the pivot is one of them. -/
theorem bestPivot_eq (h : Fits s m n) (hints : AnalysisHints) (bound : α) (k : Nat) :
    bestPivot s hints bound k = .ok (s.bestPivot hints bound k) ∧
      ∀ best, s.bestPivot hints bound k = some best → best.row < m ∧ best.col < n := by
  constructor
  · refine foldlM_eq_ok_of_forall (fun best e he => ?_) none
    obtain ⟨hi, hj⟩ := lt_of_mem_remaining he
    have hold : s.rowPerm.oldIndex e.1 = .ok (s.rowPerm.old e.1) := by
      refine if_pos ?_
      rw [h.size_rowPerm, ← h.rows_eq]
      exact hi
    rw [improve]
    rw [entry_eq hi hj, hold, ok_bind]
    dsimp only
    split
    · rfl
    · rw [ok_bind]
      split <;> rfl
  · rw [PivotedMatrix.bestPivot]
    refine List.foldlRecOn
      (motive := fun b : Option (DensePivot α) =>
        ∀ best, b = some best → best.row < m ∧ best.col < n)
      _ _ (fun best hbest => by cases hbest) fun b hb e he => ?_
    obtain ⟨hi, hj⟩ := lt_of_mem_remaining he
    dsimp only
    split
    · exact hb
    · split
      · intro best hbest
        cases hbest
        exact ⟨h.rows_eq ▸ hi, h.cols_eq ▸ hj⟩
      · exact hb

/-- A pivot inside the matrix is brought to a diagonal position inside it. -/
theorem pivot_eq (h : Fits s m n) {p q : Nat} (hkm : k < m) (hkn : k < n) (hp : p < m)
    (hq : q < n) :
    pivot s k p q = .ok (s.pivot k p q) ∧ Fits (s.pivot k p q) m n := by
  have hrows := h.rows_eq
  have hcols := h.cols_eq
  have hswapRows : swapRows s.matrix k p = .ok (s.matrix.swapRows k p) :=
    if_pos ⟨hrows.symm ▸ hkm, hrows.symm ▸ hp⟩
  have hswapCols : swapCols (s.matrix.swapRows k p) k q =
      .ok ((s.matrix.swapRows k p).swapCols k q) :=
    if_pos ⟨hcols.symm ▸ hkn, hcols.symm ▸ hq⟩
  have hreduce : reduce ((s.matrix.swapRows k p).swapCols k q) k =
      .ok (((s.matrix.swapRows k p).swapCols k q).eliminate k) :=
    reduce_eq (a := (s.matrix.swapRows k p).swapCols k q) (hrows.symm ▸ hkm) (hcols.symm ▸ hkn)
  have hrowPerm := exchange_eq (h.size_rowPerm.symm ▸ hkm) (h.size_rowPerm.symm ▸ hp)
  have hcolPerm := exchange_eq (h.size_colPerm.symm ▸ hkn) (h.size_colPerm.symm ▸ hq)
  constructor
  · rw [pivot]
    rw [hswapRows, ok_bind, hrowPerm, ok_bind, hswapCols, ok_bind, hcolPerm, ok_bind, hreduce]
    rfl
  · refine ⟨hrows, hcols, ?_, ?_⟩
    · exact (Permutation.size_swap _ _ _).trans h.size_rowPerm
    · exact (Permutation.size_swap _ _ _).trans h.size_colPerm

/-- Every access of a step is, and the matrix still fits its orders then. -/
theorem step_eq (h : Fits s m n) (hints : AnalysisHints) (u absTol : α) (hkm : k < m)
    (hkn : k < n) :
    step s hints u absTol k = .ok (s.step hints u absTol k) ∧
      ∀ t, s.step hints u absTol k = some t → Fits t m n := by
  obtain ⟨hbest, hlt⟩ := bestPivot_eq h hints (u * PivotedMatrix.largest s.matrix k) k
  rw [step, PivotedMatrix.step]
  rw [largest_eq, ok_bind]
  split
  · exact ⟨rfl, fun t ht => by cases ht⟩
  · rw [hbest, ok_bind]
    cases hs : s.bestPivot hints (u * PivotedMatrix.largest s.matrix k) k with
    | none => exact ⟨rfl, fun t ht => by cases ht⟩
    | some best =>
      obtain ⟨hp, hq⟩ := hlt best hs
      obtain ⟨hpivot, hfits⟩ := pivot_eq h hkm hkn hp hq
      dsimp only
      rw [hpivot]
      refine ⟨rfl, fun t ht => ?_⟩
      cases ht
      exact hfits

/-- The whole elimination keeps to the matrix and its orders. -/
theorem run_eq (hints : AnalysisHints) (u absTol : α) {steps : Nat} (h : Fits s m n)
    (hm : k + steps ≤ m) (hn : k + steps ≤ n) :
    run hints u absTol steps k s = .ok (PivotedMatrix.run hints u absTol steps k s) ∧
      Fits (PivotedMatrix.run hints u absTol steps k s).2 m n := by
  induction steps generalizing k s with
  | zero => exact ⟨rfl, h⟩
  | succ steps ih =>
    obtain ⟨hstep, hfits⟩ := step_eq h hints u absTol (k := k) (by omega) (by omega)
    rw [run, PivotedMatrix.run]
    rw [hstep, ok_bind]
    cases hs : s.step hints u absTol k with
    | none => exact ⟨rfl, h⟩
    | some t => exact ih (hfits t hs) (by omega) (by omega)

/-- The leading block is taken within the matrix. -/
theorem leading_eq {a : DenseMatrix α} {r : Nat} (hr : r ≤ a.rows) (hc : r ≤ a.cols) :
    leading a r = .ok (a.leading r r) :=
  if_pos ⟨hr, hc⟩

omit [Scalar α] in
/-- Factors are packed with a row exchange for each row. -/
theorem packed_eq {matrix : DenseMatrix α} {swaps : Array Nat} (h : matrix.rows = swaps.size) :
    packed matrix swaps = .ok ⟨matrix, swaps⟩ :=
  bind_eq_ok_iff.2 ⟨(), Checked.sameLength_eq_ok_iff.2 h, rfl⟩

/-- A dense analysis never accesses anything out of range. -/
theorem analyzeDense_eq (solver : DenseSolver α) (a : SparseMatrix α) (hints : AnalysisHints) :
    analyzeDense solver a hints = .ofExcept (solver.analyze a hints) := by
  have hstart : Fits (PivotedMatrix.start a.toDense) a.rows a.cols :=
    ⟨rfl, rfl, Permutation.size_identity _, Permutation.size_identity _⟩
  have hrun : run hints (thresholdForAttempt solver.pivotThreshold hints.attempt)
        (solver.rankTol * a.maxAbs) (min a.rows a.cols) 0 (PivotedMatrix.start a.toDense) =
      .ok (solver.elimination a hints) ∧ Fits (solver.elimination a hints).2 a.rows a.cols :=
    run_eq _ _ _ hstart (by omega) (by omega)
  have hrank : (solver.elimination a hints).1 ≤ 0 + min a.rows a.cols :=
    PivotedMatrix.rank_run_le _ _ _ _ _ _
  rw [analyzeDense, DenseSolver.analyze_eq]
  dsimp only
  generalize solver.elimination a hints = answer at *
  obtain ⟨r, t⟩ := answer
  obtain ⟨hrun, hfits⟩ := hrun
  have hleading : leading t.matrix r = .ok (t.matrix.leading r r) := by
    refine leading_eq ?_ ?_
    · rw [hfits.rows_eq]
      dsimp only at hrank
      omega
    · rw [hfits.cols_eq]
      dsimp only at hrank
      omega
  have hpacked : packed (t.matrix.leading r r) (Array.range r) =
      .ok ⟨t.matrix.leading r r, Array.range r⟩ :=
    packed_eq Array.size_range.symm
  rw [toDense_eq, Attempt.ofChecked_ok, ok_bind, hrun, Attempt.ofChecked_ok, ok_bind]
  dsimp only
  split
  · rfl
  · rw [hleading, Attempt.ofChecked_ok, ok_bind, hpacked, Attempt.ofChecked_ok, ok_bind,
      bijection_eq, Attempt.ofChecked_ok, ok_bind, bijection_eq]
    rfl

/-- Nor does a dense refactorization. -/
theorem refactorDense_eq (solver : DenseSolver α) (block : SparseMatrix α)
    (symbolic : DenseStructure) :
    refactorDense solver block symbolic = .ofExcept (solver.refactor block symbolic) := by
  rw [refactorDense, DenseSolver.refactor]
  split
  · rw [toDense_eq, Attempt.ofChecked_ok, ok_bind, factorDense_eq]
    cases DenseLu.factor block.toDense (solver.refactorTol * block.maxAbs) <;> rfl
  · rfl

/-- The factors of an analysis are shaped. -/
theorem shaped_analyzeDense {solver : DenseSolver α} {a : SparseMatrix α}
    {an : Analysis DenseStructure (DenseLu α)} (h : solver.analyze a hints = .ok an) :
    an.basis.numeric.Shaped an.basis.dim := by
  rw [DenseSolver.analyze_eq] at h
  split at h
  · cases h
  · cases h
    exact ⟨rfl, rfl, Array.size_range, fun p hp => by simpa using hp⟩

/-- So are the factors of a refactorization, which have the dimension of the block. -/
theorem shaped_refactorDense {solver : DenseSolver α} {block : SparseMatrix α}
    {symbolic : DenseStructure} {b : BasisMatrix DenseStructure (DenseLu α)}
    (h : solver.refactor block symbolic = .ok b) :
    b.dim = block.rows ∧ b.numeric.Shaped b.dim := by
  obtain ⟨hrows, -, lu, hlu, rfl⟩ := DenseSolver.refactor_eq_ok_iff.1 h
  have hshaped : lu.Shaped block.rows := shaped_factorDense hlu
  exact ⟨hrows.symm, hrows ▸ hshaped⟩

end ReducedSpace.Guarded
