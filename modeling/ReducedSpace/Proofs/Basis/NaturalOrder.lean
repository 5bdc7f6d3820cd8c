import Mathlib
import ReducedSpace.Proofs.Basis.Answers
import ReducedSpace.Proofs.Basis.PivotChoice
import ReducedSpace.Proofs.Dense.Elimination
import ReducedSpace.Proofs.Sparse.Submatrix

/-!
# Factors in natural order

The orders of an analysis lead to a block, and its factors are those of that block as it stands: the
sparse solver factors it afterwards, and the dense solver has done so on the way. An exchange of
rows or columns that are still to be eliminated commutes with the steps before it, so a dense
elimination with exchanges is the elimination along the diagonal of the matrix that the exchanges
lead to. All of this is about which entry goes where, and the arithmetic plays no part.
-/

namespace ReducedSpace

variable {α : Type} [Scalar α]

namespace DenseMatrix

/-- Eliminates with the first entries of the diagonal. -/
def eliminateFirst (a : DenseMatrix α) : Nat → DenseMatrix α
  | 0 => a
  | k + 1 => (a.eliminateFirst k).eliminate k

/-- The rows and columns in the orders of two permutations. -/
def reordered (a : DenseMatrix α) (rowPerm colPerm : Permutation) : DenseMatrix α :=
  ofFn a.rows a.cols fun i j => a.entry (rowPerm.old i) (colPerm.old j)

variable {a : DenseMatrix α} {i j k p q r t : Nat}

/-- The leading block has the entries of the matrix. -/
theorem entry_leading (a : DenseMatrix α) (hi : i < r) (hj : j < r) :
    (a.leading r r).entry i j = a.entry i j := by
  rw [leading, entry_ofFn, if_pos ⟨hi, hj⟩]

/-- The rearranged matrix takes its entries from the old positions. -/
theorem entry_reordered (a : DenseMatrix α) (rowPerm colPerm : Permutation) (hi : i < a.rows)
    (hj : j < a.cols) :
    (a.reordered rowPerm colPerm).entry i j = a.entry (rowPerm.old i) (colPerm.old j) := by
  rw [reordered, entry_ofFn, if_pos ⟨hi, hj⟩]

@[simp] theorem rows_eliminateFirst (a : DenseMatrix α) (k : Nat) :
    (a.eliminateFirst k).rows = a.rows := by
  induction k with
  | zero => rfl
  | succ k ih => exact ih

@[simp] theorem cols_eliminateFirst (a : DenseMatrix α) (k : Nat) :
    (a.eliminateFirst k).cols = a.cols := by
  induction k with
  | zero => rfl
  | succ k ih => exact ih

/-- A step of elimination commutes with an exchange of later rows. -/
theorem swapRows_eliminate (ht : t < k) (hkp : k ≤ p) (hp : p < a.rows) :
    (a.eliminate t).swapRows k p = (a.swapRows k p).eliminate t := by
  have hk : k < a.rows := Nat.lt_of_le_of_lt hkp hp
  refine ext_entry rfl rfl fun i j (hi : i < a.rows) (hj : j < a.cols) => ?_
  have hfix : Permutation.exchange k p t = t := Permutation.exchange_of_lt hkp ht
  have hle : Permutation.exchange k p i ≤ t ↔ i ≤ t := by
    rw [Permutation.exchange]
    grind
  rw [entry_swapRows (a.eliminate t) hk hp, entry_eliminate a t (Permutation.exchange_lt hk hp hi) hj,
    entry_eliminate (a.swapRows k p) t hi hj]
  simp only [entry_swapRows a hk hp, hfix, hle]

/-- A step of the elimination commutes with an exchange of two later columns. -/
theorem swapCols_eliminate (ht : t < k) (hkq : k ≤ q) (hq : q < a.cols) :
    (a.eliminate t).swapCols k q = (a.swapCols k q).eliminate t := by
  have hk : k < a.cols := Nat.lt_of_le_of_lt hkq hq
  refine ext_entry rfl rfl fun i j (hi : i < a.rows) (hj : j < a.cols) => ?_
  have hfix : Permutation.exchange k q t = t := Permutation.exchange_of_lt hkq ht
  have hlt : Permutation.exchange k q j < t ↔ j < t := by
    rw [Permutation.exchange]
    grind
  have heq : Permutation.exchange k q j = t ↔ j = t := by
    rw [Permutation.exchange]
    grind
  rw [entry_swapCols (a.eliminate t) hk hq, entry_eliminate a t hi (Permutation.exchange_lt hk hq hj),
    entry_eliminate (a.swapCols k q) t hi hj]
  simp only [entry_swapCols a hk hq, hfix, hlt, heq]

/-- So any number of steps commutes with an exchange of two later rows. -/
theorem swapRows_eliminateFirst (ht : t ≤ k) (hkp : k ≤ p) (hp : p < a.rows) :
    (a.eliminateFirst t).swapRows k p = (a.swapRows k p).eliminateFirst t := by
  induction t with
  | zero => rfl
  | succ t ih =>
    rw [eliminateFirst, swapRows_eliminate ht hkp ((rows_eliminateFirst a t).symm ▸ hp),
      ih (Nat.le_of_succ_le ht), eliminateFirst]

/-- And of two later columns. -/
theorem swapCols_eliminateFirst (ht : t ≤ k) (hkq : k ≤ q) (hq : q < a.cols) :
    (a.eliminateFirst t).swapCols k q = (a.swapCols k q).eliminateFirst t := by
  induction t with
  | zero => rfl
  | succ t ih =>
    rw [eliminateFirst, swapCols_eliminate ht hkq ((cols_eliminateFirst a t).symm ▸ hq),
      ih (Nat.le_of_succ_le ht), eliminateFirst]

/-- The elimination of a leading block does not depend on what is around it. -/
theorem leading_eliminate (ht : t < r) (hr : r ≤ a.rows) (hc : r ≤ a.cols) :
    (a.eliminate t).leading r r = (a.leading r r).eliminate t := by
  refine ext_entry rfl rfl fun i j (hi : i < r) (hj : j < r) => ?_
  rw [entry_eliminate (a.leading r r) t hi hj, a.entry_leading hi hj, a.entry_leading hi ht,
    a.entry_leading ht ht, a.entry_leading ht hj, ← entry_eliminate a t (by omega) (by omega),
    entry_leading (a.eliminate t) hi hj]

/-- Eliminating within the leading block gives the leading block of the elimination. -/
theorem leading_eliminateFirst (ht : t ≤ r) (hr : r ≤ a.rows) (hc : r ≤ a.cols) :
    (a.eliminateFirst t).leading r r = (a.leading r r).eliminateFirst t := by
  induction t with
  | zero => rfl
  | succ t ih =>
    rw [eliminateFirst, leading_eliminate ht ((rows_eliminateFirst a t).symm ▸ hr)
      ((cols_eliminateFirst a t).symm ▸ hc), ih (Nat.le_of_succ_le ht), eliminateFirst]

/-- A further exchange of rows is one in the order of the rows. -/
theorem swapRows_reordered {rowPerm : Permutation} (hsize : rowPerm.size = a.rows)
    (colPerm : Permutation) (hk : k < a.rows) (hp : p < a.rows) :
    (a.reordered rowPerm colPerm).swapRows k p = a.reordered (rowPerm.swap k p) colPerm := by
  refine ext_entry rfl rfl fun i j (hi : i < a.rows) (hj : j < a.cols) => ?_
  rw [entry_swapRows (a.reordered rowPerm colPerm) hk hp,
    a.entry_reordered _ _ (Permutation.exchange_lt hk hp hi) hj, a.entry_reordered _ _ hi hj,
    rowPerm.old_swap (hsize.symm ▸ hk) (hsize.symm ▸ hp)]

/-- Exchanging two columns of a rearranged matrix rearranges it by the swapped order. -/
theorem swapCols_reordered (rowPerm : Permutation) {colPerm : Permutation}
    (hsize : colPerm.size = a.cols) (hk : k < a.cols) (hq : q < a.cols) :
    (a.reordered rowPerm colPerm).swapCols k q = a.reordered rowPerm (colPerm.swap k q) := by
  refine ext_entry rfl rfl fun i j (hi : i < a.rows) (hj : j < a.cols) => ?_
  rw [entry_swapCols (a.reordered rowPerm colPerm) hk hq,
    a.entry_reordered _ _ hi (Permutation.exchange_lt hk hq hj), a.entry_reordered _ _ hi hj,
    colPerm.old_swap (hsize.symm ▸ hk) (hsize.symm ▸ hq)]

end DenseMatrix

namespace PivotedMatrix

variable {s t : PivotedMatrix α} {a : DenseMatrix α} {hints : AnalysisHints} {u absTol : α}
  {k : Nat}

/-- The best pivot is one of the remaining entries. -/
theorem mem_of_bestPivot {bound : α} {best : DensePivot α}
    (h : s.bestPivot hints bound k = some best) : (best.row, best.col) ∈ remaining s.matrix k := by
  refine List.foldlRecOn
    (motive := fun b : Option (DensePivot α) =>
      ∀ best, b = some best → (best.row, best.col) ∈ remaining s.matrix k)
    _ _ (fun best hbest => by cases hbest) (fun b hb e he => ?_) best h
  dsimp only
  split
  · exact hb
  · split
    · intro best hbest
      cases hbest
      exact he
    · exact hb

/-- A step brings one of the remaining entries to the diagonal. -/
theorem exists_pivot_of_step (h : s.step hints u absTol k = some t) :
    ∃ p q, k ≤ p ∧ p < s.matrix.rows ∧ k ≤ q ∧ q < s.matrix.cols ∧ t = s.pivot k p q := by
  unfold step at h
  dsimp only at h
  split at h
  · cases h
  · obtain ⟨best, hbest, rfl⟩ := Option.map_eq_some_iff.1 h
    obtain ⟨⟨hkp, hp⟩, hkq, hq⟩ := mem_remaining_iff.1 (mem_of_bestPivot hbest)
    exact ⟨best.row, best.col, hkp, hp, hkq, hq, rfl⟩

/-- The state is what `k` steps along the diagonal make of a matrix in the orders of the state. -/
structure Reorders (s : PivotedMatrix α) (a : DenseMatrix α) (k : Nat) : Prop where
  size_rowPerm : s.rowPerm.size = a.rows
  size_colPerm : s.colPerm.size = a.cols
  matrix_eq : s.matrix = (a.reordered s.rowPerm s.colPerm).eliminateFirst k

/-- Before the first step nothing is rearranged. -/
theorem reorders_start (a : DenseMatrix α) : (start a).Reorders a 0 where
  size_rowPerm := Permutation.size_identity _
  size_colPerm := Permutation.size_identity _
  matrix_eq := by
    refine DenseMatrix.ext_entry rfl rfl fun i j hi hj => ?_
    show a.entry i j = (a.reordered (.identity a.rows) (.identity a.cols)).entry i j
    rw [a.entry_reordered _ _ hi hj, Permutation.old_identity, Permutation.old_identity]

/-- The number of rows stays. -/
theorem Reorders.rows_eq (h : s.Reorders a k) : s.matrix.rows = a.rows := by
  rw [h.matrix_eq, DenseMatrix.rows_eliminateFirst]
  rfl

/-- And the number of columns. -/
theorem Reorders.cols_eq (h : s.Reorders a k) : s.matrix.cols = a.cols := by
  rw [h.matrix_eq, DenseMatrix.cols_eliminateFirst]
  rfl

/-- One step of the pivoting is one step in natural order on the matrix rearranged by its orders. -/
theorem Reorders.step (h : s.Reorders a k) (hstep : s.step hints u absTol k = some t) :
    t.Reorders a (k + 1) := by
  obtain ⟨p, q, hkp, hp, hkq, hq, rfl⟩ := exists_pivot_of_step hstep
  rw [h.rows_eq] at hp
  rw [h.cols_eq] at hq
  refine ⟨(Permutation.size_swap _ _ _).trans h.size_rowPerm,
    (Permutation.size_swap _ _ _).trans h.size_colPerm, ?_⟩
  show ((s.matrix.swapRows k p).swapCols k q).eliminate k = _
  rw [h.matrix_eq,
    DenseMatrix.swapRows_eliminateFirst (a := a.reordered _ _) (Nat.le_refl k) hkp hp,
    DenseMatrix.swapRows_reordered h.size_rowPerm _ (Nat.lt_of_le_of_lt hkp hp) hp,
    DenseMatrix.swapCols_eliminateFirst (a := a.reordered _ _) (Nat.le_refl k) hkq hq,
    DenseMatrix.swapCols_reordered _ h.size_colPerm (Nat.lt_of_le_of_lt hkq hq) hq]
  rfl

/-- So are all steps together. -/
theorem Reorders.run {steps : Nat} (h : s.Reorders a k) :
    (PivotedMatrix.run hints u absTol steps k s).2.Reorders a
      (PivotedMatrix.run hints u absTol steps k s).1 := by
  induction steps generalizing k s with
  | zero => exact h
  | succ steps ih =>
    rw [PivotedMatrix.run]
    cases hstep : s.step hints u absTol k with
    | none => exact h
    | some t => exact ih (h.step hstep)

end PivotedMatrix

/-- A solver whose analyses factor the block that their orders lead to as it stands. -/
class NaturalSolver (σ : Type) {α S N : Type} [DirectSolver σ α S N] where
  /-- The factors are what the solver makes of the block without exchanging anything. -/
  FactorsInPlace : σ → SparseMatrix α → BasisMatrix S N → Prop
  analyze_inPlace : ∀ {solver : σ} {a : SparseMatrix α} {hints : AnalysisHints} {an : Analysis S N},
    (DirectSolver.analyze solver a hints).1 = .ok an →
      FactorsInPlace solver
        (MarkowitzSolver.leadingBlock a an.rowPerm an.colPerm an.rank) an.basis

/-- The factors of a block by elimination along its diagonal. -/
def DenseLu.inPlace (block : SparseMatrix α) : DenseLu α :=
  ⟨block.toDense.eliminateFirst block.rows, Array.range block.rows⟩

/-- A dense copy of a leading block is the leading block of the reordered dense copy. -/
theorem SparseMatrix.toDense_leadingBlock (a : SparseMatrix α) {rowPerm colPerm : Permutation}
    (hrow : rowPerm.size = a.rows) (hcol : colPerm.size = a.cols) {r : Nat}
    (hr : r ≤ min a.rows a.cols) :
    (MarkowitzSolver.leadingBlock a rowPerm colPerm r).toDense =
      (a.toDense.reordered rowPerm colPerm).leading r r := by
  have hrow' : r ≤ rowPerm.size := by omega
  have hcol' : r ≤ colPerm.size := by omega
  have hrows : (MarkowitzSolver.leadingBlock a rowPerm colPerm r).rows = r :=
    rowPerm.size_extract_olds hrow'
  have hcols : (MarkowitzSolver.leadingBlock a rowPerm colPerm r).cols = r :=
    colPerm.size_extract_olds hcol'
  refine DenseMatrix.ext_entry hrows hcols fun i j hi hj => ?_
  have hi : i < r := Nat.lt_of_lt_of_eq hi hrows
  have hj : j < r := Nat.lt_of_lt_of_eq hj hcols
  have hold : rowPerm.old i < a.rows ∧ colPerm.old j < a.cols :=
    ⟨hrow ▸ rowPerm.old_lt_iff.2 (by omega), hcol ▸ colPerm.old_lt_iff.2 (by omega)⟩
  have hfind : (MarkowitzSolver.leadingBlock a rowPerm colPerm r).find? i j =
      a.find? (rowPerm.old i) (colPerm.old j) := by
    rw [MarkowitzSolver.leadingBlock]
    rw [a.find?_submatrix_extract hrow' hcol', if_pos ⟨hi, hj⟩, Nat.zero_add, Nat.zero_add]
  have hin : i < a.toDense.rows ∧ j < a.toDense.cols := by
    show i < a.rows ∧ j < a.cols
    omega
  rw [DenseMatrix.entry_leading _ hi hj, a.toDense.entry_reordered _ _ hin.1 hin.2, toDense, toDense]
  rw [DenseMatrix.entry_ofFn, if_pos ⟨hrows.symm ▸ hi, hcols.symm ▸ hj⟩, DenseMatrix.entry_ofFn,
    if_pos hold, hfind]

/-- The factors of a dense analysis are those of the leading block in natural order. -/
theorem DenseSolver.numeric_analyze {solver : DenseSolver α} {a : SparseMatrix α}
    {hints : AnalysisHints} {an : Analysis DenseStructure (DenseLu α)}
    (h : solver.analyze a hints = .ok an) :
    an.basis.numeric =
      .inPlace (MarkowitzSolver.leadingBlock a an.rowPerm an.colPerm an.rank) := by
  have hreorders : (solver.elimination a hints).2.Reorders a.toDense
      (solver.elimination a hints).1 := (PivotedMatrix.reorders_start a.toDense).run
  have hle := DenseSolver.rank_le h
  have hfits := DenseSolver.analyze_fits h
  rw [DenseLu.inPlace]
  have hrows : (MarkowitzSolver.leadingBlock a an.rowPerm an.colPerm an.rank).rows = an.rank := by
    refine an.rowPerm.size_extract_olds ?_
    have := hfits.size_rowPerm
    omega
  rw [hrows, a.toDense_leadingBlock hfits.size_rowPerm hfits.size_colPerm hle,
    ← DenseMatrix.leading_eliminateFirst (Nat.le_refl _) (hle.trans (Nat.min_le_left _ _))
      (hle.trans (Nat.min_le_right _ _))]
  rw [analyze_eq] at h
  split at h
  · cases h
  · cases h
    dsimp only
    rw [← hreorders.matrix_eq]

instance : NaturalSolver (DenseSolver α) where
  FactorsInPlace _ block b := b.numeric = .inPlace block
  analyze_inPlace h := DenseSolver.numeric_analyze (Attempt.ofExcept_eq_ok_iff.1 h)

/-- The factors of a sparse analysis are those of the leading block by definition. -/
theorem MarkowitzSolver.factor_analyze {solver : MarkowitzSolver α} {a : SparseMatrix α}
    {hints : AnalysisHints} {an : Analysis MarkowitzStructure (SparseLu α)}
    (h : solver.analyze a hints = .ok an) :
    SparseLu.factor solver.refactorTol (leadingBlock a an.rowPerm an.colPerm an.rank) =
      .ok an.basis.numeric := by
  obtain ⟨-, rowPerm, colPerm, factors, -, -, hfactors, rfl⟩ := analyze_eq_ok_iff.1 h
  exact hfactors

instance : NaturalSolver (MarkowitzSolver α) where
  FactorsInPlace solver block b := SparseLu.factor solver.refactorTol block = .ok b.numeric
  analyze_inPlace h := MarkowitzSolver.factor_analyze h

instance : NaturalSolver (ChosenSolver α) where
  FactorsInPlace
    | .dense _, block, b => b.numeric = .dense (.inPlace block)
    | .markowitz solver, block, b =>
      ∃ f, SparseLu.factor solver.refactorTol block = .ok f ∧ b.numeric = .markowitz f
  analyze_inPlace {solver} a hints an h := by
    cases solver with
    | dense s =>
      obtain ⟨inner, hinner, rfl⟩ := map_eq_ok_iff.1 h
      exact congrArg _ (DenseSolver.numeric_analyze (Attempt.ofExcept_eq_ok_iff.1 hinner))
    | markowitz s =>
      obtain ⟨inner, hinner, rfl⟩ := map_eq_ok_iff.1 h
      exact ⟨_, MarkowitzSolver.factor_analyze hinner, rfl⟩

end ReducedSpace
