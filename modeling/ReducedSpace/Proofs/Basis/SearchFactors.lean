import Mathlib
import ReducedSpace.Proofs.Basis.Markowitz

/-!
# The factors repeat the search

An analysis eliminates twice: its search works on the whole matrix and forgets rows and columns as
it goes, its factorization works on the leading block alone and keeps patterns that have become
stale. Both go through the same values, and neither stores a zero, so they store the same entries.
The factors of an analysis are therefore a record of its search, and a factorization whose tolerance
is not the larger one cannot fail where the search went through.
-/

namespace ReducedSpace

open Elimination
open ActiveMatrix (nonzero)

variable {K : Type} [ExactScalar K]

/-- Without zeros the value at an index says what is stored there. -/
theorem SparseVec.ZeroFree.find?_eq {v : SparseVec K} (h : v.ZeroFree) (i : ℕ) :
    v.find? i = nonzero (v.value i) := by
  rw [nonzero]
  rw [value]
  cases hfind : v.find? i with
  | none => simp
  | some w => simp [h i w hfind]

/-- Division by a pivot vanishes only for zero. -/
theorem nonzero_div (x : K) {pivot : K} (h : pivot ≠ 0) :
    nonzero (x / pivot) = (nonzero x).map (· / pivot) := by
  unfold nonzero
  by_cases hx : x = 0 <;> simp [hx, h]

/-- The multiple of the pivot row at `(p, q)` that a row loses, if it has a value to cancel. -/
def ActiveMatrix.multiplier? (a : ActiveMatrix K) (p q i : ℕ) : Option K :=
  ((a.row i).find? q).map (· / a.value p q)

namespace MarkowitzSolver

/-- The factors record the search of an analysis: its pivots on the diagonal of `U`, the rows of the
pivots to the right of it, and the multipliers of the other rows below the diagonal of `L`. Rows and
columns without a pivot are left out. -/
structure RecordsSearch (solver : MarkowitzSolver K) (a : SparseMatrix K) (hints : AnalysisHints)
    (f : SparseLu K) : Prop where
  size_lowerCols : f.lowerCols.size = (solver.pivots a hints).length
  size_upperRows : f.upperRows.size = (solver.pivots a hints).length
  size_diagonal : f.diagonal.size = (solver.pivots a hints).length
  chosen : ∀ {k e}, (solver.pivots a hints)[k]? = some e →
    ∃ c, solver.choose a hints (solver.active a hints k) = some c ∧ (c.row, c.col) = e
  diagonal_eq : ∀ {k e}, (solver.pivots a hints)[k]? = some e →
    f.diagonal.getD k 0 = (solver.active a hints k).value e.1 e.2
  upperRow_eq : ∀ {k e}, (solver.pivots a hints)[k]? = some e → ∀ j, (f.upperRow k).find? j =
    if k < j then
      (solver.pivots a hints)[j]?.bind fun d => ((solver.active a hints k).row e.1).find? d.2
    else none
  lowerCol_eq : ∀ {k e}, (solver.pivots a hints)[k]? = some e → ∀ i, (f.lowerCol k).find? i =
    if k < i then
      (solver.pivots a hints)[i]?.bind fun d => (solver.active a hints k).multiplier? e.1 e.2 d.1
    else none

/-- What a row or a column of the factors stores, from the values that it has after the diagonal. -/
private theorem find?_eq_after {v : SparseVec K} (hv : v.ZeroFree) {es : List (ℕ × ℕ)} {k : ℕ}
    (hlt : ∀ t, v.contains t = true → k < t ∧ t < es.length) {g : ℕ × ℕ → K}
    (hvalue : ∀ t d, k < t → es[t]? = some d → v.value t = g d) (t : ℕ) :
    v.find? t = if k < t then es[t]?.bind fun d => nonzero (g d) else none := by
  have hnone (h : ¬(k < t ∧ t < es.length)) : v.find? t = none :=
    SparseVec.find?_eq_none_of_not_contains (by simpa using mt (hlt t) h)
  by_cases hkt : k < t
  · rw [if_pos hkt]
    cases hget : es[t]? with
    | none => exact hnone fun h => absurd h.2 (Nat.not_lt.2 (List.getElem?_eq_none_iff.1 hget))
    | some d => rw [hv.find?_eq, hvalue t d hkt hget, Option.bind_some]
  · rw [if_neg hkt]
    exact hnone fun h => hkt h.1

variable {solver : MarkowitzSolver K} {a : SparseMatrix K} {hints : AnalysisHints}
  {rowPerm colPerm : Permutation}

/-- Factors of the leading block record the search, whatever the tolerance they passed: the values
that their factorization goes through are those of the search. -/
theorem recordsSearch_of_factor
    (hrow : orderPermutation ((solver.pivots a hints).map (·.1)) a.rows = .ok rowPerm)
    (hcol : orderPermutation ((solver.pivots a hints).map (·.2)) a.cols = .ok colPerm)
    {refactorTol : K} {f : SparseLu K}
    (hfactor : SparseLu.factor refactorTol
      (leadingBlock a rowPerm colPerm (solver.pivots a hints).length) = .ok f) :
    solver.RecordsSearch a hints f := by
  have hf := records_leadingBlock hrow hcol hfactor
  have hstores := SparseLu.storesNoZero_factor hfactor
  have hnatural : ∀ {k i j : ℕ} {e d : ℕ × ℕ}, k < (solver.pivots a hints).length →
      (solver.pivots a hints)[i]? = some e → (solver.pivots a hints)[j]? = some d →
      natural (leadingBlock a rowPerm colPerm (solver.pivots a hints).length).entry k i j =
        (solver.active a hints k).value e.1 d.2 := by
    intro k i j e d hk hi hj
    rw [old_of_orders hrow hcol hi, old_of_orders hrow hcol hj]
    exact natural_leadingBlock hrow hcol (Nat.le_of_lt hk) (List.getElem?_eq_some_iff.1 hi).1
      (List.getElem?_eq_some_iff.1 hj).1
  refine ⟨hf.size_lowerCols, hf.size_upperRows, hf.size_diagonal, choose_active, ?_, ?_, ?_⟩
  · intro k e hk
    have hlt := (List.getElem?_eq_some_iff.1 hk).1
    rw [hf.diagonal_eq k hlt, upper, hnatural hlt hk hk]
  · intro k e hk j
    have hlt := (List.getElem?_eq_some_iff.1 hk).1
    have hvalue : ∀ t d, k < t → (solver.pivots a hints)[t]? = some d →
        (f.upperRow k).value t = (solver.active a hints k).value e.1 d.2 := by
      intro t d hkt ht
      rw [hf.upper_eq k t hlt hkt (List.getElem?_eq_some_iff.1 ht).1, upper, hnatural hlt hk ht]
    rw [find?_eq_after (hstores.upperRow k) (hf.upper_lt k) hvalue]
    simp only [(zeroFree_active k e.1).find?_eq]
    rfl
  · intro k e hk i
    have hlt := (List.getElem?_eq_some_iff.1 hk).1
    have hpivot : (solver.active a hints k).value e.1 e.2 ≠ 0 := by
      rw [← hnatural hlt hk hk]
      exact hf.pivots k hlt
    have hvalue : ∀ t d, k < t → (solver.pivots a hints)[t]? = some d →
        (f.lowerCol k).value t = (solver.active a hints k).value d.1 e.2 /
          (solver.active a hints k).value e.1 e.2 := by
      intro t d hkt ht
      rw [hf.lower_eq k t hlt hkt (List.getElem?_eq_some_iff.1 ht).1, lower, hnatural hlt ht hk,
        hnatural hlt hk hk]
    rw [find?_eq_after (hstores.lowerCol k) (hf.lower_lt k) hvalue]
    simp only [nonzero_div _ hpivot, ActiveMatrix.multiplier?, (zeroFree_active k _).find?_eq]
    rfl

/-- The leading block of an analysis factors, and its factors record the search, if the tolerance of
the factorization is not larger than the one of the search. Nothing is asked of the threshold, of
the width of the search, of the hints or of the signs of the tolerances. The analysis then succeeds
with these factors unless it has found fewer pivots than required. -/
theorem factors_record_search (solver : MarkowitzSolver K)
    (h : solver.refactorTol ≤ solver.rankTol) (a : SparseMatrix K) (hints : AnalysisHints) :
    ∃ rowPerm colPerm f,
      orderPermutation ((solver.pivots a hints).map (·.1)) a.rows = .ok rowPerm ∧
      orderPermutation ((solver.pivots a hints).map (·.2)) a.cols = .ok colPerm ∧
      SparseLu.factor solver.refactorTol
        (leadingBlock a rowPerm colPerm (solver.pivots a hints).length) = .ok f ∧
      solver.RecordsSearch a hints f ∧
      solver.analyze a hints =
        if (solver.pivots a hints).length < hints.requiredRank then
          Attempt.fail (.singularBasis (solver.pivots a hints).length hints.requiredRank)
        else .ok {
          rowPerm := rowPerm
          colPerm := colPerm
          rank := (solver.pivots a hints).length
          basis := ⟨(solver.pivots a hints).length,
            ⟨(solver.pivots a hints).length,
              (leadingBlock a rowPerm colPerm (solver.pivots a hints).length).storedCount,
              f.storedCount⟩, f⟩ } := by
  obtain ⟨rowPerm, colPerm, hrow, hcol⟩ := exists_orders solver a hints
  obtain ⟨f, hf⟩ := exists_factor_leadingBlock h hrow hcol
  refine ⟨rowPerm, colPerm, f, hrow, hcol, hf, recordsSearch_of_factor hrow hcol hf, ?_⟩
  split
  · rename_i hlt
    exact analyze_eq_error hlt
  · rename_i hle
    exact analyze_eq_ok_iff.2 ⟨Nat.not_lt.1 hle, rowPerm, colPerm, f, hrow, hcol, hf, rfl⟩

/-- A matrix in which a value cancels when the first pivot is eliminated. -/
def cancellingSample : SparseMatrix Rat :=
  .ofEntries 4 3 fun i j =>
    ((#[#[some 2, none, some 1], #[some 4, some 1, some 2], #[some 6, some 3, none],
      #[some 8, some 4, some 3]] : Array (Array (Option Rat))).getD i #[]).getD j none

/-- A solver with the same positive tolerance for search and factorization. -/
def cancellingSolver : MarkowitzSolver Rat := ⟨1 / 10, 1 / 100, 1 / 100, 4⟩

/-- The last row loses its first value with the multiplier `4 / 3`, and neither the search nor the
factorization keeps the zero. -/
theorem factors_record_search_sample :
    cancellingSolver.refactorTol ≤ cancellingSolver.rankTol ∧
      cancellingSolver.pivots cancellingSample (.ofRank 3) = [(2, 1), (3, 2), (0, 0)] ∧
      ∃ an, cancellingSolver.analyze cancellingSample (.ofRank 3) = .ok an ∧
        cancellingSolver.RecordsSearch cancellingSample (.ofRank 3) an.basis.numeric ∧
        (an.basis.numeric.lowerCol 0).find? 1 = some (4 / 3) ∧
        (an.basis.numeric.upperRow 0).find? 2 = some 6 ∧
        (an.basis.numeric.upperRow 1).find? 2 = none := by
  have htol : cancellingSolver.refactorTol ≤ cancellingSolver.rankTol := by decide +kernel
  have hpivots : cancellingSolver.pivots cancellingSample (.ofRank 3) =
      [(2, 1), (3, 2), (0, 0)] := by decide +kernel
  obtain ⟨rowPerm, colPerm, f, -, -, -, hrecords, han⟩ :=
    factors_record_search cancellingSolver htol cancellingSample (.ofRank 3)
  have hfirst : (cancellingSolver.pivots cancellingSample (.ofRank 3))[0]? = some (2, 1) := by
    rw [hpivots]
    rfl
  have hsecond : (cancellingSolver.pivots cancellingSample (.ofRank 3))[1]? = some (3, 2) := by
    rw [hpivots]
    rfl
  have hrank : ¬(cancellingSolver.pivots cancellingSample (.ofRank 3)).length <
      (AnalysisHints.ofRank 3).requiredRank := by
    rw [hpivots]
    decide
  rw [if_neg hrank] at han
  refine ⟨htol, hpivots, _, han, hrecords, ?_, ?_, ?_⟩
  · rw [hrecords.lowerCol_eq hfirst]
    decide +kernel
  · rw [hrecords.upperRow_eq hfirst]
    decide +kernel
  · rw [hrecords.upperRow_eq hsecond]
    decide +kernel

end MarkowitzSolver

end ReducedSpace
