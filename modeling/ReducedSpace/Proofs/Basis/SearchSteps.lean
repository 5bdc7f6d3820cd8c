import Mathlib
import ReducedSpace.Proofs.Basis.ActiveElimination
import ReducedSpace.Proofs.Basis.Answers
import ReducedSpace.Proofs.Exact.Factors

/-!
# The steps of a search

The pivots of a search are listed at its end, but each of them was chosen in the active matrix that
the pivots before it left. Replaying the list gives these matrices back: the search chooses its next
pivot there, above the tolerance, and their values are what the elimination of the matrix leaves.
-/

namespace ReducedSpace

open Elimination

namespace ActiveMatrix

section Replay

variable {α : Type} [Scalar α]

/-- Eliminates with the listed pivots in turn. -/
def eliminateAll (a : ActiveMatrix α) (es : List (Nat × Nat)) : ActiveMatrix α :=
  es.foldl (fun a e => a.eliminate e.1 e.2) a

variable {a : ActiveMatrix α}

/-- Any pivots leave a matrix without stored zeros. -/
theorem ZeroFree.eliminateAll (h : a.ZeroFree) (es : List (ℕ × ℕ)) :
    (a.eliminateAll es).ZeroFree :=
  List.foldlRecOn (motive := ZeroFree) _ _ h fun _ hb e _ => hb.eliminate e.1 e.2

/-- And an aligned one. -/
theorem Aligned.eliminateAll {m n : ℕ} (h : a.Aligned m n) (es : List (ℕ × ℕ)) :
    (a.eliminateAll es).Aligned m n :=
  List.foldlRecOn (motive := fun b : ActiveMatrix α => b.Aligned m n) _ _ h
    fun _ hb e _ => hb.eliminate e.1 e.2

variable {u absTol : α} {hints : AnalysisHints} {limit : ℕ}

/-- Each pivot is the choice of the search after the pivots before it. -/
theorem choosePivot_of_pivots {steps k : ℕ} {e : ℕ × ℕ}
    (h : (pivots u absTol hints limit steps a)[k]? = some e) :
    ∃ c, (a.eliminateAll ((pivots u absTol hints limit steps a).take k)).choosePivot u absTol hints
      limit = some c ∧ (c.row, c.col) = e := by
  induction steps generalizing a k with
  | zero => cases h
  | succ steps ih =>
    rw [pivots] at h ⊢
    split at h
    · cases h
    · rename_i c hc
      cases k with
      | zero => exact ⟨c, hc, Option.some.inj h⟩
      | succ k => exact ih h

end Replay

variable {K : Type} [ExactScalar K] {a : ActiveMatrix K} {m n : ℕ}

/-- Replaying pivots leaves what their elimination leaves. -/
theorem value_eliminateAll {es : List (ℕ × ℕ)} (h : a.Aligned m n) (hes : Pivots a.value es) :
    (a.eliminateAll es).value = residual a.value es := by
  induction es generalizing a with
  | nil => rfl
  | cons e es ih =>
    have hrest := ih (h.eliminate e.1 e.2) (by rw [value_eliminate h hes.1]; exact hes.2)
    rw [value_eliminate h hes.1] at hrest
    exact hrest

end ActiveMatrix

namespace MarkowitzSolver

section Replay

variable {α : Type} [Scalar α]

/-- The active matrix in which an analysis chooses its pivot number `k`. -/
def active (solver : MarkowitzSolver α) (a : SparseMatrix α) (hints : AnalysisHints) (k : ℕ) :
    ActiveMatrix α :=
  (ActiveMatrix.ofSparse a).eliminateAll ((solver.pivots a hints).take k)

/-- The pivot that an analysis would choose in an active matrix. -/
def choose (solver : MarkowitzSolver α) (a : SparseMatrix α) (hints : AnalysisHints)
    (s : ActiveMatrix α) : Option (PivotCandidate α) :=
  s.choosePivot (thresholdForAttempt solver.pivotThreshold hints.attempt)
    (solver.rankTol * a.maxAbs) hints (max solver.maxSearch 1)

variable {solver : MarkowitzSolver α} {a : SparseMatrix α} {hints : AnalysisHints}

/-- So the matrix of every step of a search stores no zero. -/
theorem zeroFree_active (k : ℕ) : (solver.active a hints k).ZeroFree :=
  (ActiveMatrix.zeroFree_ofSparse a).eliminateAll _

/-- And is aligned. -/
theorem active_aligned (k : ℕ) : (solver.active a hints k).Aligned a.rows a.cols :=
  (ActiveMatrix.ofSparse_aligned a).eliminateAll _

/-- Each pivot of an analysis is the choice of its search. -/
theorem choose_active {k : ℕ} {e : ℕ × ℕ} (h : (solver.pivots a hints)[k]? = some e) :
    ∃ c, solver.choose a hints (solver.active a hints k) = some c ∧ (c.row, c.col) = e :=
  ActiveMatrix.choosePivot_of_pivots h

end Replay

variable {K : Type} [ExactScalar K] {solver : MarkowitzSolver K} {a : SparseMatrix K}
  {hints : AnalysisHints}

theorem value_ofSparse_eq (a : SparseMatrix K) :
    (ActiveMatrix.ofSparse a).value = a.entry := by
  funext i j
  exact ActiveMatrix.value_ofSparse a i j

/-- The chosen positions are pivots of the matrix. -/
theorem pivots_valid (solver : MarkowitzSolver K) (a : SparseMatrix K) (hints : AnalysisHints) :
    Pivots a.entry (solver.pivots a hints) := by
  have hvalid : Pivots (ActiveMatrix.ofSparse a).value (solver.pivots a hints) :=
    (ActiveMatrix.storedPivots_pivots (ActiveMatrix.ofSparse_aligned a)).pivots
      (ActiveMatrix.ofSparse_aligned a) (ActiveMatrix.zeroFree_ofSparse a)
  rw [value_ofSparse_eq] at hvalid
  exact hvalid

/-- The active matrices of an analysis hold what the pivots before leave of the matrix. -/
theorem value_active (k : ℕ) :
    (solver.active a hints k).value = residual a.entry ((solver.pivots a hints).take k) := by
  have hpivots := (pivots_valid solver a hints).take k
  rw [← value_ofSparse_eq] at hpivots ⊢
  exact ActiveMatrix.value_eliminateAll (ActiveMatrix.ofSparse_aligned a) hpivots

/-- A pivot of an analysis is above the rank tolerance when it is chosen. -/
theorem lt_abs_pivot {k : ℕ} {e : ℕ × ℕ} (h : (solver.pivots a hints)[k]? = some e) :
    solver.rankTol * a.maxAbs < |(solver.active a hints k).value e.1 e.2| := by
  obtain ⟨c, hc, rfl⟩ := choose_active h
  obtain ⟨-, -, -, habove⟩ := ActiveMatrix.acceptable_of_choosePivot hc
  exact Scalar.le_eq_false_iff.1 habove

end MarkowitzSolver

end ReducedSpace
