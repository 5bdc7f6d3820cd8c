import ReducedSpace.Proofs.Decomposer.Publication

/-!
# What a call complains of

A call reports an error for one of a few reasons: an argument of the wrong size, a partition that is
not allowed, a missing decomposition, an error of the solver, or a decomposition that could not be
prepared. `CallError` lists them with what each comes from, and `callError_of_perform` is the
inversion of all failed calls, so that the absence of an error is shown by going through the list.
-/

namespace ReducedSpace

section Reporting

variable {ε β γ : Type} {p : ε → Prop}

/-- Every error of the domain that the operation reports has the property. Faults do not count. -/
abbrev ReportsOnly (p : ε → Prop) (x : Attempt ε β) : Prop :=
  RaisesOnly (fun f => ∀ e, f = .error e → p e) x

/-- Checked operations only fault. -/
theorem reportsOnly_ofChecked (x : Checked β) : ReportsOnly p (Attempt.ofChecked x) :=
  raisesOnly_ofChecked (fun _ _ h => by cases h) x

theorem reportsOnly_fail {e : ε} (he : p e) : ReportsOnly p (Attempt.fail e : Attempt ε β) :=
  raisesOnly_error fun _ h => Failure.error.inj h ▸ he

theorem reportsOnly_ofExcept {x : Except ε β} (hx : RaisesOnly p x) :
    ReportsOnly p (Attempt.ofExcept x) :=
  raisesOnly_ofExcept fun e he _ h => Failure.error.inj h ▸ hx e he

theorem ReportsOnly.imp {q : ε → Prop} {x : Attempt ε β} (h : ReportsOnly p x)
    (himp : ∀ e, p e → q e) : ReportsOnly q x :=
  fun f hf e he => himp e (h f hf e he)

/-- An error that one operation hands on from another. -/
theorem ReportsOnly.of_error {x : Attempt ε β} (h : ReportsOnly p x) {f : Failure ε}
    (hf : x = .error f) : ReportsOnly p (.error f : Attempt ε γ) :=
  raisesOnly_error (h f hf)

end Reporting

/-- Why no decomposition can be prepared for a partition and the factors of a basis. -/
inductive PreparationError {α S N : Type} (partition : Partition) (basis : BasisMatrix S N) :
    DecompError α → Prop
  /-- The factors belong to a block of another size. -/
  | size (differs : basis.dim ≠ partition.rank) : PreparationError partition basis
      (.dimensionMismatch "basis factorization" partition.rank basis.dim)
  /-- The matrix `I + Dᵀ D` has no factors. -/
  | gram (pivot : Nat) (value : α) :
      PreparationError partition basis (.numericallySingular pivot value)
  /-- The self-test finds gradients of another size than those of the partition. -/
  | gradients (what : String) (expected actual : Nat)
      (named : what ∈ ["Gc rows", "Gc columns"]) :
      PreparationError partition basis (.dimensionMismatch what expected actual)
  /-- The self-test finds an inconsistency. -/
  | test (check : String) (value tol : α) :
      PreparationError partition basis (.testFailed check value tol)

section Preparation

variable {α S N : Type}

theorem Partition.raisesOnly_checkShape {p : DecompError α → Prop}
    (hp : ∀ what expected actual, what ∈ ["Gc rows", "Gc columns"] →
      p (.dimensionMismatch what expected actual)) (gc : SparseMatrix α) (n m : Nat) :
    RaisesOnly p (checkShape gc n m) := by
  rw [checkShape]
  split
  · exact raisesOnly_error (hp _ _ _ (by decide))
  split
  · exact raisesOnly_error (hp _ _ _ (by decide))
  · exact raisesOnly_ok ()

variable [Scalar α] [Factorization S N α] {partition : Partition} {basis : BasisMatrix S N}

namespace Decomposition

private theorem reportsOnly_storeSensitivity (settings : Settings α) (rank : Nat)
    (n : SparseMatrix α) :
    ReportsOnly (PreparationError partition basis) (storeSensitivity settings rank basis n) := by
  have hgram (d : DenseMatrix α) :
      RaisesOnly (PreparationError partition basis) (factorGram rank d) := by
    rw [factorGram]
    split
    · exact raisesOnly_ok none
    split
    · exact raisesOnly_ok _
    · exact raisesOnly_error (.gram _ _)
  rw [storeSensitivity]
  split
  · exact raisesOnly_ok _
  · exact (reportsOnly_ofChecked _).bind fun _ => raisesOnly_ok _
  · refine (reportsOnly_ofChecked _).bind fun d => ?_
    exact (reportsOnly_ofExcept (hgram d)).bind fun _ => raisesOnly_ok _

private theorem reportsOnly_build (gc : SparseMatrix α) (settings : Settings α)
    (generation : Nat) : ReportsOnly (PreparationError partition basis)
      (build partition basis gc settings generation) := by
  rw [build]
  split
  · rename_i hdim
    exact reportsOnly_fail (.size hdim)
  · refine (reportsOnly_ofChecked _).bind fun c => (reportsOnly_ofChecked _).bind fun n => ?_
    have hstore : ReportsOnly (PreparationError partition basis)
        (storeSensitivity settings partition.rank basis n.transpose) :=
      reportsOnly_storeSensitivity settings partition.rank n.transpose
    dsimp only
    split
    · refine RaisesOnly.bind ?_ fun u => hstore.bind fun _ => raisesOnly_ok _
      cases partition.undecomposedBlock gc with
      | ok u => exact raisesOnly_ok _
      | error f => exact reportsOnly_ofChecked (.error f)
    · exact (raisesOnly_ok none).bind fun u => hstore.bind fun _ => raisesOnly_ok _

private theorem reportsOnly_verify (dec : Decomposition α S N) (gc : SparseMatrix α) (tol : α) :
    ReportsOnly (PreparationError partition basis) (dec.verify gc tol) := by
  have htest : ReportsOnly (PreparationError partition basis) (dec.selfTest gc) := by
    refine (reportsOnly_ofExcept (Partition.raisesOnly_checkShape .gradients _ _ _)).bind
      fun _ => ?_
    iterate 8 refine (reportsOnly_ofChecked _).bind fun _ => ?_
    exact raisesOnly_ok _
  refine htest.bind fun t => ?_
  dsimp only
  split
  · exact reportsOnly_fail (.test _ _ _)
  · exact raisesOnly_ok _

end Decomposition

theorem Decomposer.reportsOnly_prepare (settings : Settings α) (gc : SparseMatrix α)
    (generation : Nat) : ReportsOnly (PreparationError partition basis)
      (prepare settings partition basis gc generation) := by
  refine (Decomposition.reportsOnly_build gc settings generation).bind fun dec => ?_
  split
  · exact (Decomposition.reportsOnly_verify dec gc settings.testTol).bind fun _ => raisesOnly_ok _
  · exact raisesOnly_ok _

end Preparation

namespace Decomposer

variable {σ α S N : Type} [Scalar α] [Factorization S N α] [DirectSolver σ α S N]

omit [Factorization S N α] in
/-- The errors that a call can report, each with what it comes from. -/
inductive CallError (s : Decomposer σ α S N) : BasisCall α → DecompError α → Prop
  /-- The gradients or the dual estimate have another size than the system. -/
  | argument {call : BasisCall α} (what : String) (expected actual : Nat)
      (named : what ∈ ["Gc rows", "Gc columns", "dual estimate"]) :
      CallError s call (.dimensionMismatch what expected actual)
  /-- The client's partition, or the one that an analysis leads to, is not allowed. -/
  | partition {call : BasisCall α} (reason : String) : CallError s call (.invalidPartition reason)
  /-- There is nothing to update. -/
  | notInitialized {gc : SparseMatrix α} : CallError s (.update gc) .notInitialized
  /-- The solver fails to analyse a matrix. -/
  | analysis {call : BasisCall α} {solver : σ} {a : SparseMatrix α} {hints : AnalysisHints}
      {e : SolverError α} (failed : (DirectSolver.analyze solver a hints).1 = Attempt.fail e) :
      CallError s call (.ofSolver e)
  /-- A selection is given no attempt. -/
  | noAttempt {nu : Option (Array α)} {gc : SparseMatrix α} :
      CallError s (.select nu gc) (.singularBasis 0 s.requiredRank)
  /-- The solver fails to factor the published basis block anew. -/
  | refactorization {gc block : SparseMatrix α} {current : Decomposition α S N}
      {e : SolverError α} (published : s.current = some current)
      (extracted : current.partition.basisBlock gc = .ok block)
      (failed : (DirectSolver.refactor s.solver block current.basis.symbolic).1 =
        Attempt.fail e) : CallError s (.update gc) (.ofSolver e)
  /-- What the call settles on cannot be prepared. -/
  | preparation {call : BasisCall α} {partition : Partition} {basis : BasisMatrix S N}
      {e : DecompError α} (settled : s.Settles call partition basis)
      (failed : PreparationError partition basis e) : CallError s call e

variable {s : Decomposer σ α S N}

private theorem reportsOnly_publish {call : BasisCall α} {partition : Partition}
    {basis : BasisMatrix S N} (settled : s.Settles call partition basis) (solver : σ)
    (gc : SparseMatrix α) (generation : Nat) : ReportsOnly (s.CallError call)
      ({ s with solver := solver }.publish partition basis gc generation).1 := by
  have hprepare : ReportsOnly (s.CallError call)
      (prepare s.settings partition basis gc generation) :=
    (reportsOnly_prepare s.settings gc generation).imp fun _ => .preparation settled
  rw [publish]
  split
  · rename_i f hf
    exact hprepare.of_error hf
  · exact raisesOnly_ok _

omit [Factorization S N α] in
private theorem raisesOnly_checkSize (call : BasisCall α) (gc : SparseMatrix α) :
    RaisesOnly (s.CallError call) (Partition.checkShape gc s.n s.m) :=
  Partition.raisesOnly_checkShape
    (fun what expected actual hwhat => .argument what expected actual
      (List.mem_append_left ["dual estimate"] hwhat)) gc s.n s.m

omit [Factorization S N α] in
private theorem raisesOnly_new (call : BasisCall α) (varPerm equPerm : Permutation) (rank : Nat) :
    RaisesOnly (s.CallError call) (Partition.new varPerm equPerm rank) := by
  rw [Partition.new]
  split
  · exact raisesOnly_ok _
  · exact raisesOnly_error (.partition _)

private theorem reportsOnly_setBasis (client : Partition) (gc : SparseMatrix α) :
    ReportsOnly (s.CallError (.set client gc)) (s.setBasis client gc).1 := by
  have hcheck : RaisesOnly (s.CallError (.set client gc)) (s.checkClient client gc) := by
    refine (raisesOnly_checkSize _ gc).bind fun _ => ?_
    split
    · exact raisesOnly_error (.partition _)
    split
    · exact raisesOnly_error (.partition _)
    · exact raisesOnly_ok ()
  rw [setBasis]
  split
  · rename_i e he
    exact reportsOnly_fail (hcheck e he)
  rename_i hchecked
  split
  · rename_i f _
    exact reportsOnly_ofChecked (.error f)
  rename_i block hblock
  dsimp only
  split
  · rename_i f hf
    refine raisesOnly_error fun e he => ?_
    subst he
    generalize hanswer : (DirectSolver.analyze s.solver block (.ofRank client.rank)).1 = answer
      at hf
    rcases answer with (fault | e') | an
    · cases hf
    · cases hf
      exact .analysis hanswer
    · cases hf
  rename_i an han
  have hrefine : ReportsOnly (s.CallError (.set client gc))
      (refine client an s.n s.m : Attempt (DecompError α) _) := by
    rw [refine]
    iterate 4 refine (reportsOnly_ofChecked _).bind fun _ => ?_
    exact reportsOnly_ofExcept (raisesOnly_new _ _ _ _)
  split
  · rename_i f hf
    exact hrefine.of_error hf
  · rename_i partition hpartition
    exact reportsOnly_publish
      (.set hchecked hblock (Attempt.mapError_eq_ok_iff.1 han) hpartition) _ _ _

private theorem reportsOnly_selectFrom {nu : Option (Array α)} {gc : SparseMatrix α}
    (hcheck : s.checkSelection nu gc = .ok ()) (left attempt : Nat)
    (hleft : attempt + left ≤ s.attempts) {last : SolverError α}
    (hlast : s.CallError (.select nu gc) (.ofSolver last)) :
    ReportsOnly (s.CallError (.select nu gc)) (selectFrom
      (s.selectionHints nu attempt).preferredRows gc left attempt last
      { s with solver := s.solverAfter nu gc attempt }).1 := by
  induction left generalizing attempt last with
  | zero => exact reportsOnly_fail hlast
  | succ left ih =>
    rw [selectFrom]
    dsimp only
    split
    · rename_i an han
      split
      · rename_i e he
        exact reportsOnly_fail (raisesOnly_new _ _ _ _ e he)
      · rename_i partition hpartition
        exact reportsOnly_publish (.select hcheck (by omega) han hpartition) _ _ _
    · rename_i rank required hfailed
      exact ih (attempt + 1) (by omega) (.analysis hfailed)
    · rename_i e _ hfailed
      exact reportsOnly_fail (.analysis hfailed)
    · rename_i f _
      exact reportsOnly_ofChecked (.error f)

private theorem reportsOnly_selectBasis (nu : Option (Array α)) (gc : SparseMatrix α) :
    ReportsOnly (s.CallError (.select nu gc)) (s.selectBasis nu gc).1 := by
  have hcheck : RaisesOnly (s.CallError (.select nu gc)) (s.checkSelection nu gc) := by
    refine (raisesOnly_checkSize _ gc).bind fun _ => ?_
    split
    · exact raisesOnly_ok ()
    split
    · exact raisesOnly_error (.argument _ _ _ (by decide))
    · exact raisesOnly_ok ()
  rw [selectBasis]
  split
  · rename_i e he
    exact reportsOnly_fail (hcheck e he)
  · rename_i hchecked
    exact reportsOnly_selectFrom hchecked s.attempts 0 (by omega) .noAttempt

private theorem reportsOnly_updateBasis (gc : SparseMatrix α) :
    ReportsOnly (s.CallError (.update gc)) (s.updateBasis gc).1 := by
  rw [updateBasis]
  split
  · rename_i e he
    exact reportsOnly_fail (raisesOnly_checkSize _ gc e he)
  rename_i hchecked
  split
  · rename_i e hcurrent
    rw [decomposition] at hcurrent
    split at hcurrent
    · cases hcurrent
    · cases hcurrent
      exact reportsOnly_fail .notInitialized
  rename_i current hdecomposition
  have hcurrent : s.current = some current := by
    rw [decomposition] at hdecomposition
    split at hdecomposition <;> simp_all
  split
  · rename_i f _
    exact reportsOnly_ofChecked (.error f)
  rename_i block hblock
  dsimp only
  generalize hanswer : (DirectSolver.refactor s.solver block current.basis.symbolic).1 = answer
  rcases answer with (fault | e) | basis
  · exact reportsOnly_ofChecked (.error fault)
  · exact reportsOnly_fail (.refactorization hcurrent hblock hanswer)
  · exact reportsOnly_publish (.update hchecked hcurrent hblock hanswer) _ _ _

/-- Whatever a call reports has one of the listed origins. -/
theorem callError_of_perform {call : BasisCall α} {e : DecompError α}
    (h : (s.perform call).1 = Attempt.fail e) : s.CallError call e := by
  cases call with
  | set client gc => exact reportsOnly_setBasis client gc _ h e rfl
  | select nu gc => exact reportsOnly_selectBasis nu gc _ h e rfl
  | update gc => exact reportsOnly_updateBasis gc _ h e rfl

end Decomposer

end ReducedSpace
