import Mathlib
import ReducedSpace.Proofs.Decomposer.Lockstep
import ReducedSpace.Proofs.Decomposer.Updates
import ReducedSpace.Proofs.Decomposition.StoredZeros

/-!
# Stored zeros make no difference

Matrices that differ in stored zeros only have the same dense form. The solvers treat them alike, in
any arithmetic where zeros are neutral: the same errors, or the same orders, rank and factors, and
structures that differ at most in the number of stored entries of the leading block. In exact
arithmetic whole systems therefore answer related calls with decompositions that give the same
results.
-/

namespace ReducedSpace

/-- The sizes without the number of stored entries of the leading block. -/
def MarkowitzStructure.forgetCount (symbolic : MarkowitzStructure) : MarkowitzStructure :=
  { symbolic with blockCount := 0 }

/-- The structure of the sparse solver without that number. -/
def ChosenStructure.forgetCount : ChosenStructure → ChosenStructure
  | dense symbolic => dense symbolic
  | markowitz symbolic => markowitz symbolic.forgetCount

/-- Matrices with the same dense form, and factors that are equal up to what `forget` takes away
from their structure. Errors are equal. -/
def Relations.storedZeros {α S N : Type} [Scalar α] (forget : S → S) : Relations α S N where
  gradients a a' := a.toDense = a'.toDense
  symbolic s s' := forget s = forget s'
  basis := BasisMatrix.SameFactors forget
  error := Eq

section Solvers

open Relations

variable {α : Type} [Scalar α] {a a' : SparseMatrix α}

/-- Matrices with the same values have the same size, and so do their blocks have the same values.
-/
theorem structural_storedZeros {S N : Type} (forget : S → S) :
    (storedZeros forget : Relations α S N).Structural where
  rows_eq h := (SparseMatrix.toDense_eq_iff.1 h).rows_eq
  cols_eq h := (SparseMatrix.toDense_eq_iff.1 h).cols_eq
  submatrix h rows cols :=
    SparseMatrix.toDense_eq_iff.2 ((SparseMatrix.toDense_eq_iff.1 h).submatrix rows cols)
  singularBasis_iff he rank required := by
    obtain rfl : _ = _ := he
    exact Iff.rfl

/-- A dense structure has nothing to forget. -/
theorem DenseStructure.keepsSolves_id :
    KeepsSolves (DenseLu α) (id : DenseStructure → DenseStructure) := fun _ _ _ _ => rfl

/-- Solves do not read the number of stored entries of the block. -/
theorem MarkowitzStructure.keepsSolves_forgetCount :
    KeepsSolves (SparseLu α) MarkowitzStructure.forgetCount := fun _ _ _ _ => rfl

/-- Nor do those of the chosen solver. -/
theorem ChosenStructure.keepsSolves_forgetCount :
    KeepsSolves (ChosenFactors α) ChosenStructure.forgetCount := by
  intro symbolic numeric o x
  cases symbolic <;> cases numeric <;> rfl

variable [NeutralZero α]

/-- The dense solver analyzes the dense copy. -/
theorem DenseSolver.analyze_congr (solver : DenseSolver α) (h : a.toDense = a'.toDense)
    (hints : AnalysisHints) : solver.analyze a hints = solver.analyze a' hints := by
  have hvalues := SparseMatrix.toDense_eq_iff.1 h
  rw [analyze, analyze, h, hvalues.maxAbs_eq, hvalues.rows_eq, hvalues.cols_eq]

/-- And factors it. -/
theorem DenseSolver.refactor_congr (solver : DenseSolver α) (h : a.toDense = a'.toDense)
    (symbolic : DenseStructure) : solver.refactor a symbolic = solver.refactor a' symbolic := by
  have hvalues := SparseMatrix.toDense_eq_iff.1 h
  rw [refactor, refactor, h, hvalues.maxAbs_eq, hvalues.rows_eq, hvalues.cols_eq]

/-- The sparse solver takes the same pivots, and the leading blocks have the same factors. -/
theorem MarkowitzSolver.analyze_sameAnswer (solver : MarkowitzSolver α)
    (h : a.toDense = a'.toDense) (hints : AnalysisHints) :
    SameAnswer (storedZeros MarkowitzStructure.forgetCount : Relations α _ (SparseLu α)).Analyses
      (solver.analyze a hints) (solver.analyze a' hints) := by
  have hvalues := SparseMatrix.toDense_eq_iff.1 h
  rw [analyze, analyze, hvalues.maxAbs_eq, hvalues.rows_eq, hvalues.cols_eq, hvalues.ofSparse_eq]
  dsimp only
  split
  · exact .error _
  refine (sameAnswer_self _).bind ?_
  rintro rowPerm _ ⟨-, rfl⟩
  refine (sameAnswer_self _).bind ?_
  rintro colPerm _ ⟨-, rfl⟩
  rw [(hvalues.submatrix _ _).factor_eq]
  refine (sameAnswer_self _).bind ?_
  rintro factors _ ⟨-, rfl⟩
  exact .ok ⟨rfl, rfl, rfl, rfl, by simp only [MarkowitzStructure.forgetCount], rfl⟩

/-- The sparse solver drops zeros before it factors. -/
theorem MarkowitzSolver.refactor_sameAnswer (solver : MarkowitzSolver α)
    (h : a.toDense = a'.toDense) {symbolic symbolic' : MarkowitzStructure}
    (hsymbolic : symbolic.forgetCount = symbolic'.forgetCount) :
    SameAnswer (BasisMatrix.SameFactors MarkowitzStructure.forgetCount)
      (solver.refactor a symbolic) (solver.refactor a' symbolic') := by
  have hvalues := SparseMatrix.toDense_eq_iff.1 h
  have hdim : symbolic.dim = symbolic'.dim := (MarkowitzStructure.mk.inj hsymbolic).1
  rw [refactor, refactor, hvalues.rows_eq, hvalues.cols_eq, hdim]
  split
  · rw [hvalues.factor_eq]
    exact (sameAnswer_self _).map fun _ _ heq => ⟨rfl, hsymbolic, heq.2⟩
  · exact .error _

/-- So the dense solver ignores stored zeros. -/
theorem DenseSolver.ignores_storedZeros (solver : DenseSolver α) :
    (storedZeros id : Relations α DenseStructure (DenseLu α)).Respected solver where
  toStructural := structural_storedZeros _
  toStateless := Decomposer.stateless_dense solver
  analyze {a a'} h hints := by
    show Corresponds _ _ (Attempt.ofExcept (solver.analyze a hints))
      (Attempt.ofExcept (solver.analyze a' hints))
    rw [solver.analyze_congr h]
    refine ((sameAnswer_self _).imp ?_).corresponds (.refl fun _ => rfl)
    rintro an _ ⟨-, rfl⟩
    exact ⟨rfl, rfl, rfl, rfl, rfl, rfl⟩
  refactor {block block' symbolic symbolic'} h hsymbolic := by
    obtain rfl : symbolic = symbolic' := hsymbolic
    show Corresponds _ _ (Attempt.ofExcept (solver.refactor block symbolic))
      (Attempt.ofExcept (solver.refactor block' symbolic))
    rw [solver.refactor_congr h]
    refine ((sameAnswer_self _).imp ?_).corresponds (.refl fun _ => rfl)
    rintro b _ ⟨-, rfl⟩
    exact ⟨rfl, rfl, rfl⟩

/-- And so does the sparse one, up to the number of stored entries. -/
theorem MarkowitzSolver.ignores_storedZeros (solver : MarkowitzSolver α) :
    (storedZeros MarkowitzStructure.forgetCount :
      Relations α _ (SparseLu α)).Respected solver where
  toStructural := structural_storedZeros _
  toStateless := Decomposer.stateless_markowitz solver
  analyze h hints := (solver.analyze_sameAnswer h hints).corresponds (.refl fun _ => rfl)
  refactor h hsymbolic :=
    ((solver.refactor_sameAnswer h hsymbolic).corresponds fun _ => rfl).ofExcept

/-- And whichever of them is chosen. -/
theorem ChosenSolver.ignores_storedZeros (solver : ChosenSolver α) :
    (storedZeros ChosenStructure.forgetCount :
      Relations α _ (ChosenFactors α)).Respected solver where
  toStructural := structural_storedZeros _
  toStateless := Decomposer.stateless_chosen solver
  analyze h hints := by
    cases solver with
    | dense s =>
      refine (s.ignores_storedZeros.analyze h hints).map fun an an' han => ?_
      obtain ⟨hdim, hsymbolic, hnumeric⟩ := han.basis
      exact ⟨han.rowPerm_eq, han.colPerm_eq, han.rank_eq, hdim,
        congrArg ChosenStructure.dense hsymbolic, congrArg ChosenFactors.dense hnumeric⟩
    | markowitz s =>
      refine (s.ignores_storedZeros.analyze h hints).map fun an an' han => ?_
      obtain ⟨hdim, hsymbolic, hnumeric⟩ := han.basis
      exact ⟨han.rowPerm_eq, han.colPerm_eq, han.rank_eq, hdim,
        congrArg ChosenStructure.markowitz hsymbolic, congrArg ChosenFactors.markowitz hnumeric⟩
  refactor {block block' symbolic symbolic'} h hsymbolic := by
    have hrows := (SparseMatrix.toDense_eq_iff.1 h).rows_eq
    refine Corresponds.ofExcept ?_
    cases symbolic with
    | dense inner =>
      cases symbolic' with
      | markowitz inner' => cases hsymbolic
      | dense inner' =>
        obtain rfl : inner = inner' := ChosenStructure.dense.inj hsymbolic
        cases solver with
        | markowitz s => exact .error rfl
        | dense s =>
          show Corresponds _ _ ((s.refactor block inner).map _) ((s.refactor block' inner).map _)
          rw [s.refactor_congr h]
          exact ((sameAnswer_self _).corresponds fun _ => rfl).map fun b b' hb =>
            ⟨hrows, rfl, congrArg (fun b => ChosenFactors.dense b.numeric) hb.2⟩
    | markowitz inner =>
      cases symbolic' with
      | dense inner' => cases hsymbolic
      | markowitz inner' =>
        have hinner : inner.forgetCount = inner'.forgetCount :=
          ChosenStructure.markowitz.inj hsymbolic
        cases solver with
        | dense s => exact .error rfl
        | markowitz s =>
          exact ((s.refactor_sameAnswer h hinner).corresponds fun _ => rfl).map fun b b' hb =>
            ⟨hrows, hsymbolic, congrArg ChosenFactors.markowitz hb.numeric_eq⟩

end Solvers

namespace Decomposer

variable {K : Type} [ExactScalar K] {σ S N : Type} [Factorization S N K] [DirectSolver σ K S N]
  {forget : S → S}

/-- Two systems with the same settings and a solver that does not see stored zeros, in the same
state up to these. -/
structure SameUpToZeros (forget : S → S) (s s' : Decomposer σ K S N) : Prop
    extends SameState (Decomposition.SameParts forget) s s' where
  settings_eq : s.settings = s'.settings
  respected : (Relations.storedZeros forget : Relations K S N).Respected s.solver

section Step

variable (hforget : KeepsSolves N forget) {s s' : Decomposer σ K S N}
  (h : SameUpToZeros forget s s') (call : BasisCall K) {gc : SparseMatrix K}
  (hgc : call.gradients.toDense = gc.toDense)
include hforget h hgc

/-- Calls with gradients that differ in stored zeros take the same course. -/
theorem SameUpToZeros.sameCourse :
    SameCourse (Decomposition.SameParts forget) (s.perform call)
      (s'.perform (call.withGradients gc)) := by
  have hrules : SameRules s.settings s'.settings := h.settings_eq ▸ ⟨rfl, rfl⟩
  have hprepare : PreparesAlike (.storedZeros forget) (Decomposition.SameParts forget) s s' call
      gc := by
    intro partition basis basis' _ _ hbasis
    rw [← h.settings_eq]
    exact (Decomposition.prepare_sameParts hforget hbasis (SparseMatrix.toDense_eq_iff.1 hgc)
      partition s.settings _).corresponds (.refl .same)
  have hcourse := course_perform h.respected h.toSameState (fun _ _ hdec => hdec) hrules call hgc
    (fun _ _ hdec => ⟨hdec.partition_eq, hdec.basis.symbolic_eq⟩) hprepare
  exact ⟨hcourse.answer.sameAnswer, hcourse.state⟩

/-- A call with other stored zeros leads to the same system. -/
theorem SameUpToZeros.perform :
    SameUpToZeros forget (s.perform call).2 (s'.perform (call.withGradients gc)).2 where
  toSameState := (h.sameCourse hforget call hgc).state
  settings_eq := by rw [settings_perform, settings_perform, h.settings_eq]
  respected := by
    rw [h.respected.toStateless.solver_perform call]
    exact h.respected

end Step

/-- A system that does not see stored zeros: after any two histories of calls whose gradients have
the same dense forms, two such further calls fail in the same way, or publish decompositions that
give the same results, and the systems are in the same state again. -/
def IgnoresStoredZeros (s : Decomposer σ K S N) : Prop :=
  ∀ history : List (BasisCall K × SparseMatrix K),
    (∀ e ∈ history, e.1.gradients.toDense = e.2.toDense) →
    ∀ (call : BasisCall K) (gc : SparseMatrix K), call.gradients.toDense = gc.toDense →
      SameCourse Decomposition.SameResults ((s.run (history.map fun e => e.1)).perform call)
        ((s.run (history.map fun e => e.1.withGradients e.2)).perform (call.withGradients gc))

/-- By induction, so does a whole history. -/
theorem ignoresStoredZeros (hforget : KeepsSolves N forget) {s : Decomposer σ K S N}
    (hsolver : (Relations.storedZeros forget : Relations K S N).Respected s.solver) :
    s.IgnoresStoredZeros := by
  intro history hhistory call gc hgc
  have hrun := run_related (SameUpToZeros forget)
    (fun call gc => call.gradients.toDense = gc.toDense)
    (fun _ _ h call _ hgc => h.perform hforget call hgc) ⟨.refl (.refl forget) s, rfl, hsolver⟩
    hhistory
  exact (hrun.sameCourse hforget call hgc).imp fun _ _ h => h.sameResults hforget

end Decomposer

/-- Explicitly stored zeros do not matter. In any arithmetic where zeros are neutral each solver
treats matrices with the same dense form alike: it fails in the same way, or finds the same orders,
rank and factors; only the stored entries of the leading block are counted. In exact arithmetic a
system with such a solver, whatever its state, settings and tolerances, answers calls with gradients
of the same dense form alike. -/
theorem stored_zeros_irrelevant :
    (∀ {α : Type} [Scalar α] [NeutralZero α],
      (∀ solver : DenseSolver α, (Relations.storedZeros id).Respected solver) ∧
      (∀ solver : MarkowitzSolver α,
        (Relations.storedZeros MarkowitzStructure.forgetCount).Respected solver) ∧
      (∀ solver : ChosenSolver α,
        (Relations.storedZeros ChosenStructure.forgetCount).Respected solver)) ∧
    ∀ {K : Type} [ExactScalar K],
      (∀ s : Decomposer (DenseSolver K) K DenseStructure (DenseLu K), s.IgnoresStoredZeros) ∧
      (∀ s : Decomposer (MarkowitzSolver K) K MarkowitzStructure (SparseLu K),
        s.IgnoresStoredZeros) ∧
      (∀ s : Decomposer (ChosenSolver K) K ChosenStructure (ChosenFactors K),
        s.IgnoresStoredZeros) :=
  ⟨⟨fun solver => solver.ignores_storedZeros, fun solver => solver.ignores_storedZeros,
      fun solver => solver.ignores_storedZeros⟩,
    fun s => Decomposer.ignoresStoredZeros DenseStructure.keepsSolves_id
      s.solver.ignores_storedZeros,
    fun s => Decomposer.ignoresStoredZeros MarkowitzStructure.keepsSolves_forgetCount
      s.solver.ignores_storedZeros,
    fun s => Decomposer.ignoresStoredZeros ChosenStructure.keepsSolves_forgetCount
      s.solver.ignores_storedZeros⟩

/-- The sample gradients without the zero that they store. -/
def bareGradients : SparseMatrix Rat := .ofDense sampleGradients.toDense

/-- A zero in the leading block, which the structure counts. A selection and an update succeed with
it and without it; and the dense solver of machine numbers is covered as well. -/
theorem stored_zeros_irrelevant_sample :
    let solver := MarkowitzSolver.ofSettings (sampleSettings .markowitz)
    let s : Decomposer (MarkowitzSolver Rat) Rat MarkowitzStructure (SparseLu Rat) :=
      .sample solver (sampleSettings .markowitz)
    sampleGradients.toDense = bareGradients.toDense ∧
      [sampleGradients, bareGradients].map (fun gc => (solver.analyze gc (.ofRank 1)).map fun an =>
        (an.rank, an.basis.symbolic.blockCount)) = [.ok (2, 4), .ok (2, 3)] ∧
      ((s.run [.select none bareGradients]).perform (.update bareGradients)).1.isOk = true ∧
      Decomposer.SameCourse Decomposition.SameResults
        ((s.run [.select none sampleGradients]).perform (.update sampleGradients))
        ((s.run [.select none bareGradients]).perform (.update bareGradients)) ∧
      (Relations.storedZeros MarkowitzStructure.forgetCount).Respected solver ∧
      ∀ machine : DenseSolver Float, (Relations.storedZeros id).Respected machine := by
  intro solver s
  obtain ⟨hsolvers, hsystems⟩ := stored_zeros_irrelevant
  have hentries : ∀ i < 3, ∀ j < 3,
      sampleGradients.toDense.entry i j = bareGradients.toDense.entry i j := by decide +kernel
  have hdense : sampleGradients.toDense = bareGradients.toDense :=
    DenseMatrix.ext_entry rfl rfl fun i j hi hj => hentries i hi j hj
  have hcourse := hsystems.2.1 s [(.select none sampleGradients, bareGradients)]
    (List.forall_mem_singleton.2 hdense) (.update sampleGradients)
    bareGradients hdense
  exact ⟨hdense, by decide +kernel, by decide +kernel, hcourse, hsolvers.2.1 solver, hsolvers.1⟩

end ReducedSpace
