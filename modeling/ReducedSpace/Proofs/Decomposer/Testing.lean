import ReducedSpace.Proofs.Decomposer.Lockstep
import ReducedSpace.Proofs.Decomposer.RangeSpace
import ReducedSpace.Proofs.Decomposition.NotANumber
import ReducedSpace.Proofs.Decomposition.SelfTest
import ReducedSpace.Proofs.Decomposition.Verdicts

/-!
# Testing makes no difference

In exact arithmetic the self-test finds nothing: whatever is published has residuals of zero. So
preparing a decomposition with the test is the same as building it, and systems with and without the
test, or with different tolerances for it, stay in lock-step. In other arithmetic the verdict is
about the three residuals and nothing else.
-/

namespace ReducedSpace

open Elimination Decomposition

section Systems

variable {K : Type} [ExactScalar K] {S N : Type} [Factorization S N K] {settings : Settings K}

/-- The self-test refuses nothing that is built from factors of the basis block. -/
theorem Decomposer.prepare_eq_build (hvalid : settings.validate = .ok ()) {partition : Partition}
    {basis : BasisMatrix S N} {gc : SparseMatrix K} (hrows : gc.rows = partition.n)
    (hcols : gc.cols = partition.m)
    (hinverts : Inverts basis.solve partition.rank (partition.reordered gc)) (generation : ℕ) :
    prepare settings partition basis gc generation =
      build partition basis gc settings generation := by
  rw [prepare]
  cases hbuild : build partition basis gc settings generation with
  | error e => rfl
  | ok dec =>
    have hderived := (build_eq_ok_iff.1 hbuild).derived hrows hcols hinverts
    have hverify := hderived.verify_eq (Settings.attempts_of_validate hvalid).2.le
    show (if settings.testDecomposition then dec.verify gc settings.testTol >>= fun _ => pure dec
      else pure dec) = _
    rw [hverify]
    split
    · rfl
    · rfl

/-- The settings with another choice for the self-test. -/
def Settings.withTest (settings : Settings K) (test : Bool) (tol : K) : Settings K :=
  { settings with testDecomposition := test, testTol := tol }

/-- Valid settings that differ in the self-test only prepare the same decompositions. -/
theorem Decomposer.alike_withTest {test : Bool} {tol : K} (hvalid : settings.validate = .ok ())
    (hvalid' : (settings.withTest test tol).validate = .ok ()) :
    Alike (S := S) (N := N) (· = ·) settings (settings.withTest test tol) where
  allowUndecomposed_eq := rfl
  maxSelectAttempts_eq := rfl
  partition_eq h := congrArg _ h
  basis_eq h := congrArg _ h
  generation_eq h := congrArg _ h
  prepare hrows hcols _ hinverts generation := by
    rw [prepare_eq_build hvalid hrows hcols hinverts,
      prepare_eq_build hvalid' hrows hcols hinverts]
    exact (sameAnswer_self _).imp fun _ _ h => h.2

/-- Two systems with the given solver that differ in the self-test only stay in lock-step: with the
same record of recoveries, every history leads to the same published decomposition and the same
state, and every further event has the same answer. -/
def Decomposer.TestIrrelevant {σ : Type} [DirectSolver σ K S N] (n m : ℕ) (solver : σ)
    (settings : Settings K) (test : Bool) (tol : K) (rec : Recovery K) : Prop :=
  ∀ s s' : Decomposer σ K S N, new n m solver settings = .ok s →
    new n m solver (settings.withTest test tol) = .ok s' →
    (⟨rec, s⟩ : Session σ K S N).Lockstep (· = ·) ⟨rec, s'⟩

/-- With a solver that solves exactly the self-test makes no difference. -/
theorem Decomposer.testIrrelevant {σ : Type} [DirectSolver σ K S N] [Dimensioned S N]
    [SizedSolver σ] {solver : σ} (hsolver : SolvesExactly solver) (n m : ℕ)
    (settings : Settings K) (test : Bool) (tol : K) (rec : Recovery K) :
    TestIrrelevant n m solver settings test tol rec := by
  intro s s' h h'
  have hvalid := (new_eq_ok_iff.1 h).1
  have hvalid' := (new_eq_ok_iff.1 h').1
  exact Session.lockstep_new (alike_withTest hvalid hvalid') hsolver h h' rec

end Systems

/-- The self-test never rejects a sound decomposition. In exact arithmetic the residuals of whatever
is published are zero for its gradients, and the test passes for every tolerance that is not
negative; so systems that differ in the self-test only stay in lock-step, with any solver of the
library whose tolerances are in range. For all scalars whose numbers can be compared, and every
tolerance that is not negative, the test passes exactly if no residual is a NaN and each is at most
the tolerance. -/
theorem self_test_verdicts :
    (∀ {K : Type} [ExactScalar K] {S N : Type} [Factorization S N K] {dec : Decomposition K S N}
      {gc : SparseMatrix K}, dec.PublishedFor gc → dec.selfTest gc = .ok ⟨0, 0, 0⟩ ∧
        ∀ tol, 0 ≤ tol → dec.verify gc tol = .ok ⟨0, 0, 0⟩) ∧
    (∀ {K : Type} [ExactScalar K] (n m : ℕ) (settings : Settings K) (test : Bool) (tol : K)
      (rec : Recovery K),
      (∀ solver : DenseSolver K, solver.Admissible →
        Decomposer.TestIrrelevant n m solver settings test tol rec) ∧
      (∀ solver : MarkowitzSolver K, solver.Admissible →
        Decomposer.TestIrrelevant n m solver settings test tol rec) ∧
      (∀ solver : ChosenSolver K, solver.Admissible →
        Decomposer.TestIrrelevant n m solver settings test tol rec)) ∧
    ∀ {α : Type} [Scalar α] [ComparableScalar α] {S N : Type} [Factorization S N α]
      (dec : Decomposition α S N) (gc : SparseMatrix α) (tol : α), Scalar.le 0 tol = true →
      ∀ t : SelfTest α, dec.verify gc tol = .ok t ↔ dec.selfTest gc = .ok t ∧
        ∀ e ∈ t.named, Scalar.isNaN e.2 = false ∧ Scalar.le e.2 tol = true := by
  refine ⟨fun h => ?_, fun n m settings test tol rec => ?_, fun dec gc tol htol t => ?_⟩
  · obtain ⟨settings, hderived⟩ := h.derived
    exact ⟨hderived.selfTest_eq, fun tol htol => hderived.verify_eq htol⟩
  · exact ⟨fun _ h => Decomposer.testIrrelevant (DenseSolver.solvesExactly h) n m _ _ _ _,
      fun _ h => Decomposer.testIrrelevant (MarkowitzSolver.solvesExactly h) n m _ _ _ _,
      fun _ h => Decomposer.testIrrelevant (ChosenSolver.solvesExactly h) n m _ _ _ _⟩
  · exact verify_eq_ok_iff_le htol

/-- A system that tests with a small tolerance and one that does not test, a published decomposition
with residuals of zero, the verdicts on it for other gradients and for two tolerances, and a verdict
on machine numbers. -/
theorem self_test_verdicts_sample :
    let settings := sampleSettings .markowitz
    let solver := MarkowitzSolver.ofSettings settings
    let s : Decomposer (MarkowitzSolver Rat) Rat MarkowitzStructure (SparseLu Rat) :=
      .sample solver settings
    let s' : Decomposer (MarkowitzSolver Rat) Rat MarkowitzStructure (SparseLu Rat) :=
      .sample solver (settings.withTest false 5)
    solver.Admissible ∧ Decomposer.new 3 3 solver settings = .ok s ∧
      Decomposer.new 3 3 solver (settings.withTest false 5) = .ok s' ∧
      (⟨.ofSettings settings, s⟩ : Session _ Rat _ _).Lockstep (· = ·) ⟨.ofSettings settings, s'⟩ ∧
      (∃ dec, (s.run [.select none sampleGradients]).current = some dec ∧
        dec.PublishedFor sampleGradients ∧ dec.selfTest sampleGradients = .ok ⟨0, 0, 0⟩ ∧
        dec.verify sampleGradients 0 = .ok ⟨0, 0, 0⟩ ∧
        dec.verify laterGradients (2 / 5) = .ok ⟨0, 13 / 126, 12 / 35⟩ ∧
        ∀ t, dec.verify laterGradients (1 / 5) ≠ .ok t) ∧
      Scalar.le (0 : Float) 0 = true ∧ unpaired.verify sumGradients 0 = .ok ⟨0, 0, 0⟩ := by
  intro settings solver s s'
  obtain ⟨hsound, hsystems, hverdict⟩ := self_test_verdicts
  have hvalid : settings.validate = .ok () := sampleSettings_valid .markowitz
  have hsolver : solver.Admissible := MarkowitzSolver.admissible_ofSettings hvalid
  have hnew : Decomposer.new 3 3 solver settings = .ok s := Decomposer.new_eq_sample _ _
  have hnew' : Decomposer.new 3 3 solver (settings.withTest false 5) = .ok s' :=
    Decomposer.new_eq_ok_iff.2 ⟨by decide +kernel, .inl (Nat.le_refl 3), rfl⟩
  have hrun : (s.run [.select none sampleGradients]).current.map (fun dec =>
      dec.selfTest laterGradients) = some (.ok ⟨0, 13 / 126, 12 / 35⟩) := by decide +kernel
  obtain ⟨dec, hdec, hlater⟩ := Option.map_eq_some_iff.1 hrun
  have hpublished : dec.PublishedFor sampleGradients :=
    .markowitz hsolver ⟨3, 3, _, _, _, hnew, hdec, Decomposer.lastGradients_first rfl hdec⟩
  obtain ⟨htest, hverify⟩ := hsound hpublished
  have hpasses : dec.verify laterGradients (2 / 5) = .ok ⟨0, 13 / 126, 12 / 35⟩ :=
    (hverdict dec laterGradients (2 / 5) (by decide +kernel) _).2 ⟨hlater, by decide +kernel⟩
  have hfails : ∀ t, dec.verify laterGradients (1 / 5) ≠ .ok t := by
    intro t ht
    obtain ⟨ht, hbounded⟩ := (hverdict dec laterGradients (1 / 5) (by decide +kernel) t).1 ht
    obtain rfl : t = ⟨0, 13 / 126, 12 / 35⟩ := Except.ok.inj (ht.symm.trans hlater)
    exact absurd hbounded (by decide +kernel)
  have hmachine : unpaired.verify sumGradients 0 = .ok ⟨0, 0, 0⟩ :=
    (hverdict unpaired sumGradients 0 (by decide +kernel) _).2
      ⟨by decide +kernel, by decide +kernel⟩
  exact ⟨hsolver, hnew, hnew', (hsystems 3 3 settings false 5 _).2.1 solver hsolver s s' hnew hnew',
    ⟨dec, hdec, hpublished, htest, hverify 0 le_rfl, hpasses, hfails⟩, by decide +kernel, hmachine⟩

end ReducedSpace
