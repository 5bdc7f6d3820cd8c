import ReducedSpace.Proofs.Decomposer.Lockstep
import ReducedSpace.Proofs.Decomposer.RangeSpace
import ReducedSpace.Proofs.Decomposition.StoredForms

/-!
# Forming the sensitivity matrix makes no difference

In exact arithmetic a coordinate system may form `D` or apply it by solves: the decompositions are
interchangeable, so both systems answer every history of calls and recoveries in the same way. The
self-test, which runs before a decomposition is published, has no part in it, since it only
multiplies with `D`.
-/

namespace ReducedSpace

open Elimination Decomposition

variable {K : Type} [ExactScalar K]

section Systems

variable {S N : Type} [Factorization S N K] {settings : Settings K}

/-- For the coordinate kind both forms are prepared alike. -/
theorem Decomposer.alike_interchangeable (hkind : settings.kind = .coordinate) :
    Alike (S := S) (N := N) Interchangeable { settings with sensitivity := .explicit }
      { settings with sensitivity := .implicit } where
  allowUndecomposed_eq := rfl
  maxSelectAttempts_eq := rfl
  partition_eq h := h.partition_eq
  basis_eq h := h.basis_eq
  generation_eq h := h.generation_eq
  prepare _ _ hdim hinverts generation := by
    rw [← hdim] at hinverts
    refine (build_interchangeable hkind hinverts _ _ _).bind fun dec dec' h => ?_
    rw [h.verify_eq]
    dsimp only
    split
    · exact (sameAnswer_self _).bind fun _ _ _ => .ok h
    · exact .ok h

/-- The form of `D` makes no difference to which settings of the coordinate kind are valid. -/
theorem Settings.validate_of_coordinate (hkind : settings.kind = .coordinate)
    (form form' : Explicitness) :
    ({ settings with sensitivity := form } : Settings K).validate =
      ({ settings with sensitivity := form' } : Settings K).validate := by
  simp [validate, checks, hkind]

/-- Two systems with the given solver that differ only in the form of `D` can both be created or
neither can, for the same reason, and with the same record of recoveries they stay in lock-step. -/
def Decomposer.FormsInterchange {σ : Type} [DirectSolver σ K S N] (n m : ℕ) (solver : σ)
    (settings : Settings K) (rec : Recovery K) : Prop :=
  SameAnswer (fun s s' : Decomposer σ K S N =>
      (⟨rec, s⟩ : Session σ K S N).Lockstep Interchangeable ⟨rec, s'⟩)
    (new n m solver { settings with sensitivity := .explicit })
    (new n m solver { settings with sensitivity := .implicit })

theorem Decomposer.formsInterchange {σ : Type} [DirectSolver σ K S N] [Dimensioned S N]
    [SizedSolver σ] {solver : σ} (hsolver : SolvesExactly solver)
    (hkind : settings.kind = .coordinate) (n m : ℕ) (rec : Recovery K) :
    FormsInterchange n m solver settings rec := by
  have hvalidate := Settings.validate_of_coordinate hkind .explicit .implicit
  rw [FormsInterchange, new, new, hvalidate]
  refine (sameAnswer_self _).bind ?_
  rintro ⟨⟩ _ ⟨hvalid, rfl⟩
  split
  · exact .error _
  · rename_i hsize
    have hsize : m ≤ n ∨ settings.allowUndecomposed = true := by
      rwa [not_and_or, Nat.not_lt, not_not] at hsize
    exact .ok (Session.lockstep_new (alike_interchangeable hkind) hsolver
      (new_eq_ok_iff.2 ⟨hvalidate.trans hvalid, hsize, rfl⟩)
      (new_eq_ok_iff.2 ⟨hvalid, hsize, rfl⟩) rec)

end Systems

/-- In exact arithmetic explicit and implicit sensitivities are interchangeable: whatever the
partition, the gradients and the factors of some nonsingular matrix, both coordinate decompositions
are built or neither is, and they give the same results; and two coordinate systems that differ only
in this setting stay in lock-step, with any solver of the library whose tolerances are in range. -/
theorem sensitivity_forms_interchangeable {settings : Settings K}
    (hkind : settings.kind = .coordinate) :
    (∀ {S N : Type} [Factorization S N K] (partition : Partition) (basis : BasisMatrix S N)
      (gc : SparseMatrix K) (generation : ℕ) (w : ℕ → ℕ → K),
      Inverts basis.solve basis.dim w → SameAnswer Interchangeable
        (build partition basis gc { settings with sensitivity := .explicit } generation)
        (build partition basis gc { settings with sensitivity := .implicit } generation)) ∧
    ∀ (n m : ℕ) (rec : Recovery K),
      (∀ solver : DenseSolver K, solver.Admissible →
        Decomposer.FormsInterchange n m solver settings rec) ∧
      (∀ solver : MarkowitzSolver K, solver.Admissible →
        Decomposer.FormsInterchange n m solver settings rec) ∧
      (∀ solver : ChosenSolver K, solver.Admissible →
        Decomposer.FormsInterchange n m solver settings rec) :=
  ⟨fun partition _ gc generation _ h => build_interchangeable hkind h partition gc generation,
    fun n m rec =>
      ⟨fun _ h => Decomposer.formsInterchange (DenseSolver.solvesExactly h) hkind n m rec,
        fun _ h => Decomposer.formsInterchange (MarkowitzSolver.solvesExactly h) hkind n m rec,
        fun _ h => Decomposer.formsInterchange (ChosenSolver.solvesExactly h) hkind n m rec⟩⟩

/-- The gradients of two equations that do not depend on the third of four variables. For the first
two as the dependent variables, the first column of `N` is zero. -/
def slackGradients : SparseMatrix Rat :=
  .ofEntries 4 2 fun i j =>
    (#[#[some 2, none], #[some 1, some 1], #[], #[some 3, some 2]].getD i #[]).getD j none

/-- A system that forms `D`, with a column that needs no solve, and one that does not. -/
theorem sensitivity_forms_interchangeable_sample :
    let settings := sampleSettings .markowitz
    let solver := MarkowitzSolver.ofSettings settings
    let system (form : Explicitness) :
        Decomposer (MarkowitzSolver Rat) Rat MarkowitzStructure (SparseLu Rat) :=
      ⟨solver, { settings with sensitivity := form }, 4, 2, none, 0⟩
    settings.kind = .coordinate ∧ solver.Admissible ∧
      Decomposer.FormsInterchange 4 2 solver settings (.ofSettings settings) ∧
      (∀ form, (((system form).run [.set firstBasis slackGradients]).current.map fun dec =>
        dec.d.apply #[5, 2]) = some (.ok #[-1, -4])) ∧
      ∃ dec, ((system .explicit).run [.set firstBasis slackGradients]).current = some dec ∧
        dec.formed?.map (fun a => (a.entry 0 0, a.entry 0 1)) = some (0, -1 / 2) ∧
        Inverts dec.basis.solve dec.basis.dim (dec.partition.reordered slackGradients) ∧
        SameAnswer Interchangeable
          (build dec.partition dec.basis slackGradients { settings with sensitivity := .explicit } 1)
          (build dec.partition dec.basis slackGradients
            { settings with sensitivity := .implicit } 1) := by
  intro settings solver system
  have hsolver : solver.Admissible :=
    MarkowitzSolver.admissible_ofSettings (sampleSettings_valid .markowitz)
  have hvalues : ∀ form, (((system form).run [.set firstBasis slackGradients]).current.map
      fun dec => dec.d.apply #[5, 2]) = some (.ok #[-1, -4]) := by
    intro form
    cases form with
    | explicit => decide +kernel
    | implicit => decide +kernel
  have hnew : Decomposer.new 4 2 solver { settings with sensitivity := .explicit } =
      .ok (system .explicit) :=
    Decomposer.new_eq_ok_iff.2 ⟨sampleSettings_valid .markowitz, .inl (by decide), rfl⟩
  have hrun : ((system .explicit).run [.set firstBasis slackGradients]).current.map (fun dec =>
      dec.formed?.map (fun a => (a.entry 0 0, a.entry 0 1))) = some (some (0, -1 / 2)) := by
    decide +kernel
  obtain ⟨dec, hdec, hformed⟩ := Option.map_eq_some_iff.1 hrun
  have hpublished : dec.PublishedFor slackGradients :=
    .markowitz hsolver ⟨4, 2, _, _, _, hnew, hdec, Decomposer.lastGradients_first rfl hdec⟩
  obtain ⟨_, hderived⟩ := hpublished.derived
  have hinverts := hderived.inverts
  rw [← hderived.dim_eq] at hinverts
  have hkind : settings.kind = .coordinate := rfl
  obtain ⟨hbuild, hsystems⟩ := sensitivity_forms_interchangeable hkind
  exact ⟨hkind, hsolver, (hsystems 4 2 _).2.1 solver hsolver, hvalues, dec, hdec, hformed, hinverts,
    hbuild dec.partition dec.basis slackGradients 1 _ hinverts⟩

end ReducedSpace
