import Mathlib
import ReducedSpace.Proofs.Basis.DenseScaling
import ReducedSpace.Proofs.Decomposer.Testing
import ReducedSpace.Proofs.Decomposer.Updates
import ReducedSpace.Proofs.Decomposition.Scaling

/-!
# The choice of a basis does not depend on the scale

All tolerances of the solvers are relative, so that a matrix and its multiples have the same orders
and the same rank, and their factors differ in the scale of `U` only. Systems that are given
multiples of each other's gradients, with a factor of its own for each call, therefore make the same
choices: they keep the same partition, `D`, `Z` and `Y`, and `R`, `Uy` and `Uz` are multiplied.
-/

namespace ReducedSpace

open Elimination

variable {K : Type} [ExactScalar K]

/-- The factors of a multiple by the solver at hand. -/
def ChosenFactors.scale (c : K) : ChosenFactors K → ChosenFactors K
  | dense numeric => dense (numeric.scale c)
  | markowitz numeric => markowitz (numeric.scale c)

/-- A matrix and its multiple, with the same structure, the factors of a multiple, and the error for
a multiple. -/
def Relations.multiple {S N : Type} (scale : K → N → N) (c : K) : Relations K S N where
  gradients a a' := a' = a.scale c
  symbolic := Eq
  basis b b' := b' = { b with numeric := scale c b.numeric }
  error e e' := e' = e.scale c

section Solvers

variable {c : K}

/-- Multiples of gradients have multiples as their blocks. -/
theorem structural_multiple {S N : Type} (scale : K → N → N) (c : K) :
    (Relations.multiple scale c : Relations K S N).Structural where
  rows_eq {a a'} h := by
    obtain rfl : a' = a.scale c := h
    rfl
  cols_eq {a a'} h := by
    obtain rfl : a' = a.scale c := h
    rfl
  submatrix {a a'} h rows cols := by
    obtain rfl : a' = a.scale c := h
    exact a.submatrix_scale rows cols
  singularBasis_iff {e e'} he rank required := by
    obtain rfl : e' = e.scale c := he
    cases e <;> simp [SolverError.scale]

namespace DenseSolver

/-- The leading block of the packed matrix is the packed leading block. -/
private theorem leading_scaleFrom (a : DenseMatrix K) (r : ℕ) :
    (a.scaleFrom r c).leading r r = (a.leading r r).scaleFrom r c := by
  refine DenseMatrix.ext_entry rfl rfl fun i j (hi : i < r) (hj : j < r) => ?_
  simp only [DenseMatrix.leading, DenseMatrix.entry_ofFn, DenseMatrix.entry_scaleFrom, hi, hj,
    and_self, true_and, if_true]

/-- The dense elimination of a multiple takes the same pivots. -/
theorem elimination_scale (solver : DenseSolver K) (hc : c ≠ 0) (a : SparseMatrix K)
    (hints : AnalysisHints) : solver.elimination (a.scale c) hints =
      ((solver.elimination a hints).1,
        (solver.elimination a hints).2.scaleFrom (solver.elimination a hints).1 c) := by
  rw [elimination, SparseMatrix.maxAbs_scale, mul_left_comm, SparseMatrix.toDense_scale]
  exact PivotedMatrix.run_scaleFrom (.start a.toDense) hc hints _ _ _

/-- A dense refactorization of a multiple gives multiplied factors. -/
theorem refactor_scale (solver : DenseSolver K) (hc : c ≠ 0) (block : SparseMatrix K)
    (symbolic : DenseStructure) :
    Corresponds (fun e e' => e' = e.scale c) (Relations.multiple DenseLu.scale c).basis
      (solver.refactor block symbolic) (solver.refactor (block.scale c) symbolic) := by
  rw [refactor, refactor, SparseMatrix.maxAbs_scale, mul_left_comm, SparseMatrix.toDense_scale,
    SparseMatrix.rows_scale, SparseMatrix.cols_scale]
  split
  · refine (DenseLu.factor_scaleFrom hc _ _).map ?_
    rintro f _ rfl
    rfl
  · exact .error rfl

/-- The dense solver takes the same pivots. -/
theorem scales (solver : DenseSolver K) (hc : c ≠ 0) :
    (Relations.multiple DenseLu.scale c : Relations K DenseStructure _).Respected solver where
  toStructural := structural_multiple _ _
  toStateless := Decomposer.stateless_dense solver
  analyze {a a'} h hints := by
    obtain rfl : a' = a.scale c := h
    show Corresponds _ _ (Attempt.ofExcept (solver.analyze a hints))
      (Attempt.ofExcept (solver.analyze (a.scale c) hints))
    refine Corresponds.ofExcept ?_
    rw [analyze_eq, analyze_eq, solver.elimination_scale hc]
    dsimp only
    split
    · exact .error rfl
    · refine .ok ⟨rfl, rfl, rfl, ?_⟩
      show BasisMatrix.mk _ _ (DenseLu.mk _ _) = _
      rw [PivotedMatrix.scaleFrom, leading_scaleFrom]
      rfl
  refactor {block block' symbolic symbolic'} h hsymbolic := by
    obtain rfl : block' = block.scale c := h
    obtain rfl : symbolic = symbolic' := hsymbolic
    exact (solver.refactor_scale hc block symbolic).ofExcept

end DenseSolver

namespace MarkowitzSolver

/-- And so does a sparse one. -/
theorem refactor_scale (solver : MarkowitzSolver K) (hc : c ≠ 0) (block : SparseMatrix K)
    (symbolic : MarkowitzStructure) :
    Corresponds (fun e e' => e' = e.scale c) (Relations.multiple SparseLu.scale c).basis
      (solver.refactor block symbolic) (solver.refactor (block.scale c) symbolic) := by
  rw [refactor, refactor, SparseMatrix.rows_scale, SparseMatrix.cols_scale]
  split
  · refine (SparseLu.factor_scale hc _ _).map ?_
    rintro f _ rfl
    rfl
  · exact .error rfl

/-- The sparse solver takes the same pivots, and the leading blocks are multiples. -/
theorem scales (solver : MarkowitzSolver K) (hc : c ≠ 0) :
    (Relations.multiple SparseLu.scale c : Relations K MarkowitzStructure _).Respected solver where
  toStructural := structural_multiple _ _
  toStateless := Decomposer.stateless_markowitz solver
  analyze {a a'} h hints := by
    obtain rfl : a' = a.scale c := h
    show Corresponds _ _ (solver.analyze a hints) (solver.analyze (a.scale c) hints)
    rw [analyze, analyze, SparseMatrix.maxAbs_scale, mul_left_comm, ActiveMatrix.ofSparse_scale hc,
      SparseMatrix.rows_scale, SparseMatrix.cols_scale, ActiveMatrix.pivots_scale _ hc]
    dsimp only
    split
    · exact .error (.error rfl)
    refine (Corresponds.ofChecked (sameAnswer_self _)).bind ?_
    rintro rowPerm _ ⟨-, rfl⟩
    refine (Corresponds.ofChecked (sameAnswer_self _)).bind ?_
    rintro colPerm _ ⟨-, rfl⟩
    rw [a.submatrix_scale]
    refine (SparseLu.factor_scale hc _ _).ofExcept.bind ?_
    rintro factors _ rfl
    refine .ok ⟨rfl, rfl, rfl, ?_⟩
    rw [SparseMatrix.storedCount_scale, SparseLu.storedCount_scale]
    rfl
  refactor {block block' symbolic symbolic'} h hsymbolic := by
    obtain rfl : block' = block.scale c := h
    obtain rfl : symbolic = symbolic' := hsymbolic
    exact (solver.refactor_scale hc block symbolic).ofExcept

end MarkowitzSolver

/-- Halves of another type that are multiplied alike. -/
private theorem multiple_analyses_map {S N S' N' : Type} {scale : K → N → N} {scale' : K → N' → N'}
    {g : N → N'} (hg : ∀ numeric, g (scale c numeric) = scale' c (g numeric)) (f : S → S')
    {an an' : Analysis S N} (h : (Relations.multiple scale c).Analyses an an') :
    (Relations.multiple scale' c).Analyses (an.map f g) (an'.map f g) := by
  obtain ⟨hrow, hcol, hrank, hbasis⟩ := h
  refine ⟨hrow, hcol, hrank, ?_⟩
  show BasisMatrix.mk _ _ _ = BasisMatrix.mk _ _ _
  rw [show an'.basis = _ from hbasis, hg]
  rfl

/-- So the chosen solver respects multiples. -/
theorem ChosenSolver.scales (solver : ChosenSolver K) (hc : c ≠ 0) :
    (Relations.multiple ChosenFactors.scale c : Relations K ChosenStructure _).Respected
      solver where
  toStructural := structural_multiple _ _
  toStateless := Decomposer.stateless_chosen solver
  analyze h hints := by
    cases solver with
    | dense s =>
      exact ((s.scales hc).analyze h hints).map fun _ _ han =>
        multiple_analyses_map (by intro _; rfl) _ han
    | markowitz s =>
      exact ((s.scales hc).analyze h hints).map fun _ _ han =>
        multiple_analyses_map (by intro _; rfl) _ han
  refactor {block block' symbolic symbolic'} h hsymbolic := by
    obtain rfl : block' = block.scale c := h
    obtain rfl : symbolic = symbolic' := hsymbolic
    refine Corresponds.ofExcept ?_
    cases solver with
    | dense s =>
      cases symbolic with
      | dense inner =>
        refine (s.refactor_scale hc block inner).map fun b b' (hb : b' = _) => ?_
        rw [hb]
        rfl
      | markowitz inner => exact .error rfl
    | markowitz s =>
      cases symbolic with
      | dense inner => exact .error rfl
      | markowitz inner =>
        refine (s.refactor_scale hc block inner).map fun b b' (hb : b' = _) => ?_
        rw [hb]
        rfl

end Solvers

namespace Decomposer

open Decomposition

variable {σ S N : Type} [Factorization S N K] [DirectSolver σ K S N]

/-- The same choice of a basis, for the later calls. -/
def SameChoice (dec dec' : Decomposition K S N) : Prop :=
  dec.partition = dec'.partition ∧ dec.basis.symbolic = dec'.basis.symbolic

section Step

variable [Dimensioned S N] [SizedSolver σ] {scale : K → N → N} {n m : ℕ} {settings : Settings K}
  {s s' : Decomposer σ K S N}

/-- Two systems with the same settings that made the same choice, each of which has come about by
calls. -/
structure UpToScale (scale : K → N → N) (n m : ℕ) (settings : Settings K)
    (s s' : Decomposer σ K S N) : Prop extends SameState SameChoice s s' where
  solves : SolvesExactly s.solver
  scales : ∀ c, c ≠ 0 → (Relations.multiple scale c : Relations K S N).Respected s.solver
  coherent : s.Coherent n m settings
  coherent' : s'.Coherent n m settings

variable (hvalid : settings.validate = .ok ()) (h : UpToScale scale n m settings s s')
  (call : BasisCall K) {c : K} (hc : c ≠ 0)
include hvalid h hc

/-- The self-test passes for both, and what is built for the multiple is the multiple. -/
theorem UpToScale.preparesAlike : PreparesAlike (.multiple scale c) (Multiple c) s s' call
    (call.gradients.scale c) := by
  intro partition basis basis' settled settled' hfactors
  have hbasis : basis' = { basis with numeric := scale c basis.numeric } := hfactors
  have hdim : basis.dim = basis'.dim := by rw [hbasis]
  have hsymbolic : basis.symbolic = basis'.symbolic := by rw [hbasis]
  rw [h.coherent.settings_eq, h.coherent'.settings_eq]
  by_cases hsize : basis.dim = partition.rank
  · have hinverts := settled.inverts h.solves hsize
    have hinverts' := settled'.inverts (h.solver_eq ▸ h.solves) (hdim.symm.trans hsize)
    rw [call.gradients_withGradients] at hinverts'
    obtain ⟨hn, hm, -, -⟩ := settled.proper h.coherent hsize
    obtain ⟨hrows, hcols⟩ := settled.size_gradients
    have hrows := (hrows.trans h.coherent.n_eq).trans hn.symm
    have hcols := (hcols.trans h.coherent.m_eq).trans hm.symm
    have hrows' : (call.gradients.scale c).rows = partition.n := hrows
    have hcols' : (call.gradients.scale c).cols = partition.m := hcols
    rw [prepare_eq_build hvalid hrows hcols hinverts,
      prepare_eq_build hvalid hrows' hcols' hinverts']
    exact (build_scale hc hrows hcols hsize hdim hsymbolic hinverts hinverts' _).corresponds
      (.refl .same)
  · -- Factors of the wrong size solve with no basis block, but they are refused before any solve.
    rw [prepare_of_dim_ne hsize, prepare_of_dim_ne (hdim ▸ hsize), hdim]
    exact .error (.refl .same _)

/-- A call with gradients and the call with their multiple take the same course. -/
theorem UpToScale.course : Course (DecompError.Rel fun e e' => e' = e.scale c) (Multiple c)
    SameChoice (s.perform call)
    (s'.perform (call.withGradients (call.gradients.scale c))) := by
  have hrules : SameRules s.settings s'.settings := by
    rw [h.coherent.settings_eq, h.coherent'.settings_eq]
    exact ⟨rfl, rfl⟩
  exact course_perform (h.scales c hc) h.toSameState
    (fun _ _ hdec => ⟨hdec.partition_eq, hdec.symbolic_eq⟩) hrules call rfl (fun _ _ hdec => hdec)
    (h.preparesAlike hvalid call hc)

/-- A call with multiplied gradients leads to a multiplied system. -/
theorem UpToScale.perform : UpToScale scale n m settings (s.perform call).2
    (s'.perform (call.withGradients (call.gradients.scale c))).2 where
  toSameState := (h.course hvalid call hc).state
  solves := by
    rw [(stateless_of_exact h.solves).solver_perform call]
    exact h.solves
  scales := by
    rw [(stateless_of_exact h.solves).solver_perform call]
    exact h.scales
  coherent := h.coherent.perform call
  coherent' := h.coherent'.perform _

end Step

/-- A system whose choices do not depend on the scale of the gradients: after any two histories of
calls whose gradients are multiples of each other, a call with gradients and the call with a
multiple of them fail for the same reason, or publish a decomposition and the one for the multiple.
After that the systems have made the same choice again. -/
def ScaleInvariant (s : Decomposer σ K S N) : Prop :=
  ∀ history : List (BasisCall K × SparseMatrix K),
    (∀ e ∈ history, ∃ c, c ≠ 0 ∧ e.2 = e.1.gradients.scale c) →
    ∀ (call : BasisCall K) (c : K), c ≠ 0 →
      Course (DecompError.Rel fun e e' => e' = e.scale c) (Multiple c) SameChoice
        ((s.run (history.map fun e => e.1)).perform call)
        ((s.run (history.map fun e => e.1.withGradients e.2)).perform
          (call.withGradients (call.gradients.scale c)))

/-- By induction, so does a whole history. -/
theorem scaleInvariant [Dimensioned S N] [SizedSolver σ] {scale : K → N → N} {solver : σ}
    (hsolver : SolvesExactly solver)
    (hscales : ∀ c, c ≠ 0 → (Relations.multiple scale c : Relations K S N).Respected solver)
    {n m : ℕ} {settings : Settings K} {s : Decomposer σ K S N}
    (hnew : new n m solver settings = .ok s) : s.ScaleInvariant := by
  intro history hhistory call c hc
  have hcoherent := coherent_new hnew
  obtain ⟨hvalid, -, rfl⟩ := new_eq_ok_iff.1 hnew
  have hrun := run_related (UpToScale scale n m settings)
    (fun call gc => ∃ c, c ≠ 0 ∧ gc = call.gradients.scale c)
    (fun _ _ h call _ ⟨_, hc, hgc⟩ => hgc ▸ h.perform hvalid call hc)
    ⟨.refl (fun _ => ⟨rfl, rfl⟩) _, hsolver, hscales, hcoherent, hcoherent⟩ hhistory
  exact hrun.course hvalid call hc

end Decomposer

/-- The choice of a basis is scale invariant. Whatever the tolerances and the hints, each solver
fails alike for a matrix and for a multiple of it, or it finds the same orders and the same rank,
with the same `L` and the multiple of `U`. So are whole systems, with any solver of the library
whose tolerances are in range and any settings: the calls fail alike, or publish the same partition,
`D`, `Z` and `Y`, the multiples of `R`, `Uy` and `Uz`, and a quasi-normal step that is divided. -/
theorem basis_choice_scale_invariant :
    (∀ c : K, c ≠ 0 →
      (∀ solver : DenseSolver K, (Relations.multiple DenseLu.scale c).Respected solver) ∧
      (∀ solver : MarkowitzSolver K, (Relations.multiple SparseLu.scale c).Respected solver) ∧
      (∀ solver : ChosenSolver K, (Relations.multiple ChosenFactors.scale c).Respected solver)) ∧
    ∀ (n m : ℕ) (settings : Settings K),
      (∀ solver : DenseSolver K, solver.Admissible →
        ∀ s, Decomposer.new n m solver settings = .ok s → s.ScaleInvariant) ∧
      (∀ solver : MarkowitzSolver K, solver.Admissible →
        ∀ s, Decomposer.new n m solver settings = .ok s → s.ScaleInvariant) ∧
      (∀ solver : ChosenSolver K, solver.Admissible →
        ∀ s, Decomposer.new n m solver settings = .ok s → s.ScaleInvariant) :=
  ⟨fun _ hc => ⟨fun solver => solver.scales hc, fun solver => solver.scales hc,
      fun solver => solver.scales hc⟩,
    fun _ _ _ =>
      ⟨fun solver h _ => Decomposer.scaleInvariant (DenseSolver.solvesExactly h)
          fun _ hc => solver.scales hc,
        fun solver h _ => Decomposer.scaleInvariant (MarkowitzSolver.solvesExactly h)
          fun _ hc => solver.scales hc,
        fun solver h _ => Decomposer.scaleInvariant (ChosenSolver.solvesExactly h)
          fun _ hc => solver.scales hc⟩⟩

/-- A selection for the double of the gradients, and then an update for a negative multiple: `D` is
the same, `R` is multiplied, and the quasi-normal step is divided. -/
theorem basis_choice_scale_invariant_sample :
    let settings := sampleSettings .markowitz
    let solver := MarkowitzSolver.ofSettings settings
    let s : Decomposer (MarkowitzSolver Rat) Rat MarkowitzStructure (SparseLu Rat) :=
      .sample solver settings
    let r := s.run [.select none sampleGradients]
    let r' := s.run [.select none (sampleGradients.scale 2)]
    let a := r.perform (.update sampleGradients)
    let a' := r'.perform (.update (sampleGradients.scale (-3)))
    (-3 : Rat) ≠ 0 ∧ (2 : Rat) ≠ 0 ∧ solver.Admissible ∧
      Decomposer.new 3 3 solver settings = .ok s ∧
      (Relations.multiple SparseLu.scale (-3)).Respected solver ∧
      a.1.isOk = true ∧ a'.1.isOk = true ∧
      Decomposer.Course (DecompError.Rel fun e e' => e' = e.scale (-3))
        (Decomposition.Multiple (-3)) Decomposer.SameChoice a a' ∧
      [a, a'].map (fun answer => answer.1.toOption.map fun dec => [(dec.d.apply #[1]).toOption,
        (dec.r.apply #[1, 0]).toOption, (dec.quasiNormalStep #[1, 2, 3]).toOption]) =
          [some [some #[-1 / 3, -2 / 9], some #[3, 4], some #[-1 / 3, -2 / 9]],
            some [some #[-1 / 3, -2 / 9], some #[-9, -12], some #[1 / 9, 2 / 27]]] := by
  intro settings solver s r r' a a'
  have hsolver : solver.Admissible :=
    MarkowitzSolver.admissible_ofSettings (sampleSettings_valid .markowitz)
  have hnew : Decomposer.new 3 3 solver settings = .ok s := Decomposer.new_eq_sample _ _
  obtain ⟨hsolvers, hsystems⟩ := basis_choice_scale_invariant (K := Rat)
  have hcourse := (hsystems 3 3 settings).2.1 solver hsolver s hnew
    [(.select none sampleGradients, sampleGradients.scale 2)]
    (List.forall_mem_singleton.2 ⟨2, by decide, rfl⟩) (.update sampleGradients) (-3) (by decide)
  have hok : a.1.isOk = true := by decide +kernel
  exact ⟨by decide, by decide, hsolver, hnew, (hsolvers (-3) (by decide)).2.1 solver,
    hok, hcourse.answer.isOk_eq.symm.trans hok, hcourse, by decide +kernel⟩

end ReducedSpace
