import Mathlib
import ReducedSpace.Proofs.Basis.Exactness
import ReducedSpace.Proofs.Decomposer.Invariant
import ReducedSpace.Proofs.Decomposition.Identities

/-!
# The identities along every run

Every way to publish a decomposition hands it factors of its own basis block: an adopted or selected
partition those of the analysis, an update those of the refactorization. So after any calls, failed
ones included, the published decomposition is derived from the gradients of the last call that
succeeded, and its views satisfy the identities for them.
-/

namespace ReducedSpace.Decomposer

open Elimination

variable {K : Type} [ExactScalar K] {σ S N : Type} [Factorization S N K] [DirectSolver σ K S N]

/-- The gradients of the last call that succeeds, starting from given ones. -/
def lastGradientsFrom (last : Option (SparseMatrix K)) (s : Decomposer σ K S N) :
    List (BasisCall K) → Option (SparseMatrix K)
  | [] => last
  | call :: calls =>
    match s.perform call with
    | (.ok _, s') => lastGradientsFrom (some call.gradients) s' calls
    | (.error _, s') => lastGradientsFrom last s' calls

/-- The gradients of the last call that succeeds. -/
def lastGradients (s : Decomposer σ K S N) (calls : List (BasisCall K)) :
    Option (SparseMatrix K) := s.lastGradientsFrom none calls

/-- The solver is exact, and the published decomposition is derived from the given gradients. -/
structure Exact (s : Decomposer σ K S N) (last : Option (SparseMatrix K)) : Prop where
  solves : SolvesExactly s.solver
  derived : ∀ dec, s.current = some dec → ∃ gc, last = some gc ∧ dec.Derived gc s.settings

section Step

variable {s : Decomposer σ K S N} {call : BasisCall K} {partition : Partition}
  {basis : BasisMatrix S N}

/-- An exact solver keeps its state. -/
theorem stateless_of_exact {solver : σ} (h : SolvesExactly solver) : Stateless solver :=
  ⟨h.state_analyze, h.state_refactor⟩

omit [Factorization S N K] in
/-- The gradients of a call that settles on a partition have the size of the system. -/
theorem Settles.size_gradients (h : s.Settles call partition basis) :
    call.gradients.rows = s.n ∧ call.gradients.cols = s.m :=
  Partition.checkShape_eq_ok_iff.1 h.checkShape

variable [Dimensioned S N] [SizedSolver σ]

private theorem entry_basisBlock {p : Partition} {gc block : SparseMatrix K}
    (h : p.basisBlock gc = .ok block) {i j : ℕ} (hi : i < p.rank) (hj : j < p.rank) :
    block.entry i j = p.reordered gc i j := by
  obtain ⟨-, -, hfind⟩ := Partition.basisBlock_spec h
  exact congrArg (fun v => v.getD 0) (hfind i j hi hj)

/-- What a call settles on solves with the basis block of its own gradients. -/
theorem Settles.inverts (h : s.Settles call partition basis) (hs : SolvesExactly s.solver)
    (hdim : basis.dim = partition.rank) :
    Inverts basis.solve partition.rank (partition.reordered call.gradients) := by
  cases h with
  | @set client gc block an partition checked extracted analyzed refined =>
    have hp := refines_of_refine refined
    have hfits := SizedSolver.analyze_fits analyzed
    obtain ⟨hrows, hcols, -⟩ := Partition.basisBlock_spec extracted
    have hrank : an.rank = partition.rank := hfits.hasDim.dim_eq.symm.trans hdim
    have hinverts := hs.inverts_analyze analyzed
    rw [hrank] at hinverts
    refine hinverts.congr fun i j hi hj => ?_
    rw [hp.rank_eq] at hi hj
    have hi' : an.rowPerm.old i < client.rank := by
      rw [← hrows, ← hfits.size_rowPerm] at hi ⊢
      exact an.rowPerm.old_lt_iff.2 hi
    have hj' : an.colPerm.old j < client.rank := by
      rw [← hcols, ← hfits.size_colPerm] at hj ⊢
      exact an.colPerm.old_lt_iff.2 hj
    rw [entry_basisBlock extracted hi' hj']
    unfold Partition.reordered
    rw [hp.varPerm_old, hp.equPerm_old]
    rfl
  | @select nu gc attempt an partition checked attempt_lt analyzed formed =>
    obtain ⟨hvar, hequ, hrank⟩ := Partition.new_eq_ok_iff.1 formed
    rw [(stateless_of_exact hs).solverAfter_eq] at analyzed
    have hinverts := hs.inverts_analyze analyzed
    unfold Partition.reordered
    rw [hvar, hequ, hrank]
    exact hinverts
  | @update gc block current basis checked published extracted refactored =>
    have hinverts := hs.inverts_refactor refactored
    rw [hdim] at hinverts
    exact hinverts.congr fun i j hi hj => entry_basisBlock extracted hi hj

end Step

section Run

variable [Dimensioned S N] [SizedSolver σ] {s : Decomposer σ K S N} {n m : ℕ}
  {settings : Settings K} {last : Option (SparseMatrix K)}

/-- A call that succeeds publishes a decomposition that is derived from its gradients, and a call
that fails changes nothing. -/
theorem Exact.perform (h : s.Exact last) (hs : s.Coherent n m settings) (call : BasisCall K) :
    (s.perform call).2.Exact
      (match (s.perform call).1 with
        | .ok _ => some call.gradients
        | .error _ => last) := by
  have hsolver := (stateless_of_exact h.solves).solver_perform call
  have houtcome := s.perform_outcome call
  generalize s.perform call = answer at hsolver houtcome ⊢
  cases houtcome with
  | failed e solver =>
    have hsolver : solver = s.solver := hsolver
    exact ⟨hsolver.symm ▸ h.solves, h.derived⟩
  | @published partition basis dec solver settled prepared =>
    have hsolver : solver = s.solver := hsolver
    have hbuilt := (prepare_eq_ok_iff.1 prepared).1
    obtain ⟨hn, hm, -, -⟩ := settled.proper hs hbuilt.dim_eq
    obtain ⟨hrows, hcols⟩ := settled.size_gradients
    have hinverts := settled.inverts h.solves hbuilt.dim_eq
    refine ⟨hsolver.symm ▸ h.solves, fun d hd => ⟨call.gradients, rfl, ?_⟩⟩
    cases hd
    refine hbuilt.derived ?_ ?_ hinverts
    · rw [hrows, hs.n_eq, hn]
    · rw [hcols, hs.m_eq, hm]

/-- Every run keeps the published decomposition derived from the gradients of the last call that
succeeded. -/
theorem Exact.run (h : s.Exact last) (hs : s.Coherent n m settings) (calls : List (BasisCall K)) :
    (s.run calls).Exact (s.lastGradientsFrom last calls) := by
  induction calls generalizing s last with
  | nil => exact h
  | cons call calls ih =>
    have hperform := h.perform hs call
    have hcoherent := hs.perform call
    show ((s.perform call).2.run calls).Exact _
    rw [lastGradientsFrom]
    generalize s.perform call = answer at hperform hcoherent ⊢
    obtain ⟨outcome, s'⟩ := answer
    cases outcome with
    | ok dec => exact ih hperform hcoherent
    | error e => exact ih hperform hcoherent

omit [Dimensioned S N] [SizedSolver σ] in
/-- A new system has nothing that could be inexact. -/
theorem exact_new {solver : σ} (hsolver : SolvesExactly solver)
    (h : new n m solver settings = .ok s) : s.Exact none := by
  obtain ⟨-, -, rfl⟩ := new_eq_ok_iff.1 h
  exact ⟨hsolver, fun dec hdec => by cases hdec⟩

omit [Dimensioned S N] [SizedSolver σ] in
/-- Whatever is published after the calls satisfies the identities for the gradients of the last
call that succeeded. -/
def IdentitiesHold (s : Decomposer σ K S N) (calls : List (BasisCall K)) : Prop :=
  ∀ dec, (s.run calls).current = some dec →
    ∃ gc, s.lastGradients calls = some gc ∧ gc.rows = dec.partition.n ∧
      gc.cols = dec.partition.m ∧ ∃ d z y r uy uz, dec.Identities gc d z y r uy uz

/-- So after any calls the identities hold of what is published. -/
theorem identitiesHold_of_new {solver : σ} (hsolver : SolvesExactly solver)
    (h : new n m solver settings = .ok s) (calls : List (BasisCall K)) :
    s.IdentitiesHold calls := by
  intro dec hdec
  have hrun := (exact_new hsolver h).run (coherent_new h) calls
  obtain ⟨gc, hgc, hderived⟩ := hrun.derived dec hdec
  exact ⟨gc, hgc, hderived.rows_eq, hderived.cols_eq, hderived.exists_identities⟩

end Run

/-- With either solver and any valid settings, for the tolerances of the solver as for the system,
the identities hold after any calls. -/
theorem run_identities {tuning settings : Settings K} (htuning : tuning.validate = .ok ())
    (n m : ℕ) (calls : List (BasisCall K)) :
    (∀ s, new n m (DenseSolver.ofSettings tuning) settings = .ok s → s.IdentitiesHold calls) ∧
    (∀ s, new n m (MarkowitzSolver.ofSettings tuning) settings = .ok s →
      s.IdentitiesHold calls) ∧
    (∀ s, new n m (ChosenSolver.ofSettings tuning) settings = .ok s → s.IdentitiesHold calls) :=
  ⟨fun _ h => identitiesHold_of_new
      (DenseSolver.solvesExactly (DenseSolver.admissible_ofSettings htuning)) h calls,
    fun _ h => identitiesHold_of_new
      (MarkowitzSolver.solvesExactly (MarkowitzSolver.admissible_ofSettings htuning)) h calls,
    fun _ h => identitiesHold_of_new
      (ChosenSolver.solvesExactly (ChosenSolver.admissible_ofSettings htuning)) h calls⟩

/-- A sample system publishes a decomposition of rank two, and the identities hold for it. -/
theorem run_identities_sample :
    let s := sample (MarkowitzSolver.ofSettings (sampleSettings .markowitz))
      (sampleSettings .markowitz)
    (sampleSettings .markowitz).validate = .ok () ∧ new 3 3 s.solver s.settings = .ok s ∧
      ((s.run [.select none sampleGradients, .update sampleGradients]).current.map
        fun dec => dec.rank) = some 2 ∧
      s.IdentitiesHold [.select none sampleGradients, .update sampleGradients] := by
  intro s
  have hvalid := sampleSettings_valid .markowitz
  have hnew : new 3 3 s.solver s.settings = .ok s := new_eq_sample _ _
  refine ⟨hvalid, hnew, by decide +kernel, ?_⟩
  exact (run_identities hvalid 3 3 _).2.1 s hnew

end ReducedSpace.Decomposer
