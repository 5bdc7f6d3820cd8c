import Mathlib
import ReducedSpace.Proofs.Basis.Answers
import ReducedSpace.Proofs.Decomposer.Publication
import ReducedSpace.Proofs.Exact.Scalar
import ReducedSpace.Proofs.Partition

/-!
# The invariant of a system

Whatever calls a system has seen, with whatever arguments and in whatever arithmetic, its published
decomposition orders all variables and all equations, its basis has the rank of its partition, and
the generation counts the bases that were adopted. The only assumption is on the solver: its answers
have the right sizes, which holds of the solvers of the library.
-/

namespace ReducedSpace

/-- The lists of a partition of `n` variables and `m` equations are what they should be. -/
structure Partition.Splits (p : Partition) (n m : Nat) : Prop where
  n_eq : p.n = n
  m_eq : p.m = m
  varPerm_bijective : Set.BijOn p.varPerm.old (Set.Iio n) (Set.Iio n)
  equPerm_bijective : Set.BijOn p.equPerm.old (Set.Iio m) (Set.Iio m)
  depVars_disjoint : ∀ i ∈ p.depVars, i ∉ p.indepVars
  depVars_cover : ∀ i, i < n ↔ i ∈ p.depVars ∨ i ∈ p.indepVars
  decompEqus_disjoint : ∀ j ∈ p.decompEqus, j ∉ p.undecompEqus
  decompEqus_cover : ∀ j, j < m ↔ j ∈ p.decompEqus ∨ j ∈ p.undecompEqus
  size_depVars : p.depVars.size = p.rank
  size_decompEqus : p.decompEqus.size = p.rank

/-- Every partition splits its variables and its equations. -/
theorem Partition.splits (p : Partition) : p.Splits p.n p.m where
  n_eq := rfl
  m_eq := rfl
  varPerm_bijective := p.varPerm.bijOn_old
  equPerm_bijective := p.equPerm.bijOn_old
  depVars_disjoint _ := p.depVars_disjoint
  depVars_cover _ := p.depVars_cover
  decompEqus_disjoint _ := p.decompEqus_disjoint
  decompEqus_cover _ := p.decompEqus_cover
  size_depVars := p.size_depVars
  size_decompEqus := p.size_decompEqus

/-- A decomposition of `n` variables and `m` equations whose basis factors, in both their halves,
have the rank of its partition. -/
structure Decomposition.Proper {α S N : Type} [Dimensioned S N] (dec : Decomposition α S N)
    (n m : Nat) : Prop where
  splits : dec.partition.Splits n m
  hasDim : dec.basis.HasDim dec.partition.rank

/-- Rational settings without tolerances for pivots. -/
def sampleSettings (solver : SolverChoice) : Settings Rat where
  solver := solver
  kind := .coordinate
  sensitivity := .explicit
  pivotThreshold := 1 / 10
  rankTol := 0
  refactorTol := 0
  maxSearch := 4
  maxSelectAttempts := 3
  allowUndecomposed := true
  betaSource := .quasiNormalStep
  maxCondChangeFrac := 1000
  maxCond := 1000
  testDecomposition := true
  testTol := 1 / 1000

theorem sampleSettings_valid (solver : SolverChoice) :
    (sampleSettings solver).validate = .ok () := by
  cases solver with
  | dense => decide +kernel
  | markowitz => decide +kernel

/-- The gradients of three equations in three variables; the third equation is the sum of the
others. -/
def sampleGradients : SparseMatrix Rat :=
  .ofEntries 3 3 fun i j =>
    ((#[#[1, 2, 3], #[0, 3, 3], #[3, 4, 7]] : Array (Array Rat)).getD i #[])[j]?

/-- The gradients of the same equations at another point. -/
def laterGradients : SparseMatrix Rat :=
  .ofEntries 3 3 fun i j =>
    ((#[#[2, 1, 3], #[1, 5, 6], #[1, 1, 2]] : Array (Array Rat)).getD i #[])[j]?

namespace Decomposer

section Refinement

variable {α S N : Type}

/-- A partition that reorders the leading variables and equations of another one as an analysis
asks for. -/
structure Refines (p client : Partition) (an : Analysis S N) (n m : Nat) : Prop where
  rank_eq : p.rank = client.rank
  n_eq : p.n = n
  m_eq : p.m = m
  client_n_eq : client.n = n
  client_m_eq : client.m = m
  varPerm_old : ∀ i, p.varPerm.old i = client.varPerm.old (an.rowPerm.old i)
  equPerm_old : ∀ j, p.equPerm.old j = client.equPerm.old (an.colPerm.old j)

private theorem compose_extendIdentity {outer inner extended p : Permutation} {n : Nat}
    (he : inner.extendIdentity n = .ok extended) (hp : outer.compose extended = .ok p) :
    p.size = n ∧ outer.size = n ∧ ∀ i, p.old i = outer.old (inner.old i) := by
  rw [Permutation.extendIdentity] at he
  split at he
  · cases he
    rw [Permutation.compose] at hp
    split at hp
    · rename_i hsize
      cases hp
      rw [Permutation.size_extend] at hsize
      exact ⟨by simp, hsize, by simp⟩
    · cases hp
  · cases he

/-- A partition that is refined by an analysis reorders the client's. -/
theorem refines_of_refine {p client : Partition} {an : Analysis S N} {n m : Nat}
    (h : (refine client an n m : Attempt (DecompError α) Partition) = .ok p) :
    Refines p client an n m := by
  rw [refine] at h
  simp only [bind_eq_ok_iff, Attempt.ofChecked_eq_ok_iff, Attempt.ofExcept_eq_ok_iff] at h
  obtain ⟨row, hrow, varPerm, hvar, col, hcol, equPerm, hequ, hnew⟩ := h
  obtain ⟨rfl, rfl, hrank⟩ := Partition.new_eq_ok_iff.1 hnew
  obtain ⟨hn, hcn, hvold⟩ := compose_extendIdentity hrow hvar
  obtain ⟨hm, hcm, heold⟩ := compose_extendIdentity hcol hequ
  exact ⟨hrank, hn, hm, hcn, hcm, hvold, heold⟩

end Refinement

variable {σ α S N : Type} [Scalar α] [Factorization S N α] [DirectSolver σ α S N]

/-- Carries out calls in turn and keeps the system. -/
def run (s : Decomposer σ α S N) (calls : List (BasisCall α)) : Decomposer σ α S N :=
  calls.foldl (fun s call => (s.perform call).2) s

/-- What holds of a system for `n` variables and `m` equations after any calls. -/
structure Coherent [Dimensioned S N] (s : Decomposer σ α S N) (n m : Nat)
    (settings : Settings α) : Prop where
  n_eq : s.n = n
  m_eq : s.m = m
  settings_eq : s.settings = settings
  published_iff : s.current.isSome = true ↔ 0 < s.generation
  generation_eq : ∀ dec, s.current = some dec → dec.generation = s.generation
  proper : ∀ dec, s.current = some dec → dec.Proper n m
  rank_eq : settings.allowUndecomposed = false → ∀ dec, s.current = some dec →
    dec.partition.rank = m

/-- What a call does to the generation, and an update to the partition and the structure. -/
structure Advances (s : Decomposer σ α S N) (call : BasisCall α) : Prop where
  failed : ∀ e, (s.perform call).1 = .error e → (s.perform call).2.generation = s.generation
  succeeded : ∀ dec, (s.perform call).1 = .ok dec →
    (s.perform call).2.generation = s.generation + call.newBases ∧
      (s.perform call).2.current = some dec
  update : ∀ gc, call = .update gc →
    (s.perform call).2.current.map (fun dec => (dec.partition, dec.basis.symbolic)) =
      s.current.map fun dec => (dec.partition, dec.basis.symbolic)

omit [Factorization S N α] [DirectSolver σ α S N] in
/-- A new system is not initialised, and it exists exactly for valid settings with enough variables
for the equations that they want decomposed. -/
theorem new_eq_ok_iff {n m : Nat} {solver : σ} {settings : Settings α} {s : Decomposer σ α S N} :
    new n m solver settings = .ok s ↔
      settings.validate = .ok () ∧ (m ≤ n ∨ settings.allowUndecomposed = true) ∧
        s = ⟨solver, settings, n, m, none, 0⟩ := by
  rw [new]
  rw [bind_eq_ok_iff]
  have hcond : ¬(n < m ∧ ¬settings.allowUndecomposed = true) ↔
      m ≤ n ∨ settings.allowUndecomposed = true := by
    rw [not_and_or, Nat.not_lt, not_not]
  constructor
  · rintro ⟨⟨⟩, hvalid, h⟩
    split at h
    · cases h
    · rename_i hnot
      cases h
      exact ⟨hvalid, hcond.1 hnot, rfl⟩
  · rintro ⟨hvalid, hsize, rfl⟩
    exact ⟨(), hvalid, if_neg (hcond.2 hsize)⟩

section Step

variable [Dimensioned S N] [SizedSolver σ] {s : Decomposer σ α S N} {n m : Nat}
  {settings : Settings α}

omit [Factorization S N α] [DirectSolver σ α S N] in
/-- A new system is coherent. -/
theorem coherent_new {solver : σ} {s : Decomposer σ α S N}
    (h : new n m solver settings = .ok s) : s.Coherent n m settings := by
  obtain ⟨-, -, rfl⟩ := new_eq_ok_iff.1 h
  exact ⟨rfl, rfl, rfl, by simp, by simp, by simp, by simp⟩

omit [Factorization S N α] in
/-- What a call settles on fits the system, provided that the factors have the size of the basis
block. -/
theorem Settles.proper {call : BasisCall α} {partition : Partition}
    {basis : BasisMatrix S N} (h : s.Settles call partition basis) (hs : s.Coherent n m settings)
    (hdim : basis.dim = partition.rank) :
    partition.n = n ∧ partition.m = m ∧ basis.HasDim partition.rank ∧
      (settings.allowUndecomposed = false → partition.rank = m) := by
  cases h with
  | @set client gc block an partition checked extracted analyzed refined =>
    have hfits := SizedSolver.analyze_fits analyzed
    have hp := refines_of_refine refined
    have hrank : an.rank = partition.rank := hfits.hasDim.dim_eq.symm.trans hdim
    refine ⟨hp.n_eq.trans hs.n_eq, hp.m_eq.trans hs.m_eq, hrank ▸ hfits.hasDim, fun hall => ?_⟩
    have hle : client.rank ≤ client.m := client.rank_le_m
    have hge : ¬(client.rank < s.m ∧ ¬s.settings.allowUndecomposed) := by
      rw [checkClient] at checked
      obtain ⟨_, -, hc⟩ := bind_eq_ok_iff.1 checked
      split at hc
      · cases hc
      · split at hc
        · cases hc
        · assumption
    have hcm := hp.client_m_eq
    rw [hs.settings_eq, hall] at hge
    rw [hp.rank_eq, ← hs.m_eq]
    simp only [Bool.false_eq_true, not_false_eq_true, and_true, Nat.not_lt] at hge
    omega
  | @select nu gc attempt an partition checked attempt_lt analyzed formed =>
    have hfits := SizedSolver.analyze_fits analyzed
    obtain ⟨hvar, hequ, hrank⟩ := Partition.new_eq_ok_iff.1 formed
    unfold checkSelection at checked
    obtain ⟨_, hshape, -⟩ := bind_eq_ok_iff.1 checked
    obtain ⟨hrows, hcols⟩ := Partition.checkShape_eq_ok_iff.1 hshape
    have hn : partition.n = n := by
      rw [Partition.n, hvar, hfits.size_rowPerm, hrows, hs.n_eq]
    have hm : partition.m = m := by
      rw [Partition.m, hequ, hfits.size_colPerm, hcols, hs.m_eq]
    refine ⟨hn, hm, hrank ▸ hfits.hasDim, fun hall => ?_⟩
    have hle : partition.rank ≤ partition.m := partition.rank_le_m
    have hreq : s.requiredRank ≤ an.rank := hfits.requiredRank_le
    have hm' : s.requiredRank = m := by
      rw [requiredRank]
      rw [hs.settings_eq, hall, hs.m_eq]
      rfl
    omega
  | @update gc block current basis checked published extracted refactored =>
    have hcur := hs.proper current published
    obtain ⟨-, hb⟩ := SizedSolver.refactor_fits refactored
    rw [hcur.hasDim.structureDim_eq] at hb
    exact ⟨hcur.splits.n_eq, hcur.splits.m_eq, hb, fun hall => hs.rank_eq hall current published⟩

/-- Every call keeps the invariant. -/
theorem Coherent.perform (hs : s.Coherent n m settings) (call : BasisCall α) :
    (s.perform call).2.Coherent n m settings := by
  have h := s.perform_outcome call
  generalize s.perform call = answer at h ⊢
  cases h with
  | failed e solver =>
    exact ⟨hs.n_eq, hs.m_eq, hs.settings_eq, hs.published_iff, hs.generation_eq, hs.proper,
      hs.rank_eq⟩
  | @published partition basis dec solver settled prepared =>
    have hbuilt := (prepare_eq_ok_iff.1 prepared).1
    obtain ⟨hn, hm, hdim, hrank⟩ := settled.proper hs hbuilt.dim_eq
    have hpos : 0 < s.generation + call.newBases := by
      cases call with
      | set client gc => exact Nat.succ_pos _
      | select nu gc => exact Nat.succ_pos _
      | update gc =>
        cases settled with
        | @update _ _ current _ _ published _ _ =>
          have := hs.published_iff.1 (by rw [published]; rfl)
          exact Nat.lt_of_lt_of_le this (Nat.le_add_right _ _)
    refine ⟨hs.n_eq, hs.m_eq, hs.settings_eq, by simp [hpos], ?_, ?_, ?_⟩
    · intro d hd
      cases hd
      exact hbuilt.generation_eq
    · intro d hd
      cases hd
      rw [← hn, ← hm, ← hbuilt.partition_eq]
      refine ⟨dec.partition.splits, ?_⟩
      rw [hbuilt.partition_eq, hbuilt.basis_eq]
      exact hdim
    · intro hall d hd
      cases hd
      rw [hbuilt.partition_eq]
      exact hrank hall

/-- Every run of calls keeps the invariant. -/
theorem Coherent.run (hs : s.Coherent n m settings) (calls : List (BasisCall α)) :
    (s.run calls).Coherent n m settings := by
  induction calls generalizing s with
  | nil => exact hs
  | cons call calls ih => exact ih (hs.perform call)

/-- How a call advances the generation, in any state of the system. -/
theorem advances (s : Decomposer σ α S N) (call : BasisCall α) : s.Advances call := by
  have h := s.perform_outcome call
  have hout : ∀ answer, answer = s.perform call → s.Outcome call answer → s.Advances call := by
    intro answer hanswer hout
    cases hout with
    | failed e solver =>
      constructor
      · intro e' _
        rw [← hanswer]
      · intro dec hdec
        rw [← hanswer] at hdec
        cases hdec
      · intro gc _
        rw [← hanswer]
    | @published partition basis dec solver settled prepared =>
      have hbuilt := (prepare_eq_ok_iff.1 prepared).1
      constructor
      · intro e he
        rw [← hanswer] at he
        cases he
      · intro dec' hdec
        rw [← hanswer] at hdec ⊢
        exact ⟨rfl, congrArg some (Except.ok.inj hdec)⟩
      · rintro gc rfl
        rw [← hanswer]
        cases settled with
        | @update _ _ current _ _ published _ refactored =>
          have hsym := (SizedSolver.refactor_fits refactored).1
          rw [published, Option.map_some, Option.map_some, hbuilt.partition_eq, hbuilt.basis_eq,
            hsym]
  exact hout _ rfl h

end Step

/-- After any calls on a new system with one of the solvers of the library the invariant holds, and
the next call advances the generation as it should. -/
theorem run_coherent {α : Type} [Scalar α] (n m : Nat) (settings : Settings α)
    (calls : List (BasisCall α)) :
    (∀ (solver : DenseSolver α) s, new n m solver settings = .ok s →
      (s.run calls).Coherent n m settings ∧ ∀ call, (s.run calls).Advances call) ∧
    (∀ (solver : MarkowitzSolver α) s, new n m solver settings = .ok s →
      (s.run calls).Coherent n m settings ∧ ∀ call, (s.run calls).Advances call) ∧
    (∀ (solver : ChosenSolver α) s, new n m solver settings = .ok s →
      (s.run calls).Coherent n m settings ∧ ∀ call, (s.run calls).Advances call) :=
  ⟨fun _ _ h => ⟨(coherent_new h).run calls, advances _⟩,
    fun _ _ h => ⟨(coherent_new h).run calls, advances _⟩,
    fun _ _ h => ⟨(coherent_new h).run calls, advances _⟩⟩

/-- A new system for the sample gradients. -/
def sample {σ S N : Type} (solver : σ) (settings : Settings Rat) : Decomposer σ Rat S N :=
  ⟨solver, settings, 3, 3, none, 0⟩

theorem new_eq_sample {σ S N : Type} (solver : σ) (choice : SolverChoice) :
    new 3 3 solver (sampleSettings choice) =
      .ok (sample solver (sampleSettings choice) : Decomposer σ Rat S N) :=
  new_eq_ok_iff.2 ⟨sampleSettings_valid choice, .inl (Nat.le_refl 3), rfl⟩

/-- A selection and an update of a sample system both succeed, and the invariant holds then. -/
theorem run_coherent_sample :
    let s := sample (MarkowitzSolver.ofSettings (sampleSettings .markowitz))
      (sampleSettings .markowitz)
    new 3 3 s.solver s.settings = .ok s ∧
      (s.run [.select none sampleGradients, .update sampleGradients]).generation = 1 ∧
      (s.run [.select none sampleGradients, .update sampleGradients]).current.isSome = true ∧
      (s.run [.select none sampleGradients, .update sampleGradients]).Coherent 3 3 s.settings := by
  intro s
  have hnew : new 3 3 s.solver s.settings = .ok s := new_eq_sample _ _
  refine ⟨hnew, by decide +kernel, by decide +kernel, ?_⟩
  exact ((run_coherent 3 3 s.settings _).2.1 s.solver s hnew).1

end Decomposer

end ReducedSpace
