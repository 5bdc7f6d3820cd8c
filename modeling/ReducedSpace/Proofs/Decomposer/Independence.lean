import Mathlib
import ReducedSpace.Proofs.Decomposer.Identities
import ReducedSpace.Proofs.Decomposition.CallerOrder

/-!
# Independence of the solver and of the path

Which solver a system has, in which order its caller lists the dependent variables and the
decomposed equations, and by which calls it arrives at a decomposition makes no difference: for the
same gradients, the same kind and the same choice, what is published is the same in the caller's
order.
-/

namespace ReducedSpace

section Set

variable {α : Type} [Scalar α] {σ S N : Type} [Factorization S N α] [DirectSolver σ α S N]
  [Dimensioned S N] [SizedSolver σ]

omit [Factorization S N α] in
/-- An analysis of the basis block leaves the caller's choice as it is. -/
theorem Decomposer.Settles.sameChoice {s : Decomposer σ α S N} {client partition : Partition}
    {gc : SparseMatrix α} {basis : BasisMatrix S N}
    (h : s.Settles (.set client gc) partition basis) : partition.SameChoice client := by
  cases h with
  | @set _ _ block an partition checked extracted analyzed refined =>
    have hp := refines_of_refine refined
    have hfits := SizedSolver.analyze_fits analyzed
    obtain ⟨hrows, hcols, -⟩ := Partition.basisBlock_spec extracted
    refine Partition.sameChoice_iff.2 ⟨hp.rank_eq, ⟨?_, fun k hk => ?_⟩, ⟨?_, fun k hk => ?_⟩⟩
    · exact hp.n_eq.trans hp.client_n_eq.symm
    · rw [hp.varPerm_old, an.rowPerm.old_of_size_le]
      rw [hfits.size_rowPerm, hrows, ← hp.rank_eq]
      exact hk
    · exact hp.m_eq.trans hp.client_m_eq.symm
    · rw [hp.equPerm_old, an.colPerm.old_of_size_le]
      rw [hfits.size_colPerm, hcols, ← hp.rank_eq]
      exact hk

/-- A basis of the caller's choice is published with that choice. -/
theorem Decomposer.setBasis_sameChoice {s : Decomposer σ α S N} {client : Partition}
    {gc : SparseMatrix α} {dec : Decomposition α S N} (h : (s.setBasis client gc).1 = .ok dec) :
    dec.partition.SameChoice client := by
  have houtcome := s.perform_outcome (.set client gc)
  have hanswer : (s.perform (.set client gc)).1 = .ok dec := h
  generalize s.perform (.set client gc) = answer at houtcome hanswer
  cases houtcome with
  | failed e solver => cases hanswer
  | @published partition basis d solver settled prepared =>
    cases hanswer
    rw [(prepare_eq_ok_iff.1 prepared).1.partition_eq]
    exact settled.sameChoice

end Set

variable {K : Type} [ExactScalar K]

/-- What the first call publishes, if anything, belongs to its gradients. -/
theorem Decomposer.lastGradients_first {σ S N : Type} [Factorization S N K] [DirectSolver σ K S N]
    {s : Decomposer σ K S N} {call : BasisCall K} {dec : Decomposition K S N}
    (hnone : s.current = none) (h : (s.run [call]).current = some dec) :
    s.lastGradients [call] = some call.gradients := by
  have houtcome := s.perform_outcome call
  have hcurrent : (s.perform call).2.current = some dec := h
  rw [lastGradients, lastGradientsFrom]
  generalize s.perform call = answer at houtcome hcurrent
  cases houtcome with
  | failed e solver =>
    rw [hnone] at hcurrent
    cases hcurrent
  | published solver settled prepared => rfl

/-- A new system with the given solver publishes a decomposition after some calls, the last
successful one with the given gradients. -/
def PublishedBy {σ S N : Type} [Factorization S N K] [DirectSolver σ K S N] (solver : σ)
    (gc : SparseMatrix K) (dec : Decomposition K S N) : Prop :=
  ∃ n m settings s calls, Decomposer.new n m solver settings = .ok s ∧
    (s.run calls).current = some dec ∧ s.lastGradients calls = some gc

/-- The views of a decomposition that is published for the given gradients, by a system with any
solver of the library whose tolerances are in range. -/
inductive Published (gc : SparseMatrix K) : Views K → Prop
  | dense {solver : DenseSolver K} {dec : Decomposition K DenseStructure (DenseLu K)}
      (admissible : solver.Admissible) (published : PublishedBy solver gc dec) :
      Published gc dec.views
  | markowitz {solver : MarkowitzSolver K} {dec : Decomposition K MarkowitzStructure (SparseLu K)}
      (admissible : solver.Admissible) (published : PublishedBy solver gc dec) :
      Published gc dec.views
  | chosen {solver : ChosenSolver K} {dec : Decomposition K ChosenStructure (ChosenFactors K)}
      (admissible : solver.Admissible) (published : PublishedBy solver gc dec) :
      Published gc dec.views

theorem PublishedBy.derived {σ S N : Type} [Factorization S N K] [DirectSolver σ K S N]
    [Dimensioned S N] [SizedSolver σ] {solver : σ} {gc : SparseMatrix K}
    {dec : Decomposition K S N} (h : PublishedBy solver gc dec) (hsolver : SolvesExactly solver) :
    ∃ settings, dec.Derived gc settings := by
  obtain ⟨n, m, settings, s, calls, hnew, hcurrent, hlast⟩ := h
  have hrun := (Decomposer.exact_new hsolver hnew).run (Decomposer.coherent_new hnew) calls
  obtain ⟨gc', hgc', hderived⟩ := hrun.derived dec hcurrent
  obtain rfl : gc = gc' := Option.some.inj (hlast.symm.trans hgc')
  exact ⟨_, hderived⟩

/-- Whatever the solver, a published decomposition is derived from the gradients. -/
theorem Published.derived {gc : SparseMatrix K} {v : Views K} (h : Published gc v) :
    ∃ (S N : Type) (_ : Factorization S N K) (dec : Decomposition K S N) (settings : Settings K),
      dec.views = v ∧ dec.Derived gc settings := by
  cases h with
  | dense admissible published =>
    obtain ⟨settings, hderived⟩ := published.derived (DenseSolver.solvesExactly admissible)
    exact ⟨_, _, _, _, settings, rfl, hderived⟩
  | markowitz admissible published =>
    obtain ⟨settings, hderived⟩ := published.derived (MarkowitzSolver.solvesExactly admissible)
    exact ⟨_, _, _, _, settings, rfl, hderived⟩
  | chosen admissible published =>
    obtain ⟨settings, hderived⟩ := published.derived (ChosenSolver.solvesExactly admissible)
    exact ⟨_, _, _, _, settings, rfl, hderived⟩

/-- Decompositions of the same gradients for the same choice are the same in the caller's order,
whatever their solvers and whatever led to them. -/
theorem published_agree {gc : SparseMatrix K} {v w : Views K} (hv : Published gc v)
    (hw : Published gc w) (hchoice : v.partition.SameChoice w.partition) (hkind : v.kind = w.kind) :
    v.Agree w := by
  obtain ⟨S₁, N₁, _, dec₁, settings₁, rfl, hderived₁⟩ := hv.derived
  obtain ⟨S₂, N₂, _, dec₂, settings₂, rfl, hderived₂⟩ := hw.derived
  obtain ⟨d₁, hd₁⟩ := hderived₁.exists_sensitivity
  obtain ⟨d₂, hd₂⟩ := hderived₂.exists_sensitivity
  have hcounterparts : dec₁.Counterparts dec₂ gc settings₁ settings₂ d₁ d₂ :=
    ⟨hderived₁, hderived₂, hd₁, hd₂, hchoice, hkind⟩
  exact hcounterparts.views_agree

/-- The choice of the second and the third variable and of the first two equations, in the order of
a client. -/
def sampleClient : Partition where
  varPerm := (Permutation.identity 3).swap 0 2
  equPerm := (Permutation.identity 3).swap 0 1
  rank := 2
  rank_le_n := by simp
  rank_le_m := by simp

/-- The same choice with the equations in their own order. -/
def sampleSelection : Partition :=
  { sampleClient with
    equPerm := Permutation.identity 3
    rank_le_m := by simp [sampleClient] }

/-- A selection by the sparse solver and a client's choice that is factored by the dense solver
agree, although they order the equations differently and only one of them forms `D`. -/
theorem published_agree_sample :
    let s₁ := Decomposer.sample (MarkowitzSolver.ofSettings (sampleSettings .markowitz))
      (sampleSettings .markowitz)
    let s₂ := Decomposer.sample (DenseSolver.ofSettings (sampleSettings .dense))
      { sampleSettings .dense with sensitivity := .implicit }
    ∃ dec₁ dec₂, (s₁.run [.select none sampleGradients]).current = some dec₁ ∧
      (s₂.run [.set sampleClient sampleGradients]).current = some dec₂ ∧
      dec₁.partition = sampleSelection ∧ dec₂.partition = sampleClient ∧
      dec₁.views.Agree dec₂.views := by
  intro s₁ s₂
  have hnew₁ : Decomposer.new 3 3 s₁.solver s₁.settings = .ok s₁ := Decomposer.new_eq_sample _ _
  have hnew₂ : Decomposer.new 3 3 s₂.solver s₂.settings = .ok s₂ :=
    Decomposer.new_eq_ok_iff.2 ⟨by decide +kernel, .inl (Nat.le_refl 3), rfl⟩
  have hrun₁ : (s₁.run [.select none sampleGradients]).current.map (fun dec =>
      (dec.partition, dec.kind)) = some (sampleSelection, .coordinate) := by decide +kernel
  have hrun₂ : (s₂.run [.set sampleClient sampleGradients]).current.map (fun dec =>
      (dec.partition, dec.kind)) = some (sampleClient, .coordinate) := by decide +kernel
  obtain ⟨dec₁, hdec₁, hparts₁⟩ := Option.map_eq_some_iff.1 hrun₁
  obtain ⟨dec₂, hdec₂, hparts₂⟩ := Option.map_eq_some_iff.1 hrun₂
  obtain ⟨hpartition₁, hkind₁⟩ := Prod.mk.inj hparts₁
  obtain ⟨hpartition₂, hkind₂⟩ := Prod.mk.inj hparts₂
  have hpublished₁ : Published sampleGradients dec₁.views := by
    refine .markowitz (MarkowitzSolver.admissible_ofSettings (sampleSettings_valid .markowitz))
      ⟨3, 3, s₁.settings, s₁, [.select none sampleGradients], hnew₁, hdec₁, ?_⟩
    exact Decomposer.lastGradients_first rfl hdec₁
  have hpublished₂ : Published sampleGradients dec₂.views := by
    refine .dense (DenseSolver.admissible_ofSettings (sampleSettings_valid .dense))
      ⟨3, 3, s₂.settings, s₂, [.set sampleClient sampleGradients], hnew₂, hdec₂, ?_⟩
    exact Decomposer.lastGradients_first rfl hdec₂
  have hchoice : dec₁.partition.SameChoice dec₂.partition := by
    rw [hpartition₁, hpartition₂]
    decide +kernel
  exact ⟨dec₁, dec₂, hdec₁, hdec₂, hpartition₁, hpartition₂,
    published_agree hpublished₁ hpublished₂ hchoice (hkind₁.trans hkind₂.symm)⟩

end ReducedSpace
