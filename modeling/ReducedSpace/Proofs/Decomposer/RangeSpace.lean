import Mathlib
import ReducedSpace.Proofs.Decomposer.Independence
import ReducedSpace.Proofs.Decomposition.LeastNorm

/-!
# The range space of published decompositions

What is published is derived from its gradients, whatever solver computes it and whatever calls lead
to it. So the operator `R` of a published decomposition is inverted by its solves, the quasi-normal
step cancels the residual, and for the orthogonal kind it is the shortest step that does. The
factors of `I + Dᵀ D` need square roots; they are exact where those exist, and elsewhere it is enough
that the factors at hand solve exactly.
-/

namespace ReducedSpace

variable {K : Type} [ExactScalar K]

namespace Decomposition

/-- The decomposition is published for the given gradients, by a system with any solver of the
library whose tolerances are in range. -/
inductive PublishedFor (gc : SparseMatrix K) :
    ∀ {S N : Type} [Factorization S N K], Decomposition K S N → Prop
  | dense {solver : DenseSolver K} {dec : Decomposition K DenseStructure (DenseLu K)}
      (admissible : solver.Admissible) (published : PublishedBy solver gc dec) :
      PublishedFor gc dec
  | markowitz {solver : MarkowitzSolver K} {dec : Decomposition K MarkowitzStructure (SparseLu K)}
      (admissible : solver.Admissible) (published : PublishedBy solver gc dec) :
      PublishedFor gc dec
  | chosen {solver : ChosenSolver K} {dec : Decomposition K ChosenStructure (ChosenFactors K)}
      (admissible : solver.Admissible) (published : PublishedBy solver gc dec) :
      PublishedFor gc dec

variable {S N : Type} [Factorization S N K] {dec : Decomposition K S N} {gc : SparseMatrix K}

/-- What is published for gradients is derived from them. -/
theorem PublishedFor.derived (h : dec.PublishedFor gc) :
    ∃ settings, dec.Derived gc settings := by
  cases h with
  | dense admissible published =>
    exact published.derived (DenseSolver.solvesExactly admissible)
  | markowitz admissible published =>
    exact published.derived (MarkowitzSolver.solvesExactly admissible)
  | chosen admissible published =>
    exact published.derived (ChosenSolver.solvesExactly admissible)

/-- The factors of `I + Dᵀ D` are exact where positive numbers have square roots. -/
theorem PublishedFor.gramExact (h : dec.PublishedFor gc) (hexact : ExactRoots K ∨ dec.GramExact) :
    dec.GramExact := by
  obtain ⟨settings, hderived⟩ := h.derived
  exact hexact.elim (fun _ => hderived.gramExact) id

end Decomposition

section Samples

/-- The gradients of two equations in four variables. Both the first two and the last two variables
are a basis, and the factors of `I + Dᵀ D` are rational for both. -/
def tallGradients : SparseMatrix Rat :=
  .ofEntries 4 2 fun i j =>
    ((#[#[0, -2], #[1, 1], #[-2, 2], #[-2, 3]] : Array (Array Rat)).getD i #[])[j]?

/-- A new system of the orthogonal kind for these gradients. -/
def Decomposer.tall {σ S N : Type} (solver : σ) (choice : SolverChoice) : Decomposer σ Rat S N :=
  ⟨solver, { sampleSettings choice with kind := .orthogonal }, 4, 2, none, 0⟩

theorem Decomposer.new_eq_tall {σ S N : Type} (solver : σ) (choice : SolverChoice) :
    new 4 2 solver { sampleSettings choice with kind := .orthogonal } =
      .ok (tall solver choice : Decomposer σ Rat S N) := by
  refine new_eq_ok_iff.2 ⟨?_, .inl (by decide), rfl⟩
  cases choice with
  | dense => decide +kernel
  | markowitz => decide +kernel

/-- The choice of the first two variables. -/
def firstBasis : Partition where
  varPerm := Permutation.identity 4
  equPerm := Permutation.identity 2
  rank := 2
  rank_le_n := by simp
  rank_le_m := by simp

/-- The choice of the last two variables. -/
def lastBasis : Partition where
  varPerm := ((Permutation.identity 4).swap 0 2).swap 1 3
  equPerm := (Permutation.identity 2).swap 0 1
  rank := 2
  rank_le_n := by simp
  rank_le_m := by simp

/-- What a single call of such a system publishes, with what can be evaluated of it. -/
theorem Decomposer.exists_published_tall {σ S N : Type} [Factorization S N Rat]
    [DirectSolver σ Rat S N] (solver : σ) (choice : SolverChoice) (call : BasisCall Rat)
    (P : Decomposition Rat S N → Prop) [DecidablePred P]
    (hpublished : ∀ dec : Decomposition Rat S N, PublishedBy solver call.gradients dec →
      dec.PublishedFor call.gradients)
    (hrun : ((tall solver choice : Decomposer σ Rat S N).run [call]).current.map
      (fun dec => decide (dec.woodbury?.all (fun w => decide w.Factored) ∧ P dec)) = some true) :
    ∃ dec, ((tall solver choice : Decomposer σ Rat S N).run [call]).current = some dec ∧
      dec.PublishedFor call.gradients ∧ dec.GramExact ∧ P dec := by
  obtain ⟨dec, hdec, hparts⟩ := Option.map_eq_some_iff.1 hrun
  obtain ⟨hfactored, hP⟩ := of_decide_eq_true hparts
  refine ⟨dec, hdec, hpublished dec ?_, Decomposition.gramExact_of_factored hfactored, hP⟩
  exact ⟨4, 2, _, _, _, new_eq_tall _ _, hdec, lastGradients_first rfl hdec⟩

end Samples

section RangeInverse

open Decomposition

variable {S N : Type} [Factorization S N K] {dec : Decomposition K S N} {gc : SparseMatrix K}

/-- Solves and products with the operator `R` of a published decomposition undo each other, in
either orientation. For every matrix `D`, with factors of `I + Dᵀ D` that solve exactly, the solves
of the orthogonal kind undo its products, which are those with `I + D Dᵀ`; such factors exist where
positive numbers have square roots. -/
theorem published_range_inverse (h : dec.PublishedFor gc)
    (hexact : ExactRoots K ∨ dec.GramExact) :
    (dec.r.rows = dec.rank ∧ dec.r.cols = dec.rank ∧ dec.rInverse.dim = dec.rank) ∧
      (∀ o, MutuallyInverse dec.rank (dec.rInverse.solveIn o) (dec.r.applyIn o)) ∧
      ∀ (rank : ℕ) (d : DenseMatrix K),
        (ExactRoots K → ∃ gram, factorGram rank d = .ok gram) ∧
        ∀ gram, factorGram rank d = .ok gram → ExactRoots K ∨ (⟨d, gram⟩ : Woodbury K).GramExact →
          MutuallyInverse d.rows (⟨d, gram⟩ : Woodbury K).solve (⟨d, gram⟩ : Woodbury K).apply ∧
          ∀ x : Array K, x.size = d.rows → (⟨d, gram⟩ : Woodbury K).apply x =
            .ok (product d.rows d.rows (gramEntries d.cols d.entry) x) := by
  have hgram := h.gramExact hexact
  obtain ⟨settings, hderived⟩ := h.derived
  refine ⟨hderived.size_range, hderived.range_mutuallyInverse hgram, fun rank d =>
    ⟨fun _ => exists_factorGram rank d, fun gram hformed hw => ?_⟩⟩
  let w : Woodbury K := ⟨d, gram⟩
  have hw : w.GramExact :=
    hw.elim (fun _ => (Woodbury.factored_of_formed (w := w) hformed).gramExact) id
  exact ⟨Woodbury.mutuallyInverse (w := w) hformed hw, fun x hx => w.apply_eq hx⟩

/-- The operator `R` of a sample decomposition of the orthogonal kind, and the matrix `I + D Dᵀ` in
it. -/
theorem published_range_inverse_sample :
    let s : Decomposer (MarkowitzSolver Rat) Rat MarkowitzStructure (SparseLu Rat) :=
      .tall (.ofSettings (sampleSettings .markowitz)) .markowitz
    ∃ dec w, (s.run [.set firstBasis tallGradients]).current = some dec ∧
      dec.PublishedFor tallGradients ∧ dec.GramExact ∧ dec.woodbury? = some w ∧
      (dec.rank = 2 ∧ w.d.rows = 2 ∧ w.d.cols = 2) ∧
      (∀ o, MutuallyInverse dec.rank (dec.rInverse.solveIn o) (dec.r.applyIn o)) ∧
      MutuallyInverse w.d.rows w.solve w.apply := by
  intro s
  obtain ⟨dec, hdec, hpublished, hexact, hrank, hsize⟩ := Decomposer.exists_published_tall
    s.solver .markowitz (.set firstBasis tallGradients)
    (fun dec => dec.rank = 2 ∧ dec.woodbury?.map (fun w => (w.d.rows, w.d.cols)) = some (2, 2))
    (fun _ => .markowitz (MarkowitzSolver.admissible_ofSettings (sampleSettings_valid .markowitz)))
    (by decide +kernel)
  obtain ⟨w, hw, hsize⟩ := Option.map_eq_some_iff.1 hsize
  obtain ⟨hrows, hcols⟩ := Prod.mk.inj hsize
  obtain ⟨settings, hderived⟩ := hpublished.derived
  obtain ⟨-, hinverse, hwoodbury⟩ := published_range_inverse hpublished (.inr hexact)
  exact ⟨dec, w, hdec, hpublished, hexact, hw, ⟨hrank, hrows, hcols⟩, hinverse,
    ((hwoodbury dec.rank w.d).2 w.gram (hderived.factorGram_woodbury hw) (.inr (hexact w hw))).1⟩

end RangeInverse

section LinearizedStep

variable {S N : Type} [Factorization S N K] {dec : Decomposition K S N} {gc : SparseMatrix K}

/-- For every residual of the right length, the quasi-normal step of a published decomposition
leaves no residual of the range-space solve, and the step that it makes cancels the decomposed
entries. For the coordinate kind it moves no independent variable and is the only one that cancels
them without doing so. -/
theorem published_step_cancels (h : dec.PublishedFor gc) (hexact : ExactRoots K ∨ dec.GramExact)
    {c : Array K} (hc : c.size = dec.partition.m) :
    ∃ py s, dec.quasiNormalStep c = .ok py ∧
      dec.rangeResidual py c = .ok (Vec.zero dec.rank) ∧ dec.rangeSpaceStep py = .ok s ∧
      dec.partition.Cancels gc c s ∧
      (dec.kind = .coordinate → (∀ i ∈ dec.partition.indepVars, s.getD i 0 = 0) ∧
        ∀ t, dec.partition.Cancels gc c t → (∀ i ∈ dec.partition.indepVars, t.getD i 0 = 0) →
          t = s) := by
  have hgram := h.gramExact hexact
  obtain ⟨settings, hderived⟩ := h.derived
  obtain ⟨d, hd⟩ := hderived.exists_sensitivity
  obtain ⟨py, hpy, hresidual, hstep, hcancels⟩ := hd.exists_rangeStep hderived hgram hc
  refine ⟨py, dec.rangeStep d py, hpy, hresidual, hstep, hcancels, fun hkind => ?_⟩
  have hindep : ∀ i ∈ dec.partition.indepVars, (dec.rangeStep d py).getD i 0 = 0 :=
    fun i hi => dec.rangeStep_indepVars d py hkind hi
  refine ⟨hindep, fun t ht hzero => hderived.eq_of_cancels hcancels ht fun i hi => ?_⟩
  rw [hzero i hi, hindep i hi]

/-- A system that orders the variables and the equations in its own way, with `D` applied by solves
and one undecomposed equation. A step other than the quasi-normal one leaves a residual. -/
theorem published_step_cancels_sample :
    let s : Decomposer (MarkowitzSolver Rat) Rat MarkowitzStructure (SparseLu Rat) :=
      .sample (.ofSettings (sampleSettings .markowitz))
        { sampleSettings .markowitz with sensitivity := .implicit }
    ∃ dec, (s.run [.set sampleClient sampleGradients]).current = some dec ∧
      dec.PublishedFor sampleGradients ∧ dec.kind = .coordinate ∧
      dec.partition.depVars = #[2, 1] ∧
      dec.quasiNormalStep #[1, 2, 7] = .ok #[-1 / 3, -2 / 9] ∧
      dec.rangeResidual #[-1 / 3, -2 / 9] #[1, 2, 7] = .ok (Vec.zero dec.rank) ∧
      dec.rangeResidual #[1, 0] #[1, 2, 7] = .ok #[4, 6] ∧
      dec.rangeSpaceStep #[-1 / 3, -2 / 9] = .ok #[0, -2 / 9, -1 / 3] ∧
      dec.partition.Cancels sampleGradients #[1, 2, 7] #[0, -2 / 9, -1 / 3] ∧
      ∀ t, dec.partition.Cancels sampleGradients #[1, 2, 7] t →
        (∀ i ∈ dec.partition.indepVars, t.getD i 0 = 0) → t = #[0, -2 / 9, -1 / 3] := by
  intro s
  have hnew : Decomposer.new 3 3 s.solver s.settings = .ok s :=
    Decomposer.new_eq_ok_iff.2 ⟨by decide +kernel, .inl (Nat.le_refl 3), rfl⟩
  have hrun : (s.run [.set sampleClient sampleGradients]).current.map (fun dec =>
      decide (dec.kind = .coordinate ∧ dec.partition.m = 3 ∧ dec.partition.depVars = #[2, 1] ∧
        dec.quasiNormalStep #[1, 2, 7] = .ok #[-1 / 3, -2 / 9] ∧
        dec.rangeResidual #[1, 0] #[1, 2, 7] = .ok #[4, 6] ∧
        dec.rangeSpaceStep #[-1 / 3, -2 / 9] = .ok #[0, -2 / 9, -1 / 3])) = some true := by
    decide +kernel
  obtain ⟨dec, hdec, hparts⟩ := Option.map_eq_some_iff.1 hrun
  obtain ⟨hkind, hm, hdep, hpy, hother, hstep⟩ := of_decide_eq_true hparts
  have hpublished : dec.PublishedFor sampleGradients :=
    .markowitz (MarkowitzSolver.admissible_ofSettings (sampleSettings_valid .markowitz))
      ⟨3, 3, _, _, _, hnew, hdec, Decomposer.lastGradients_first rfl hdec⟩
  obtain ⟨py, x, hpy', hresidual, hstep', hcancels, hcoordinate⟩ := published_step_cancels
    hpublished (.inr (Decomposition.gramExact_of_coordinate hkind)) (c := #[1, 2, 7]) hm.symm
  obtain rfl : py = #[-1 / 3, -2 / 9] := Except.ok.inj (hpy'.symm.trans hpy)
  obtain rfl : x = #[0, -2 / 9, -1 / 3] := Except.ok.inj (hstep'.symm.trans hstep)
  exact ⟨dec, hdec, hpublished, hkind, hdep, hpy, hresidual, hother, hstep, hcancels,
    (hcoordinate hkind).2⟩

end LinearizedStep

section ShortestStep

variable {S N : Type} [Factorization S N K] {dec : Decomposition K S N} {gc : SparseMatrix K}

/-- For a published decomposition of the orthogonal kind `Yᵀ Z = 0`, and the step for every residual
of the right length is the only shortest one that cancels its decomposed entries. If all equations
are decomposed, every decomposition of this kind that is published for the same gradients makes the
same step, whatever its basis, its solver and the calls that led to it. -/
theorem published_step_shortest (h : dec.PublishedFor gc) (hkind : dec.kind = .orthogonal)
    (hexact : ExactRoots K ∨ dec.GramExact) :
    (∀ x : Array K, x.size = dec.partition.n - dec.rank →
        (dec.z.apply x >>= dec.y.applyTranspose) = .ok (Vec.zero dec.rank)) ∧
      (∀ c : Array K, c.size = dec.partition.m →
        ∃ s, dec.step c = .ok s ∧ IsShortest (dec.partition.Cancels gc c) s) ∧
      (dec.rank = dec.partition.m →
        ∀ {S' N' : Type} [Factorization S' N' K] {dec' : Decomposition K S' N'},
          dec'.PublishedFor gc → dec'.kind = .orthogonal → ExactRoots K ∨ dec'.GramExact →
            dec'.rank = dec'.partition.m → ∀ c : Array K, dec.step c = dec'.step c) := by
  have hgram := h.gramExact hexact
  obtain ⟨settings, hderived⟩ := h.derived
  refine ⟨fun x hx => hderived.y_orthogonal_z hkind hx,
    fun c hc => hderived.exists_shortest_step hgram hkind hc, ?_⟩
  intro hrank S' N' _ dec' h' hkind' hexact' hrank' c
  obtain ⟨settings', hderived'⟩ := h'.derived
  exact hderived.step_eq_of_orthogonal hderived' hgram (h'.gramExact hexact') hkind hkind' hrank
    hrank' c

/-- Two systems with different solvers and bases without a variable in common make the same step. -/
theorem published_step_shortest_sample :
    let s₁ : Decomposer (MarkowitzSolver Rat) Rat MarkowitzStructure (SparseLu Rat) :=
      .tall (.ofSettings (sampleSettings .markowitz)) .markowitz
    let s₂ : Decomposer (DenseSolver Rat) Rat DenseStructure (DenseLu Rat) :=
      .tall (.ofSettings (sampleSettings .dense)) .dense
    ∃ dec₁ dec₂, (s₁.run [.set firstBasis tallGradients]).current = some dec₁ ∧
      (s₂.run [.set lastBasis tallGradients]).current = some dec₂ ∧
      dec₁.PublishedFor tallGradients ∧ dec₂.PublishedFor tallGradients ∧
      dec₁.partition.depVars = #[0, 1] ∧ dec₂.partition.depVars = #[3, 2] ∧
      dec₁.step #[1, 2] = .ok #[2 / 3, -7 / 9, 2 / 9, -1 / 9] ∧
      IsShortest (dec₁.partition.Cancels tallGradients #[1, 2])
        #[2 / 3, -7 / 9, 2 / 9, -1 / 9] ∧
      ∀ c, dec₁.step c = dec₂.step c := by
  intro s₁ s₂
  obtain ⟨dec₁, hdec₁, hpublished₁, hexact₁, hkind₁, hm₁, hrank₁, hdep₁, hstep₁⟩ :=
    Decomposer.exists_published_tall s₁.solver .markowitz (.set firstBasis tallGradients)
      (fun dec => dec.kind = .orthogonal ∧ dec.partition.m = 2 ∧ dec.rank = 2 ∧
        dec.partition.depVars = #[0, 1] ∧
        dec.step #[1, 2] = .ok #[2 / 3, -7 / 9, 2 / 9, -1 / 9])
      (fun _ =>
        .markowitz (MarkowitzSolver.admissible_ofSettings (sampleSettings_valid .markowitz)))
      (by decide +kernel)
  obtain ⟨dec₂, hdec₂, hpublished₂, hexact₂, hkind₂, hm₂, hrank₂, hdep₂⟩ :=
    Decomposer.exists_published_tall s₂.solver .dense (.set lastBasis tallGradients)
      (fun dec => dec.kind = .orthogonal ∧ dec.partition.m = 2 ∧ dec.rank = 2 ∧
        dec.partition.depVars = #[3, 2])
      (fun _ => .dense (DenseSolver.admissible_ofSettings (sampleSettings_valid .dense)))
      (by decide +kernel)
  obtain ⟨-, hshortest, hsame⟩ := published_step_shortest hpublished₁ hkind₁ (.inr hexact₁)
  obtain ⟨x, hx, hshortest⟩ := hshortest #[1, 2] hm₁.symm
  obtain rfl : x = #[2 / 3, -7 / 9, 2 / 9, -1 / 9] := Except.ok.inj (hx.symm.trans hstep₁)
  exact ⟨dec₁, dec₂, hdec₁, hdec₂, hpublished₁, hpublished₂, hdep₁, hdep₂, hstep₁, hshortest,
    hsame (hrank₁.trans hm₁.symm) hpublished₂ hkind₂ (.inr hexact₂) (hrank₂.trans hm₂.symm)⟩

end ShortestStep

end ReducedSpace
