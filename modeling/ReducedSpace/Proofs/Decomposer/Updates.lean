import Mathlib
import ReducedSpace.Proofs.Decomposer.Independence

/-!
# Updates

An update reads the partition and the structure that are published, and the solvers of the library
keep no state of their own. So what an update publishes does not depend on the updates before it.
The sparse solver factors the block that its analysis leads to in natural order, which is also the
order of an update: a block of a block, selected by an analysis, is the block of the composed
orders, and an update with the gradients of the last call finds the factors that are published
already.
-/

namespace ReducedSpace

variable {α σ S N : Type} [Scalar α]

namespace Decomposer

/-- The dense solver keeps no state. -/
theorem stateless_dense (solver : DenseSolver α) : Stateless solver :=
  ⟨fun _ _ => rfl, fun _ _ => rfl⟩

/-- Nor does the sparse one. -/
theorem stateless_markowitz (solver : MarkowitzSolver α) : Stateless solver :=
  ⟨fun _ _ => rfl, fun _ _ => rfl⟩

/-- Nor does the chosen one. -/
theorem stateless_chosen (solver : ChosenSolver α) : Stateless solver :=
  ⟨fun _ _ => rfl, fun _ _ => rfl⟩

variable [Factorization S N α] [DirectSolver σ α S N] {s t : Decomposer σ α S N}

section State

/-- A failed call leaves the whole system as it was. -/
theorem Stateless.perform_error (hs : Stateless s.solver) {call : BasisCall α}
    {e : Failure (DecompError α)} (h : (s.perform call).1 = .error e) :
    (s.perform call).2 = s := by
  have hsolver := hs.solver_perform call
  have houtcome := s.perform_outcome call
  generalize s.perform call = answer at h hsolver houtcome ⊢
  cases houtcome with
  | failed e solver =>
    obtain rfl : solver = s.solver := hsolver
    rfl
  | published => cases h

/-- A successful call publishes what it settled on and changes nothing else. -/
theorem Stateless.perform_ok (hs : Stateless s.solver) {call : BasisCall α}
    {dec : Decomposition α S N} (h : (s.perform call).1 = .ok dec) :
    ∃ partition basis, s.Settles call partition basis ∧
      prepare s.settings partition basis call.gradients (s.generation + call.newBases) = .ok dec ∧
      (s.perform call).2 =
        { s with current := some dec, generation := s.generation + call.newBases } := by
  have hsolver := hs.solver_perform call
  have houtcome := s.perform_outcome call
  generalize s.perform call = answer at h hsolver houtcome ⊢
  cases houtcome with
  | failed => cases h
  | published solver settled prepared =>
    obtain rfl : solver = s.solver := hsolver
    cases h
    exact ⟨_, _, settled, prepared, rfl⟩

end State

section Independence

/-- Two systems in which every update does the same. -/
structure UpdatesAlike (s t : Decomposer σ α S N) : Prop where
  solver_eq : s.solver = t.solver
  settings_eq : s.settings = t.settings
  n_eq : s.n = t.n
  m_eq : s.m = t.m
  generation_eq : s.generation = t.generation
  current_eq : s.current.map (fun dec => (dec.partition, dec.basis.symbolic)) =
    t.current.map fun dec => (dec.partition, dec.basis.symbolic)

omit [Scalar α] [Factorization S N α] [DirectSolver σ α S N] in
theorem UpdatesAlike.trans {u : Decomposer σ α S N} (h : s.UpdatesAlike t)
    (h' : t.UpdatesAlike u) : s.UpdatesAlike u :=
  ⟨h.solver_eq.trans h'.solver_eq, h.settings_eq.trans h'.settings_eq, h.n_eq.trans h'.n_eq,
    h.m_eq.trans h'.m_eq, h.generation_eq.trans h'.generation_eq,
    h.current_eq.trans h'.current_eq⟩

/-- An update reads nothing else of a system. -/
theorem UpdatesAlike.answer_eq (h : s.UpdatesAlike t) (gc : SparseMatrix α) :
    (s.perform (.update gc)).1 = (t.perform (.update gc)).1 := by
  show (s.updateBasis gc).1 = (t.updateBasis gc).1
  rw [updateBasis, updateBasis]
  rw [h.n_eq, h.m_eq]
  have hcurrent := h.current_eq
  cases Partition.checkShape gc t.n t.m with
  | error e => rfl
  | ok _ =>
    unfold decomposition
    cases hs : s.current with
    | none =>
      rw [hs] at hcurrent
      rw [Option.map_eq_none_iff.1 hcurrent.symm]
    | some dec =>
      rw [hs] at hcurrent
      obtain ⟨dec', ht, hkey⟩ := Option.map_eq_some_iff.1 hcurrent.symm
      obtain ⟨hpartition, hsymbolic⟩ := Prod.mk.inj hkey
      rw [ht]
      dsimp only
      rw [hpartition, hsymbolic, h.solver_eq]
      cases dec.partition.basisBlock gc with
      | error f => rfl
      | ok block =>
        dsimp only
        cases (DirectSolver.refactor t.solver block dec.basis.symbolic).1.mapError
            DecompError.ofSolver with
        | error e => rfl
        | ok basis =>
          dsimp only
          rw [publish, publish]
          dsimp only
          rw [h.settings_eq, h.generation_eq]
          cases prepare t.settings dec.partition basis gc t.generation with
          | error e => rfl
          | ok dec => rfl

/-- Where an update succeeds, it leaves the same system behind. -/
theorem UpdatesAlike.system_eq (h : s.UpdatesAlike t) (hs : Stateless s.solver)
    {gc : SparseMatrix α} {dec : Decomposition α S N}
    (hdec : (s.perform (.update gc)).1 = .ok dec) :
    (s.perform (.update gc)).2 = (t.perform (.update gc)).2 := by
  have hdec' : (t.perform (.update gc)).1 = .ok dec := (h.answer_eq gc).symm.trans hdec
  obtain ⟨-, -, -, -, hsystem⟩ := hs.perform_ok hdec
  obtain ⟨-, -, -, -, hsystem'⟩ := (h.solver_eq ▸ hs).perform_ok hdec'
  rw [hsystem, hsystem', h.solver_eq, h.settings_eq, h.n_eq, h.m_eq, h.generation_eq]

variable [Dimensioned S N] [SizedSolver σ]

/-- An update leaves what later updates read as it is. -/
theorem Stateless.alike_update (hs : Stateless s.solver) (gc : SparseMatrix α) :
    s.UpdatesAlike (s.perform (.update gc)).2 := by
  cases hanswer : (s.perform (.update gc)).1 with
  | error e =>
    rw [hs.perform_error hanswer]
    exact ⟨rfl, rfl, rfl, rfl, rfl, rfl⟩
  | ok dec =>
    have hkey := (s.advances (.update gc)).update gc rfl
    obtain ⟨-, -, -, -, hsystem⟩ := hs.perform_ok hanswer
    rw [hsystem] at hkey ⊢
    exact ⟨rfl, rfl, rfl, rfl, rfl, hkey.symm⟩

/-- So do any number of updates. -/
theorem Stateless.alike_run (hs : Stateless s.solver) (updates : List (SparseMatrix α)) :
    s.UpdatesAlike (s.run (updates.map .update)) := by
  induction updates generalizing s with
  | nil => exact ⟨rfl, rfl, rfl, rfl, rfl, rfl⟩
  | cons gc updates ih =>
    have hnext : Stateless (s.perform (.update gc)).2.solver := (hs.solver_perform _).symm ▸ hs
    exact (hs.alike_update gc).trans (ih hnext)

/-- What an update answers and leaves behind does not depend on the updates before it, and a failed
one changes nothing. -/
structure ForgetsUpdates (s : Decomposer σ α S N) : Prop where
  answer_eq : ∀ (updates : List (SparseMatrix α)) gc,
    ((s.run (updates.map .update)).perform (.update gc)).1 = (s.perform (.update gc)).1
  system_eq : ∀ (updates : List (SparseMatrix α)) gc dec, (s.perform (.update gc)).1 = .ok dec →
    ((s.run (updates.map .update)).perform (.update gc)).2 = (s.perform (.update gc)).2
  failed : ∀ gc e, (s.perform (.update gc)).1 = .error e → (s.perform (.update gc)).2 = s

/-- Without a state of the solver, updates are forgotten. -/
theorem Stateless.forgetsUpdates (hs : Stateless s.solver) : s.ForgetsUpdates where
  answer_eq updates gc := ((hs.alike_run updates).answer_eq gc).symm
  system_eq updates _ _ h := ((hs.alike_run updates).system_eq hs h).symm
  failed _ _ h := hs.perform_error h

end Independence

end Decomposer

section Repetition

/-- A refactorization of the block that an analysis leads to finds the factors of the analysis. -/
def Reproduces [DirectSolver σ α S N] (solver : σ) : Prop :=
  ∀ (a : SparseMatrix α) (hints : AnalysisHints) (an : Analysis S N),
    (DirectSolver.analyze solver a hints).1 = .ok an →
    (DirectSolver.refactor solver (MarkowitzSolver.leadingBlock a an.rowPerm an.colPerm an.rank)
      an.basis.symbolic).1 = .ok an.basis

namespace Decomposer

variable [Factorization S N α] [DirectSolver σ α S N] {s : Decomposer σ α S N}

omit [Factorization S N α] [DirectSolver σ α S N] [Scalar α] in
/-- A selection from a selection: what an analysis of the basis block of a partition leads to is the
basis block of the partition that it refines. -/
theorem Refines.leadingBlock_eq {partition client : Partition} {an : Analysis S N} {n m : ℕ}
    {gc extracted block : SparseMatrix α} (hp : Refines partition client an n m)
    (hrank : an.rank = client.rank) (hrow : an.rowPerm.size = client.rank)
    (hcol : an.colPerm.size = client.rank) (hextracted : client.basisBlock gc = .ok extracted)
    (hblock : partition.basisBlock gc = .ok block) :
    MarkowitzSolver.leadingBlock extracted an.rowPerm an.colPerm an.rank = block := by
  obtain ⟨-, -, hfind⟩ := Partition.basisBlock_spec hextracted
  obtain ⟨hrows, hcols, hfind'⟩ := Partition.basisBlock_spec hblock
  rw [hp.rank_eq] at hrows hcols hfind'
  have hleRow : client.rank ≤ an.rowPerm.size := hrow.ge
  have hleCol : client.rank ≤ an.colPerm.size := hcol.ge
  rw [hrank, MarkowitzSolver.leadingBlock]
  refine SparseMatrix.ext_find? ?_ ?_ fun i j => ?_
  · exact (an.rowPerm.size_extract_olds hleRow).trans hrows.symm
  · exact (an.colPerm.size_extract_olds hleCol).trans hcols.symm
  · rw [extracted.find?_submatrix_extract hleRow hleCol, Nat.zero_add, Nat.zero_add, Nat.sub_zero]
    by_cases hij : i < client.rank ∧ j < client.rank
    · have hi : an.rowPerm.old i < client.rank :=
        hrow ▸ an.rowPerm.old_lt_iff.2 (hrow.symm ▸ hij.1)
      have hj : an.colPerm.old j < client.rank :=
        hcol ▸ an.colPerm.old_lt_iff.2 (hcol.symm ▸ hij.2)
      rw [if_pos hij, hfind _ _ hi hj, hfind' i j hij.1 hij.2, hp.varPerm_old, hp.equPerm_old]
    · rw [if_neg hij]
      refine (Option.eq_none_iff_forall_ne_some.2 fun v hv => hij ?_).symm
      have hlt := SparseMatrix.lt_of_find?_eq_some hv
      rwa [hrows, hcols] at hlt

omit [Factorization S N α] in
/-- The basis block of what a call settles on is factored to the same factors again. -/
theorem Settles.refactor_eq [Dimensioned S N] [SizedSolver σ] (hs : Stateless s.solver)
    (hrep : Reproduces s.solver) {call : BasisCall α} {partition : Partition}
    {basis : BasisMatrix S N} {block : SparseMatrix α} (h : s.Settles call partition basis)
    (hdim : basis.dim = partition.rank) (hblock : partition.basisBlock call.gradients = .ok block) :
    (DirectSolver.refactor s.solver block basis.symbolic).1 = .ok basis := by
  cases h with
  | @set client gc extracted an _ _ hextracted analyzed refined =>
    have hfits := SizedSolver.analyze_fits analyzed
    obtain ⟨hrows, hcols, -⟩ := Partition.basisBlock_spec hextracted
    have hp := refines_of_refine refined
    have heq := hp.leadingBlock_eq ((hfits.hasDim.dim_eq.symm.trans hdim).trans hp.rank_eq)
      (hfits.size_rowPerm.trans hrows) (hfits.size_colPerm.trans hcols) hextracted hblock
    rw [← heq]
    exact hrep _ _ _ analyzed
  | @select nu gc attempt an _ _ _ analyzed formed =>
    rw [hs.solverAfter_eq] at analyzed
    obtain ⟨hvar, hequ, hrank⟩ := Partition.new_eq_ok_iff.1 formed
    obtain ⟨-, -, rfl⟩ := SparseMatrix.select_eq_ok_iff.1 hblock
    have hselected := hrep _ _ _ analyzed
    rw [Partition.depVars, Partition.decompEqus, hvar, hequ, hrank]
    exact hselected
  | @update gc first current basis _ _ extracted refactored =>
    obtain rfl : first = block := Except.ok.inj (extracted.symm.trans hblock)
    rw [(SizedSolver.refactor_fits refactored).1]
    exact refactored

/-- An update that settles on something that can be prepared publishes it. -/
theorem Stateless.update_of_settles (hs : Stateless s.solver) {gc : SparseMatrix α}
    {partition : Partition} {basis : BasisMatrix S N} {dec : Decomposition α S N}
    (hsettled : s.Settles (.update gc) partition basis)
    (hprepared : prepare s.settings partition basis gc s.generation = .ok dec) :
    s.perform (.update gc) = (.ok dec, { s with current := some dec }) := by
  cases hsettled with
  | @update _ block current _ checked published extracted refactored =>
    have hdecomposition : s.decomposition = .ok current := by
      rw [decomposition]
      rw [published]
    show s.updateBasis gc = _
    rw [updateBasis]
    simp only [checked, hdecomposition, extracted, refactored, Attempt.mapError_ok, publish,
      hprepared, hs.state_refactor]

/-- After every successful call, an update with the same gradients succeeds, returns the
decomposition that the call returned and leaves the system as it is. -/
def RepeatsCalls (s : Decomposer σ α S N) : Prop :=
  ∀ call dec, (s.perform call).1 = .ok dec →
    (s.perform call).2.perform (.update call.gradients) = (.ok dec, (s.perform call).2)

/-- If its refactorizations repeat its analyses, updates repeat calls. -/
theorem Stateless.repeatsCalls [Dimensioned S N] [SizedSolver σ] (hs : Stateless s.solver)
    (hrep : Reproduces s.solver) : s.RepeatsCalls := by
  intro call dec h
  obtain ⟨partition, basis, settled, prepared, hsystem⟩ := hs.perform_ok h
  obtain ⟨hbuilt, -⟩ := prepare_eq_ok_iff.1 prepared
  have hrefactor := settled.refactor_eq hs hrep hbuilt.dim_eq hbuilt.basisBlock_eq
  have hextracted := hbuilt.basisBlock_eq
  rw [← hbuilt.partition_eq] at hextracted prepared
  rw [← hbuilt.basis_eq] at hrefactor prepared
  rw [hsystem]
  refine Stateless.update_of_settles ?_ ?_ prepared
  · exact hs
  · exact .update settled.checkShape rfl hextracted hrefactor

end Decomposer

/-- The sparse solver factors the leading block of an analysis as it factors any block. -/
theorem MarkowitzSolver.reproduces (solver : MarkowitzSolver α) : Reproduces solver := by
  intro a hints an h
  have hfits := MarkowitzSolver.analyze_fits h
  have hle := MarkowitzSolver.rank_le h
  obtain ⟨-, rowPerm, colPerm, factors, -, -, hfactors, rfl⟩ := analyze_eq_ok_iff.1 h
  refine Attempt.ofExcept_eq_ok_iff.2 (refactor_eq_ok_iff.2 ⟨?_, ?_, factors, hfactors, rfl⟩)
  · exact rowPerm.size_extract_olds (hfits.size_rowPerm.symm ▸ hle.trans (min_le_left _ _))
  · exact colPerm.size_extract_olds (hfits.size_colPerm.symm ▸ hle.trans (min_le_right _ _))

/-- So does the chosen solver, if it is the sparse one. -/
theorem ChosenSolver.reproduces_markowitz (solver : MarkowitzSolver α) :
    Reproduces (ChosenSolver.markowitz solver) := by
  intro a hints an h
  obtain ⟨inner, hinner, rfl⟩ := map_eq_ok_iff.1 h
  have hrefactor := Attempt.ofExcept_eq_ok_iff.1 (solver.reproduces a hints inner hinner)
  obtain ⟨hrows, -, -⟩ := MarkowitzSolver.refactor_eq_ok_iff.1 hrefactor
  have hdim := (MarkowitzSolver.analyze_fits hinner).hasDim
  refine Attempt.ofExcept_eq_ok_iff.2 (map_eq_ok_iff.2 ⟨inner.basis, hrefactor, ?_⟩)
  have hsymbolic : inner.basis.symbolic.dim = inner.rank := hdim.structureDim_eq
  exact congrArg (BasisMatrix.mk · _ _) (hrows.trans (hsymbolic.trans hdim.dim_eq.symm))

end Repetition

open Decomposer in
/-- With every solver of the library, in every state of a system and in any arithmetic, an update
does not depend on the updates before it. With the sparse solver, an update with the gradients of a
call that succeeded returns the decomposition of that call once more. -/
theorem updates_forget_and_repeat {α : Type} [Scalar α] :
    (∀ s : Decomposer (DenseSolver α) α DenseStructure (DenseLu α), s.ForgetsUpdates) ∧
      (∀ s : Decomposer (MarkowitzSolver α) α MarkowitzStructure (SparseLu α),
        s.ForgetsUpdates ∧ s.RepeatsCalls) ∧
      ∀ s : Decomposer (ChosenSolver α) α ChosenStructure (ChosenFactors α),
        s.ForgetsUpdates ∧ ∀ solver, s.solver = .markowitz solver → s.RepeatsCalls := by
  refine ⟨fun s => (stateless_dense s.solver).forgetsUpdates,
    fun s => ⟨(stateless_markowitz s.solver).forgetsUpdates, ?_⟩,
    fun s => ⟨(stateless_chosen s.solver).forgetsUpdates, fun solver hsolver => ?_⟩⟩
  · exact (stateless_markowitz s.solver).repeatsCalls s.solver.reproduces
  · refine (stateless_chosen s.solver).repeatsCalls ?_
    rw [hsolver]
    exact ChosenSolver.reproduces_markowitz solver

/-- An adopted partition is reordered, an update without any values fails, and before and after that
failure an update with the same gradients returns the same decomposition. Updates with two gradients
publish two decompositions, in either order. -/
theorem updates_forget_and_repeat_sample :
    let s : Decomposer (ChosenSolver Rat) Rat ChosenStructure (ChosenFactors Rat) :=
      .sample (.markowitz (.ofSettings (sampleSettings .markowitz))) (sampleSettings .markowitz)
    let t := (s.perform (.set sampleClient sampleGradients)).2
    s.solver = .markowitz (.ofSettings (sampleSettings .markowitz)) ∧
      ∃ dec, (s.perform (.set sampleClient sampleGradients)).1 = .ok dec ∧
        sampleClient.decompEqus = #[1, 0] ∧ dec.partition.decompEqus = #[0, 1] ∧
        t.perform (.update sampleGradients) = (.ok dec, t) ∧
        (∃ e, (t.perform (.update (.empty 3 3))).1 = .error e) ∧
        (t.perform (.update (.empty 3 3))).2 = t ∧
        ((t.run [.update (.empty 3 3)]).perform (.update sampleGradients)).1 = .ok dec ∧
        ∃ later, (t.perform (.update laterGradients)).1 = .ok later ∧
          dec.basisBlock.maxAbs = 4 ∧ later.basisBlock.maxAbs = 5 ∧
          (t.run [.update laterGradients]).perform (.update sampleGradients) = (.ok dec, t) ∧
          ((t.run [.update sampleGradients]).perform (.update laterGradients)).1 = .ok later := by
  intro s t
  have hset : (s.perform (.set sampleClient sampleGradients)).1.map
      (fun dec => (dec.partition.decompEqus, dec.basisBlock.maxAbs)) = .ok (#[0, 1], 4) := by
    decide +kernel
  obtain ⟨dec, hdec, hparts⟩ := map_eq_ok_iff.1 hset
  obtain ⟨hequ, hblock⟩ := Prod.mk.inj hparts
  have hempty : (t.perform (.update (.empty 3 3))).1.map (fun dec => dec.rank) =
      Attempt.fail (.numericallySingular 0 0) := by decide +kernel
  have he := map_eq_error_iff.1 hempty
  have hupdate : (t.perform (.update laterGradients)).1.map (fun dec => dec.basisBlock.maxAbs) =
      .ok 5 := by decide +kernel
  obtain ⟨later, hlater, hblock'⟩ := map_eq_ok_iff.1 hupdate
  obtain ⟨-, -, hchosen⟩ := @updates_forget_and_repeat Rat _
  have hrepeat : t.perform (.update sampleGradients) = (.ok dec, t) :=
    (hchosen s).2 _ rfl (.set sampleClient sampleGradients) dec hdec
  have hanswer : (t.perform (.update sampleGradients)).1 = .ok dec := by rw [hrepeat]
  have hsystem : (t.perform (.update sampleGradients)).2 = t := by rw [hrepeat]
  have hforget := (hchosen t).1
  have hreturns : (t.run [.update laterGradients]).perform (.update sampleGradients) =
      (.ok dec, t) :=
    Prod.ext ((hforget.answer_eq [laterGradients] sampleGradients).trans hanswer)
      ((hforget.system_eq [laterGradients] sampleGradients dec hanswer).trans hsystem)
  exact ⟨rfl, dec, hdec, by decide +kernel, hequ, hrepeat, ⟨_, he⟩, hforget.failed _ _ he,
    (hforget.answer_eq [.empty 3 3] sampleGradients).trans hanswer, later, hlater, hblock, hblock',
    hreturns, (hforget.answer_eq [sampleGradients] laterGradients).trans hlater⟩

end ReducedSpace
