import ReducedSpace.Proofs.Basis.WellFormed
import ReducedSpace.Proofs.Decomposer.Tagged

/-!
# The tags of the chosen solver

The solver of the settings wraps one of the two solvers, and everything that it makes carries its
tag. A system over it is therefore the wrapped system over the plain solver, in all its histories.
As a consequence nothing of what is kept for foreign structures and factors ever happens: no error
of the solver is passed on as it is, the factors have the rank of the partition, and every solve is
one by the solver that made the structure. The last of these is put as an independence: whatever
stood in the place of the answer that pairs of different tags get, no call and no solve would
change.
-/

namespace ReducedSpace

/-- An error about the values of a matrix: its rank is too small, or one of its pivots. -/
inductive SolverError.AboutValues {α : Type} : SolverError α → Prop
  | singularBasis (rank required : Nat) : AboutValues (.singularBasis rank required)
  | numericallySingular (pivot : Nat) (value : α) : AboutValues (.numericallySingular pivot value)

section Errors

variable {α : Type} [Scalar α]

/-- The dense factorization of a square matrix fails for a pivot only. -/
theorem DenseLu.raises_factor {a : DenseMatrix α} (hsquare : a.cols = a.rows) (tol : α) :
    RaisesOnly SolverError.AboutValues (factor a tol) := by
  have hfrom (steps : Nat) : ∀ (k : Nat) (a : DenseMatrix α) (swaps : Array Nat),
      RaisesOnly SolverError.AboutValues (factorFrom tol steps k a swaps) := by
    induction steps with
    | zero => exact fun k a swaps => raisesOnly_ok _
    | succ steps ih =>
      intro k a swaps
      rw [factorFrom]
      dsimp only
      split
      · exact ih _ _ _
      · exact raisesOnly_error (.numericallySingular _ _)
  rw [factor, if_pos hsquare]
  exact hfrom _ _ _ _

/-- A solver that complains of values only, as long as each block has the dimension of the structure
that it comes with. -/
class ComplainsOfValues (σ : Type) {α S N : Type} [Dimensioned S N] [DirectSolver σ α S N] :
    Prop where
  analyze : ∀ {solver : σ} {a : SparseMatrix α} {hints : AnalysisHints} {e : SolverError α},
    (DirectSolver.analyze solver a hints).1 = Attempt.fail e → e.AboutValues
  refactor : ∀ {solver : σ} {block : SparseMatrix α} {symbolic : S} {e : SolverError α},
    block.rows = Dimensioned.structureDim N symbolic →
    block.cols = Dimensioned.structureDim N symbolic →
    (DirectSolver.refactor solver block symbolic).1 = Attempt.fail e → e.AboutValues

theorem Attempt.ofExcept_eq_fail_iff {ε β : Type} {x : Except ε β} {e : ε} :
    Attempt.ofExcept x = Attempt.fail e ↔ x = .error e := by
  cases x <;> simp [Attempt.ofExcept, Attempt.fail]

theorem Attempt.ofExcept_map {ε β γ : Type} (x : Except ε β) (f : β → γ) :
    Attempt.ofExcept (x.map f) = (Attempt.ofExcept x).map f := by
  cases x <;> rfl

instance : ComplainsOfValues (DenseSolver α) where
  analyze {solver a hints e} h := by
    have h' := Attempt.ofExcept_eq_fail_iff.1 h
    rw [DenseSolver.analyze_eq] at h'
    split at h'
    · cases h'
      exact .singularBasis _ _
    · cases h'
  refactor {solver block symbolic e} hrows hcols h := by
    have h' := Attempt.ofExcept_eq_fail_iff.1 h
    rw [DenseSolver.refactor, if_pos ⟨hrows, hcols⟩, map_eq_error_iff] at h'
    exact DenseLu.raises_factor (a := block.toDense) (hcols.trans hrows.symm) _ e h'

instance : ComplainsOfValues (MarkowitzSolver α) where
  analyze {solver a hints e} h := by
    have h' : solver.analyze a hints = Attempt.fail e := h
    obtain ⟨rfl, -⟩ | ⟨k, v, rfl⟩ := MarkowitzSolver.raises_analyze _ h' e rfl
    · exact .singularBasis _ _
    · exact .numericallySingular k v
  refactor {solver block symbolic e} hrows hcols h := by
    have h' := Attempt.ofExcept_eq_fail_iff.1 h
    rw [MarkowitzSolver.refactor, if_pos ⟨hrows, hcols⟩, map_eq_error_iff] at h'
    obtain ⟨k, v, rfl⟩ := SparseLu.raises_factor _ _ e h'
    exact .numericallySingular k v

end Errors

namespace Decomposer

section Mismatches

variable {α σ S N : Type} [Scalar α] [Factorization S N α] [DirectSolver σ α S N]
  [Dimensioned S N] [BlockSolver σ] {s : Decomposer σ α S N} {n m : Nat} {settings : Settings α}

omit [Factorization S N α] in
/-- The factors that a call settles on have the rank of the partition. -/
theorem Settles.dim_eq {call : BasisCall α} {partition : Partition} {basis : BasisMatrix S N}
    (h : s.Settles call partition basis) (hs : s.Coherent n m settings) :
    basis.dim = partition.rank := by
  cases h with
  | @set client gc block an partition checked extracted analyzed refined =>
    have hfits := SizedSolver.analyze_fits analyzed
    have hle := BlockSolver.rank_le analyzed
    have hge : client.rank ≤ an.rank := hfits.requiredRank_le
    obtain ⟨hrows, hcols, -⟩ := Partition.basisBlock_spec extracted
    rw [hfits.hasDim.dim_eq, (refines_of_refine refined).rank_eq]
    omega
  | select checked attempt_lt analyzed formed =>
    have hfits := SizedSolver.analyze_fits analyzed
    rw [hfits.hasDim.dim_eq, (Partition.new_eq_ok_iff.1 formed).2.2]
  | update checked published extracted refactored =>
    have hdim := (SizedSolver.refactor_fits refactored).2.dim_eq
    rw [hdim, (hs.proper _ published).hasDim.structureDim_eq]

/-- The errors that stand for a mixed up solver: another error of the solver than one about values,
and factors of another size than the rank. -/
inductive Mismatch : DecompError α → Prop
  | backend (source : SolverError α) : Mismatch (.backend source)
  | dimension (expected actual : Nat) :
      Mismatch (.dimensionMismatch "basis factorization" expected actual)

omit [Scalar α] in
/-- An error about the values is not about a mismatch. -/
theorem not_mismatch_ofSolver {e : SolverError α} (h : e.AboutValues) :
    ¬Mismatch (DecompError.ofSolver e) := by
  cases h with
  | singularBasis => rintro ⟨⟩
  | numericallySingular => rintro ⟨⟩

/-- No call on a coherent system reports a mixed up solver. -/
theorem Coherent.not_mismatch [ComplainsOfValues σ] (hs : s.Coherent n m settings)
    {call : BasisCall α} {e : DecompError α} (h : (s.perform call).1 = Attempt.fail e) :
    ¬Mismatch e := by
  cases callError_of_perform h with
  | argument what expected actual named =>
    rintro ⟨⟩
    simp at named
  | partition => rintro ⟨⟩
  | notInitialized => rintro ⟨⟩
  | analysis failed => exact not_mismatch_ofSolver (ComplainsOfValues.analyze failed)
  | noAttempt => rintro ⟨⟩
  | refactorization published extracted failed =>
    obtain ⟨hrows, hcols, -⟩ := Partition.basisBlock_spec extracted
    have hdim := (hs.proper _ published).hasDim.structureDim_eq
    exact not_mismatch_ofSolver
      (ComplainsOfValues.refactor (hrows.trans hdim.symm) (hcols.trans hdim.symm) failed)
  | preparation settled failed =>
    cases failed with
    | size differs => exact absurd (settled.dim_eq hs) differs
    | gram => rintro ⟨⟩
    | gradients what expected actual named =>
      rintro ⟨⟩
      simp at named
    | test => rintro ⟨⟩

end Mismatches

end Decomposer

section Tags

variable {α : Type}

/-- The choice that a solver is the result of. -/
def ChosenSolver.choice : ChosenSolver α → SolverChoice
  | dense _ => .dense
  | markowitz _ => .markowitz

/-- The choice that a structure belongs to. -/
def ChosenStructure.choice : ChosenStructure → SolverChoice
  | dense _ => .dense
  | markowitz _ => .markowitz

/-- The choice that factors belong to. -/
def ChosenFactors.choice : ChosenFactors α → SolverChoice
  | dense _ => .dense
  | markowitz _ => .markowitz

/-- The dense solver as a chosen one. -/
def Tagging.dense : Tagging (DenseSolver α) DenseStructure (DenseLu α) (ChosenSolver α)
    ChosenStructure (ChosenFactors α) := ⟨.dense, .dense, .dense⟩

/-- The sparse solver as a chosen one. -/
def Tagging.markowitz : Tagging (MarkowitzSolver α) MarkowitzStructure (SparseLu α)
    (ChosenSolver α) ChosenStructure (ChosenFactors α) := ⟨.markowitz, .markowitz, .markowitz⟩

variable [Scalar α]

/-- Solves with a structure and factors of the same tag; anything else is answered by `mixed`. -/
@[reducible] def ChosenStructure.solveOr (mixed : Array α → Checked (Array α)) :
    Factorization ChosenStructure (ChosenFactors α) α where
  solve
    | .dense _, .dense lu, o, b => lu.solveIn o b
    | .markowitz _, .markowitz f, o, b => f.solveIn o b
    | _, _, _, b => mixed b

/-- The library answers with NaN. -/
theorem ChosenStructure.solveOr_nan :
    solveOr (fun b : Array α => .ok (b.map fun _ => Scalar.nan)) =
      instFactorizationChosenStructureChosenFactorsOfScalar := by
  refine congrArg Factorization.mk ?_
  funext s n o b
  cases s <;> cases n <;> rfl

/-- With a structure of the dense solver its refactorization is tagged as a whole: a block that has
the dimension of the structure gives the dimension of the factors. -/
theorem ChosenSolver.refactor_dense (solver : DenseSolver α) (block : SparseMatrix α)
    (symbolic : DenseStructure) : (dense solver).refactor block (.dense symbolic) =
      (solver.refactor block symbolic).map (.map .dense .dense) := by
  rw [refactor]
  cases hb : solver.refactor block symbolic with
  | error e => rfl
  | ok b =>
    obtain ⟨hrows, -, lu, -, rfl⟩ := DenseSolver.refactor_eq_ok_iff.1 hb
    show Except.ok _ = Except.ok _
    rw [hrows]
    rfl

/-- The chosen solver refactors structures of its own kind as the inner solver does. -/
theorem ChosenSolver.refactor_markowitz (solver : MarkowitzSolver α) (block : SparseMatrix α)
    (symbolic : MarkowitzStructure) : (markowitz solver).refactor block (.markowitz symbolic) =
      (solver.refactor block symbolic).map (.map .markowitz .markowitz) := by
  rw [refactor]
  cases hb : solver.refactor block symbolic with
  | error e => rfl
  | ok b =>
    obtain ⟨hrows, -, factors, -, rfl⟩ := MarkowitzSolver.refactor_eq_ok_iff.1 hb
    show Except.ok _ = Except.ok _
    rw [hrows]
    rfl

/-- Whatever stands for foreign factors, the chosen solver is the dense one with a tag. -/
theorem Tagging.faithful_dense (mixed : Array α → Checked (Array α)) :
    @Faithful _ _ _ _ _ _ (dense (α := α)) α _ (ChosenStructure.solveOr mixed) _ _ :=
  let _ := ChosenStructure.solveOr mixed
  { name_eq := fun _ => rfl
    thresholdAffectsRank_eq := fun _ => rfl
    analyze_eq := fun _ _ _ => rfl
    refactor_eq := fun solver block symbolic => by
      have hanswer := ChosenSolver.refactor_dense solver block symbolic
      exact Prod.ext ((congrArg Attempt.ofExcept hanswer).trans (Attempt.ofExcept_map _ _)) rfl
    solvesAlike := fun _ _ _ _ => rfl }

/-- Or the sparse one. -/
theorem Tagging.faithful_markowitz (mixed : Array α → Checked (Array α)) :
    @Faithful _ _ _ _ _ _ (markowitz (α := α)) α _ (ChosenStructure.solveOr mixed) _ _ :=
  let _ := ChosenStructure.solveOr mixed
  { name_eq := fun _ => rfl
    thresholdAffectsRank_eq := fun _ => rfl
    analyze_eq := fun _ _ _ => rfl
    refactor_eq := fun solver block symbolic => by
      have hanswer := ChosenSolver.refactor_markowitz solver block symbolic
      exact Prod.ext ((congrArg Attempt.ofExcept hanswer).trans (Attempt.ofExcept_map _ _)) rfl
    solvesAlike := fun _ _ _ _ => rfl }

end Tags

namespace Decomposer

variable {α : Type} [Scalar α]

/-- A system over the solver of the settings. -/
abbrev Chosen (α : Type) : Type := Decomposer (ChosenSolver α) α ChosenStructure (ChosenFactors α)

/-- Carries out a call while foreign factors are answered by `mixed`. -/
def performOr (mixed : Array α → Checked (Array α)) (s : Chosen α) (call : BasisCall α) :
    Attempt (DecompError α) (Decomposition α ChosenStructure (ChosenFactors α)) × Chosen α :=
  @perform _ _ _ _ _ (ChosenStructure.solveOr mixed) _ s call

/-- Carries out calls in turn while foreign factors are answered by `mixed`. -/
def runOr (mixed : Array α → Checked (Array α)) (s : Chosen α) (calls : List (BasisCall α)) :
    Chosen α :=
  @run _ _ _ _ _ (ChosenStructure.solveOr mixed) _ s calls

/-- Solver, structure and factors carry one tag, and structure and factors have one dimension. -/
structure OneTag (s : Chosen α) (choice : SolverChoice) : Prop where
  solver_eq : s.solver.choice = choice
  symbolic_eq : ∀ dec, s.current = some dec → dec.basis.symbolic.choice = choice
  numeric_eq : ∀ dec, s.current = some dec → dec.basis.numeric.choice = choice
  dim_eq : ∀ dec, s.current = some dec → dec.basis.dim = dec.basis.symbolic.dim

section Wrapping

variable {σ S N : Type} [Factorization S N α] [DirectSolver σ α S N]

/-- A system over the solver of the settings, its tags apart, is a system over a plain solver: it
gives the same answers and its decompositions act the same. It reports no mixed up solver, and
nothing depends on what foreign factors are answered by. -/
structure Wraps (t : Tagging σ S N (ChosenSolver α) ChosenStructure (ChosenFactors α))
    (choice : SolverChoice) (plain : Decomposer σ α S N) (s : Chosen α) : Prop where
  state_eq : s = plain.map t
  answer_eq : ∀ call, s.perform call = mapAnswer t (plain.perform call)
  actsAs : ∀ dec, plain.current = some dec → (dec.map t.symbolic t.numeric).ActsAs dec
  oneTag : s.OneTag choice
  not_mismatch : ∀ call e, (s.perform call).1 = Attempt.fail e → ¬Mismatch e
  performOr_eq : ∀ mixed call, performOr mixed s call = s.perform call
  solveOr_eq : ∀ mixed dec, s.current = some dec →
    @BasisMatrix.solve _ _ _ (ChosenStructure.solveOr mixed) dec.basis = dec.basis.solve

/-- A new system over the solver of the settings exists if one over the plain solver does, and it
wraps that one after every run. -/
structure OnlyTags (t : Tagging σ S N (ChosenSolver α) ChosenStructure (ChosenFactors α))
    (n m : Nat) (settings : Settings α) (solver : σ) : Prop where
  new_eq : ofSettings n m settings = (new n m solver settings).map (map t)
  wraps : ∀ plain s, new n m solver settings = .ok plain → ofSettings n m settings = .ok s →
    ∀ calls, Wraps t settings.solver (plain.run calls) (s.run calls)
  runOr_eq : ∀ s, ofSettings n m settings = .ok s → ∀ mixed calls, runOr mixed s calls = s.run calls

/-- A faithful wrapping that puts one tag on everything. -/
structure TagsAs [Dimensioned S N]
    (t : Tagging σ S N (ChosenSolver α) ChosenStructure (ChosenFactors α))
    (choice : SolverChoice) : Prop where
  faithful : ∀ mixed, @Tagging.Faithful _ _ _ _ _ _ t α _ (ChosenStructure.solveOr mixed) _ _
  solver_eq : ∀ solver, (t.solver solver).choice = choice
  symbolic_eq : ∀ symbolic, (t.symbolic symbolic).choice = choice
  numeric_eq : ∀ numeric, (t.numeric numeric).choice = choice
  dim_eq : ∀ symbolic, (t.symbolic symbolic).dim = Dimensioned.structureDim N symbolic

omit [Factorization S N α] [DirectSolver σ α S N] in
/-- A new system may be tagged before or after it is made. -/
theorem new_map (t : Tagging σ S N (ChosenSolver α) ChosenStructure (ChosenFactors α))
    (n m : Nat) (solver : σ) (settings : Settings α) :
    (new n m (t.solver solver) settings : Except (DecompError α) (Chosen α)) =
      (new n m solver settings).map (map t) := by
  rw [new, new, map_bind_eq]
  refine congrArg _ (funext fun _ => ?_)
  split
  · rfl
  · rfl

variable [Dimensioned S N] {choice : SolverChoice} {n m : Nat} {settings : Settings α}
  {t : Tagging σ S N (ChosenSolver α) ChosenStructure (ChosenFactors α)}

theorem TagsAs.faithful_nan (h : TagsAs t choice) : t.Faithful α :=
  ChosenStructure.solveOr_nan (α := α) ▸ h.faithful _

variable [BlockSolver σ] [ComplainsOfValues σ]

/-- A wrapped system wraps the plain one, which must be coherent. -/
theorem TagsAs.wraps (h : TagsAs t choice) {plain : Decomposer σ α S N}
    (hs : plain.Coherent n m settings) : Wraps t choice plain (plain.map t) := by
  have hcurrent {dec} (hdec : (plain.map t).current = some dec) :
      ∃ inner, plain.current = some inner ∧ inner.map t.symbolic t.numeric = dec :=
    Option.map_eq_some_iff.1 hdec
  refine ⟨rfl, perform_map h.faithful_nan plain, fun dec _ =>
    Decomposition.actsAs_map h.faithful_nan.solvesAlike dec, ⟨h.solver_eq _, ?_, ?_, ?_⟩,
    ?_, ?_, ?_⟩
  · intro dec hdec
    obtain ⟨inner, -, rfl⟩ := hcurrent hdec
    exact h.symbolic_eq _
  · intro dec hdec
    obtain ⟨inner, -, rfl⟩ := hcurrent hdec
    exact h.numeric_eq _
  · intro dec hdec
    obtain ⟨inner, hinner, rfl⟩ := hcurrent hdec
    have hdim := (hs.proper inner hinner).hasDim
    exact hdim.dim_eq.trans (hdim.structureDim_eq.symm.trans (h.dim_eq _).symm)
  · intro call e he
    rw [perform_map h.faithful_nan] at he
    exact hs.not_mismatch (map_eq_error_iff.1 he)
  · intro mixed call
    rw [perform_map h.faithful_nan]
    let _ := ChosenStructure.solveOr mixed
    exact perform_map (h.faithful mixed) plain call
  · intro mixed dec hdec
    obtain ⟨inner, -, rfl⟩ := hcurrent hdec
    refine Eq.trans ?_ (h.faithful_nan.solvesAlike.solve_eq inner.basis).symm
    let _ := ChosenStructure.solveOr mixed
    exact (h.faithful mixed).solvesAlike.solve_eq inner.basis

/-- Systems that are built over the two solvers stay wrapped in every run. -/
theorem TagsAs.onlyTags (h : TagsAs t settings.solver) {solver : σ}
    (hsolver : ChosenSolver.ofSettings settings = t.solver solver) :
    OnlyTags t n m settings solver := by
  have hnew : ofSettings n m settings = (new n m solver settings).map (map t) := by
    rw [ofSettings, hsolver, new_map]
  have hsystem {s : Chosen α} (hs : ofSettings n m settings = .ok s) :
      ∃ plain, new n m solver settings = .ok plain ∧ plain.map t = s :=
    map_eq_ok_iff.1 (hnew.symm.trans hs)
  refine ⟨hnew, fun plain s hplain hs calls => ?_, fun s hs mixed calls => ?_⟩
  · obtain ⟨plain', hplain', rfl⟩ := hsystem hs
    obtain rfl : plain' = plain := Except.ok.inj (hplain'.symm.trans hplain)
    rw [run_map h.faithful_nan]
    exact h.wraps ((coherent_new hplain).run calls)
  · obtain ⟨plain, -, rfl⟩ := hsystem hs
    rw [run_map h.faithful_nan]
    let _ := ChosenStructure.solveOr mixed
    exact run_map (h.faithful mixed) plain calls

end Wrapping

/-- A system over the solver that the settings choose is the system over that solver itself but for
its tags, in every arithmetic and after every sequence of calls. -/
theorem chosen_solver_only_tags (n m : Nat) (settings : Settings α) :
    match settings.solver with
    | .dense => OnlyTags .dense n m settings (DenseSolver.ofSettings settings)
    | .markowitz => OnlyTags .markowitz n m settings (MarkowitzSolver.ofSettings settings) := by
  cases hchoice : settings.solver with
  | dense =>
    have htags : TagsAs (Tagging.dense (α := α)) .dense :=
      ⟨Tagging.faithful_dense, fun _ => rfl, fun _ => rfl, fun _ => rfl, fun _ => rfl⟩
    refine TagsAs.onlyTags (hchoice.symm ▸ htags) ?_
    rw [ChosenSolver.ofSettings, hchoice]
    rfl
  | markowitz =>
    have htags : TagsAs (Tagging.markowitz (α := α)) .markowitz :=
      ⟨Tagging.faithful_markowitz, fun _ => rfl, fun _ => rfl, fun _ => rfl, fun _ => rfl⟩
    refine TagsAs.onlyTags (hchoice.symm ▸ htags) ?_
    rw [ChosenSolver.ofSettings, hchoice]
    rfl

/-- A sample system over the sparse solver publishes, with the tag of that solver on every part. -/
theorem chosen_solver_only_tags_sample :
    let settings := sampleSettings .markowitz
    let s : Chosen Rat := sample (.ofSettings settings) settings
    let calls := [BasisCall.select none sampleGradients, .update sampleGradients]
    ofSettings 3 3 settings = .ok s ∧ (s.run calls).current.isSome = true ∧
      Wraps .markowitz .markowitz
        ((sample (MarkowitzSolver.ofSettings settings) settings).run calls) (s.run calls) := by
  intro settings s calls
  have hnew : ofSettings 3 3 settings = .ok s := new_eq_sample _ _
  have htags : OnlyTags .markowitz 3 3 settings (MarkowitzSolver.ofSettings settings) :=
    chosen_solver_only_tags 3 3 settings
  exact ⟨hnew, by decide +kernel, htags.wraps _ s (new_eq_sample _ _) hnew calls⟩

end Decomposer

end ReducedSpace
