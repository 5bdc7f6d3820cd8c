import Mathlib
import ReducedSpace.Proofs.Decomposer.Selection

/-!
# The attempts of a selection

What a selection asks of its solver, in which order, and how the answers decide its end. Nothing is
assumed of the solver: its answers may depend in any way on its state and on the hints. The requests
themselves are observed by a recorder, a solver that passes every request on to another one and
keeps a list of them; forgetting the list gives the selection without the recorder.
-/

namespace ReducedSpace

variable {σ α S N : Type}

/-- A request to a solver. -/
inductive SolverRequest (α S : Type) where
  | analyze (a : SparseMatrix α) (hints : AnalysisHints)
  | refactor (block : SparseMatrix α) (symbolic : S)

/-- A solver that keeps a list of its requests, the latest one last. -/
structure Recorder (σ α S : Type) where
  solver : σ
  requests : List (SolverRequest α S)

/-- A recorder answers as the solver it records. -/
instance [DirectSolver σ α S N] : DirectSolver (Recorder σ α S) α S N where
  name r := DirectSolver.name r.solver
  thresholdAffectsRank r := DirectSolver.thresholdAffectsRank r.solver
  analyze r a hints :=
    let (answer, solver) := DirectSolver.analyze r.solver a hints
    (answer, ⟨solver, r.requests ++ [.analyze a hints]⟩)
  refactor r block symbolic :=
    let (answer, solver) := DirectSolver.refactor r.solver block symbolic
    (answer, ⟨solver, r.requests ++ [.refactor block symbolic]⟩)

namespace Decomposer

/-- The system with a recorder in place of its solver, after the given requests. -/
def recording (s : Decomposer σ α S N) (requests : List (SolverRequest α S)) :
    Decomposer (Recorder σ α S) α S N :=
  ⟨⟨s.solver, requests⟩, s.settings, s.n, s.m, s.current, s.generation⟩

/-- The system without the recorder. -/
def unrecorded (s : Decomposer (Recorder σ α S) α S N) : Decomposer σ α S N :=
  ⟨s.solver.solver, s.settings, s.n, s.m, s.current, s.generation⟩

@[simp] theorem unrecorded_recording (s : Decomposer σ α S N)
    (requests : List (SolverRequest α S)) : (s.recording requests).unrecorded = s := rfl

theorem recording_unrecorded (s : Decomposer (Recorder σ α S) α S N) :
    s.unrecorded.recording s.solver.requests = s := rfl

variable [Scalar α] [Factorization S N α] [DirectSolver σ α S N]

omit [Factorization S N α] in
/-- The answer to the analysis that a selection starts after `k` others. -/
def answerAt (s : Decomposer σ α S N) (nu : Option (Array α)) (gc : SparseMatrix α) (k : Nat) :
    Attempt (SolverError α) (Analysis S N) :=
  (DirectSolver.analyze (s.solverAfter nu gc k) gc (s.selectionHints nu k)).1

/-- The answer says that the rank does not suffice. -/
def LacksRank (answer : Attempt (SolverError α) (Analysis S N)) : Prop :=
  ∃ rank required, answer = Attempt.fail (.singularBasis rank required)

omit [DirectSolver σ α S N] in
/-- What a selection publishes for an analysis, provided that this succeeds. -/
def publication (s : Decomposer σ α S N) (gc : SparseMatrix α) (an : Analysis S N) :
    Attempt (DecompError α) (Decomposition α S N) := do
  let partition ← .ofExcept (Partition.new an.rowPerm an.colPerm an.rank)
  prepare s.settings partition an.basis gc (s.generation + 1)

/-- How a selection with at most `limit` analyses ends: the number of analyses, its answer and what
it leaves behind. Every analysis before the last one lacked rank. -/
inductive SelectionEnds (s : Decomposer σ α S N) (nu : Option (Array α)) (gc : SparseMatrix α)
    (limit : Nat) : (analyses : Nat) →
      Attempt (DecompError α) (Decomposition α S N) × Decomposer σ α S N → Prop
  /-- The last analysis succeeds and is published. -/
  | published {k : Nat} {an : Analysis S N} {dec : Decomposition α S N} (lt_limit : k < limit)
      (lacking : ∀ j < k, LacksRank (s.answerAt nu gc j)) (found : s.answerAt nu gc k = .ok an)
      (publishes : s.publication gc an = .ok dec) :
      SelectionEnds s nu gc limit (k + 1) (.ok dec, { s with
        solver := s.solverAfter nu gc (k + 1)
        current := some dec
        generation := s.generation + 1 })
  /-- The last analysis succeeds but cannot be published. -/
  | unpublished {k : Nat} {an : Analysis S N} {e : Failure (DecompError α)} (lt_limit : k < limit)
      (lacking : ∀ j < k, LacksRank (s.answerAt nu gc j)) (found : s.answerAt nu gc k = .ok an)
      (fails : s.publication gc an = .error e) :
      SelectionEnds s nu gc limit (k + 1)
        (.error e, { s with solver := s.solverAfter nu gc (k + 1) })
  /-- The last analysis fails for another reason than the rank. -/
  | failed {k : Nat} {e : Failure (SolverError α)} (lt_limit : k < limit)
      (lacking : ∀ j < k, LacksRank (s.answerAt nu gc j)) (fails : s.answerAt nu gc k = .error e)
      (other : ¬LacksRank (s.answerAt nu gc k)) :
      SelectionEnds s nu gc limit (k + 1) (Attempt.mapError .ofSolver (.error e),
        { s with solver := s.solverAfter nu gc (k + 1) })
  /-- All the analyses lack rank. The failure of the last one is returned. -/
  | exhausted {k rank required : Nat} (succ_eq : k + 1 = limit)
      (lacking : ∀ j < k, LacksRank (s.answerAt nu gc j))
      (last : s.answerAt nu gc k = Attempt.fail (.singularBasis rank required)) :
      SelectionEnds s nu gc limit (k + 1) (Attempt.fail (.singularBasis rank required),
        { s with solver := s.solverAfter nu gc (k + 1) })
  /-- No analysis is allowed. -/
  | untried (limit_eq : limit = 0) :
      SelectionEnds s nu gc limit 0 (Attempt.fail (.singularBasis 0 s.requiredRank), s)

section Run

variable {s : Decomposer σ α S N} {nu : Option (Array α)} {gc : SparseMatrix α}

omit [DirectSolver σ α S N] in
/-- A publication carries the permutations, the rank and the factors of the analysis. -/
theorem parts_of_publication {an : Analysis S N} {dec : Decomposition α S N}
    (h : s.publication gc an = .ok dec) :
    dec.partition.varPerm = an.rowPerm ∧ dec.partition.equPerm = an.colPerm ∧
      dec.partition.rank = an.rank ∧ dec.basis = an.basis ∧ dec.generation = s.generation + 1 := by
  obtain ⟨partition, hformed, hprepared⟩ := bind_eq_ok_iff.1 h
  obtain ⟨hvar, hequ, hrank⟩ := Partition.new_eq_ok_iff.1 (Attempt.ofExcept_eq_ok_iff.1 hformed)
  have hbuilt := (prepare_eq_ok_iff.1 hprepared).1
  rw [hbuilt.partition_eq]
  exact ⟨hvar, hequ, hrank, hbuilt.basis_eq, hbuilt.generation_eq⟩

/-- A selection with a successful analysis ends with it, whether or not it can be published. -/
private theorem selectionEnds_of_found {limit k : Nat} {an : Analysis S N} (hk : k < limit)
    (hlacking : ∀ j < k, LacksRank (s.answerAt nu gc j)) (hfound : s.answerAt nu gc k = .ok an) :
    s.SelectionEnds nu gc limit (k + 1)
      (match (Partition.new an.rowPerm an.colPerm an.rank : Except (DecompError α) Partition) with
      | .error e => (Attempt.fail e, { s with solver := s.solverAfter nu gc (k + 1) })
      | .ok partition => { s with solver := s.solverAfter nu gc (k + 1) }.publish partition
          an.basis gc (s.generation + 1)) := by
  cases hformed : (Partition.new an.rowPerm an.colPerm an.rank :
    Except (DecompError α) Partition) with
  | error e =>
    refine .unpublished hk hlacking hfound ?_
    rw [publication, hformed]
    rfl
  | ok partition =>
    have hpublication : s.publication gc an =
        prepare s.settings partition an.basis gc (s.generation + 1) := by
      rw [publication, hformed]
      rfl
    dsimp only
    rw [publish]
    dsimp only
    cases hprepared : prepare s.settings partition an.basis gc (s.generation + 1) with
    | error e => exact .unpublished hk hlacking hfound (hpublication.trans hprepared)
    | ok dec => exact .published hk hlacking hfound (hpublication.trans hprepared)

/-- After some analyses that lacked rank, the failure of the last of them in hand, a selection goes
on to one of its ends. -/
theorem selectionEnds_selectFrom {limit left attempt : Nat} (hleft : attempt + left = limit)
    (hlacking : ∀ j < attempt, LacksRank (s.answerAt nu gc j)) {last : SolverError α}
    (hfirst : attempt = 0 → last = .singularBasis 0 s.requiredRank)
    (hlast : ∀ k, attempt = k + 1 → s.answerAt nu gc k = Attempt.fail last) :
    ∃ analyses, s.SelectionEnds nu gc limit analyses
      (selectFrom (s.selectionHints nu attempt).preferredRows gc left attempt last
        { s with solver := s.solverAfter nu gc attempt }) := by
  induction left generalizing attempt last with
  | zero =>
    cases attempt with
    | zero =>
      obtain rfl := hfirst rfl
      exact ⟨0, .untried hleft.symm⟩
    | succ k =>
      obtain ⟨rank, required, hk⟩ := hlacking k (Nat.lt_succ_self k)
      have hk' := hlast k rfl
      rw [hk] at hk'
      cases hk'
      exact ⟨k + 1, .exhausted hleft (fun j hj => hlacking j (Nat.lt_succ_of_lt hj)) hk⟩
  | succ left ih =>
    have hlt : attempt < limit := by omega
    rw [selectFrom]
    dsimp only
    split
    · rename_i an hfound
      exact ⟨attempt + 1, selectionEnds_of_found hlt hlacking hfound⟩
    · rename_i rank required hfails
      refine ih (by omega) (fun j hj => ?_)
        (fun h => absurd h (Nat.succ_ne_zero attempt)) fun k hk => ?_
      · rcases Nat.lt_succ_iff_lt_or_eq.1 hj with hj | rfl
        · exact hlacking j hj
        · exact ⟨rank, required, hfails⟩
      · obtain rfl := Nat.succ.inj hk
        exact hfails
    · rename_i e hother hfails
      refine ⟨attempt + 1, .failed hlt hlacking hfails ?_⟩
      rintro ⟨rank, required, hlacks⟩
      have he := hfails.symm.trans hlacks
      cases he
      exact hother _ _ rfl
    · rename_i f hfails
      refine ⟨attempt + 1, .failed hlt hlacking hfails ?_⟩
      rintro ⟨rank, required, hlacks⟩
      have he := hfails.symm.trans hlacks
      cases he

/-- A selection whose arguments pass the checks has one of the ends. -/
theorem selectionEnds_selectBasis (h : s.checkSelection nu gc = .ok ()) :
    ∃ analyses, s.SelectionEnds nu gc s.attempts analyses (s.selectBasis nu gc) := by
  rw [selectBasis, h]
  exact selectionEnds_selectFrom (Nat.zero_add _)
    (fun j hj => absurd hj (Nat.not_lt_zero j)) (fun _ => rfl)
    fun k hk => absurd hk.symm (Nat.succ_ne_zero k)

end Run

section Recording

variable {nu : Option (Array α)} {gc : SparseMatrix α}

omit [DirectSolver σ α S N] in
private theorem publish_unrecorded (s : Decomposer (Recorder σ α S) α S N) (partition : Partition)
    (basis : BasisMatrix S N) (generation : Nat) :
    s.unrecorded.publish partition basis gc generation =
      ((s.publish partition basis gc generation).1,
        (s.publish partition basis gc generation).2.unrecorded) := by
  rw [publish, publish]
  have hsettings : s.unrecorded.settings = s.settings := rfl
  rw [hsettings]
  cases prepare s.settings partition basis gc generation with
  | error e => rfl
  | ok dec => rfl

/-- A recorder does not change what a selection does. -/
theorem selectFrom_unrecorded (preferred : Option (Array Bool)) (left attempt : Nat)
    (last : SolverError α) (s : Decomposer (Recorder σ α S) α S N) :
    selectFrom preferred gc left attempt last s.unrecorded =
      ((selectFrom preferred gc left attempt last s).1,
        (selectFrom preferred gc left attempt last s).2.unrecorded) := by
  induction left generalizing attempt last s with
  | zero => rfl
  | succ left ih =>
    rw [selectFrom, selectFrom]
    have hanswer : (DirectSolver.analyze s.solver gc ⟨s.requiredRank, preferred, attempt⟩).1 =
        (DirectSolver.analyze s.unrecorded.solver gc
          ⟨s.unrecorded.requiredRank, preferred, attempt⟩).1 := rfl
    let next : Decomposer (Recorder σ α S) α S N := { s with
      solver := (DirectSolver.analyze s.solver gc ⟨s.requiredRank, preferred, attempt⟩).2 }
    dsimp only
    rw [hanswer]
    split
    · split
      · rfl
      · exact publish_unrecorded next _ _ _
    · exact ih (attempt + 1) _ next
    · rfl
    · rfl

/-- Recording the requests of a selection does not change it. -/
theorem selectBasis_unrecorded (s : Decomposer (Recorder σ α S) α S N) (nu : Option (Array α))
    (gc : SparseMatrix α) :
    s.unrecorded.selectBasis nu gc =
      ((s.selectBasis nu gc).1, (s.selectBasis nu gc).2.unrecorded) := by
  rw [selectBasis, selectBasis]
  have hcheck : s.unrecorded.checkSelection nu gc = s.checkSelection nu gc := rfl
  rw [hcheck]
  split
  · rfl
  · exact selectFrom_unrecorded _ _ _ _ _

variable {s : Decomposer σ α S N}

omit [Factorization S N α] in
/-- After some analyses a recorder has seen them in turn, and the solver is where it would be
without the recorder. -/
theorem solverAfter_recording (requests : List (SolverRequest α S)) (k : Nat) :
    (s.recording requests).solverAfter nu gc k = ⟨s.solverAfter nu gc k,
      requests ++ (List.range k).map fun j => .analyze gc (s.selectionHints nu j)⟩ := by
  induction k with
  | zero =>
    rw [List.range_zero, List.map_nil, List.append_nil]
    rfl
  | succ k ih =>
    rw [solverAfter, ih, List.range_succ, List.map_append, ← List.append_assoc]
    rfl

omit [Factorization S N α] in
/-- Nor does what was recorded before. -/
theorem answerAt_recording (requests : List (SolverRequest α S)) (k : Nat) :
    (s.recording requests).answerAt nu gc k = s.answerAt nu gc k := by
  rw [answerAt, solverAfter_recording]
  rfl

/-- A selection that is recorded ends as without the recorder, which has seen its analyses. -/
theorem SelectionEnds.unrecorded {requests : List (SolverRequest α S)} {limit analyses : Nat}
    {result : Attempt (DecompError α) (Decomposition α S N) × Decomposer (Recorder σ α S) α S N}
    (h : (s.recording requests).SelectionEnds nu gc limit analyses result) :
    s.SelectionEnds nu gc limit analyses (result.1, result.2.unrecorded) ∧
      result.2.solver.requests =
        requests ++ (List.range analyses).map fun j => .analyze gc (s.selectionHints nu j) := by
  cases h with
  | published lt_limit lacking found publishes =>
    simp only [answerAt_recording] at lacking found
    rw [solverAfter_recording]
    exact ⟨.published lt_limit lacking found publishes, rfl⟩
  | unpublished lt_limit lacking found fails =>
    simp only [answerAt_recording] at lacking found
    rw [solverAfter_recording]
    exact ⟨.unpublished lt_limit lacking found fails, rfl⟩
  | failed lt_limit lacking fails other =>
    simp only [answerAt_recording] at lacking fails other
    rw [solverAfter_recording]
    exact ⟨.failed lt_limit lacking fails other, rfl⟩
  | exhausted succ_eq lacking last =>
    simp only [answerAt_recording] at lacking last
    rw [solverAfter_recording]
    exact ⟨.exhausted succ_eq lacking last, rfl⟩
  | untried limit_eq => exact ⟨.untried limit_eq, (List.append_nil requests).symm⟩

end Recording

/-- The law of the attempts of a selection. -/
structure AttemptLaw (s : Decomposer σ α S N) (nu : Option (Array α)) (gc : SparseMatrix α) :
    Prop where
  attempt_eq : ∀ k, (s.selectionHints nu k).attempt = k
  requiredRank_eq : ∀ k, (s.selectionHints nu k).requiredRank =
    if s.settings.allowUndecomposed then min s.m 1 else s.m
  /-- There are preferences exactly if there is a dual estimate, and then for all variables. -/
  size_preferredRows : ∀ k, (s.selectionHints nu k).preferredRows.map Array.size =
    nu.map fun _ => s.n
  isPreferred_iff : ∀ k i, (s.selectionHints nu k).isPreferred i = true ↔
    ∃ v x, nu = some v ∧ v[i]? = some x ∧ Scalar.isZero x = false
  /-- The selection has one of its ends, and a recorder sees its analyses and nothing else. -/
  ends : ∃ analyses,
    s.SelectionEnds nu gc
      (if DirectSolver.thresholdAffectsRank s.solver then s.settings.maxSelectAttempts else 1)
      analyses (s.selectBasis nu gc) ∧
    (s.recording []).selectBasis nu gc =
      ((s.selectBasis nu gc).1, (s.selectBasis nu gc).2.recording
        ((List.range analyses).map fun k => .analyze gc (s.selectionHints nu k)))
  /-- A decomposition that is published has the permutations, the rank and the factors of the
  analysis. -/
  parts : ∀ an dec, s.publication gc an = .ok dec →
    dec.partition.varPerm = an.rowPerm ∧ dec.partition.equPerm = an.colPerm ∧
      dec.partition.rank = an.rank ∧ dec.basis = an.basis ∧ dec.generation = s.generation + 1

omit [Factorization S N α] [DirectSolver σ α S N] in
/-- The preferred rows of a selection are those of the nonzero entries of the dual estimate. -/
theorem isPreferred_selectionHints_iff {s : Decomposer σ α S N} {nu : Option (Array α)}
    {k i : Nat} : (s.selectionHints nu k).isPreferred i = true ↔
      ∃ v x, nu = some v ∧ v[i]? = some x ∧ Scalar.isZero x = false := by
  rw [AnalysisHints.isPreferred, selectionHints]
  cases nu with
  | none => simp
  | some v =>
    simp only [Option.map_some, Array.getD_eq_getD_getElem?, Array.getElem?_map]
    cases hx : v[i]? <;> simp [hx]

/-- A selection analyzes with the hints of attempt zero, one and so on as long as the answers lack
rank and attempts are left. The first other answer decides it: an analysis is published or fails to
be, and any other error is returned. If all the answers lack rank, the last one is returned. -/
theorem selection_attempt_law (s : Decomposer σ α S N) (nu : Option (Array α))
    (gc : SparseMatrix α) (h : s.checkSelection nu gc = .ok ()) : s.AttemptLaw nu gc where
  attempt_eq _ := rfl
  requiredRank_eq _ := rfl
  size_preferredRows k := by
    obtain ⟨-, -, hsize⟩ := checkSelection_eq_ok_iff.1 h
    rw [selectionHints]
    cases nu with
    | none => rfl
    | some v =>
      rw [Option.map_some, Option.map_some, Array.size_map, hsize v rfl]
      rfl
  isPreferred_iff _ _ := isPreferred_selectionHints_iff
  ends := by
    obtain ⟨analyses, hends⟩ := (s.recording []).selectionEnds_selectBasis h
    obtain ⟨hends, hrequests⟩ := hends.unrecorded
    have hplain := (s.recording []).selectBasis_unrecorded nu gc
    rw [unrecorded_recording] at hplain
    rw [← hplain] at hends
    refine ⟨analyses, hends, ?_⟩
    rw [hplain]
    refine Prod.ext rfl ?_
    rw [← List.nil_append (List.map _ _), ← hrequests, recording_unrecorded]
  parts _ _ := parts_of_publication

/-- A solver that claims to lack rank a number of times before it lets the dense solver answer. -/
structure ReluctantSolver where
  refusals : Nat
  solver : DenseSolver Rat

instance : DirectSolver ReluctantSolver Rat DenseStructure (DenseLu Rat) where
  name _ := "reluctant"
  thresholdAffectsRank _ := true
  analyze r a hints :=
    match r.refusals with
    | 0 => ((DirectSolver.analyze r.solver a hints).1, r)
    | left + 1 => (Attempt.fail (.singularBasis left hints.requiredRank), ⟨left, r.solver⟩)
  refactor r block symbolic := ((DirectSolver.refactor r.solver block symbolic).1, r)

/-- A sample system with a reluctant solver. -/
def reluctantSample (refusals : Nat) :
    Decomposer ReluctantSolver Rat DenseStructure (DenseLu Rat) :=
  sample ⟨refusals, DenseSolver.ofSettings (sampleSettings .dense)⟩ (sampleSettings .dense)

/-- The attempts and the required ranks of the analyses among the requests. -/
def analysesAmong (requests : List (SolverRequest Rat DenseStructure)) : List (Nat × Nat) :=
  requests.filterMap fun
    | .analyze _ hints => some (hints.attempt, hints.requiredRank)
    | .refactor _ _ => none

/-- With two refusals the third analysis is published, and with five the last of the three failures
is returned. -/
theorem selection_attempt_law_sample :
    (reluctantSample 2).AttemptLaw (some #[0, 1, 0]) sampleGradients ∧
      ((reluctantSample 2).selectBasis (some #[0, 1, 0]) sampleGradients).2.generation = 1 ∧
      analysesAmong (((reluctantSample 2).recording []).selectBasis (some #[0, 1, 0])
        sampleGradients).2.solver.requests = [(0, 1), (1, 1), (2, 1)] ∧
      (reluctantSample 5).AttemptLaw none sampleGradients ∧
      ((reluctantSample 5).selectBasis none sampleGradients).1.map (fun dec => dec.rank) =
        Attempt.fail (.singularBasis 2 1) ∧
      analysesAmong (((reluctantSample 5).recording []).selectBasis none
        sampleGradients).2.solver.requests = [(0, 1), (1, 1), (2, 1)] :=
  ⟨selection_attempt_law (reluctantSample 2) (some #[0, 1, 0]) sampleGradients
      (by decide +kernel), by decide +kernel, by decide +kernel,
    selection_attempt_law (reluctantSample 5) none sampleGradients (by decide +kernel),
    by decide +kernel, by decide +kernel⟩

end Decomposer

end ReducedSpace
