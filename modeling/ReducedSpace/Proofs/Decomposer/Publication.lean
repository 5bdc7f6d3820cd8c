import ReducedSpace.Proofs.Decomposition.Parts
import ReducedSpace.Decomposer

/-!
# Publication is all or nothing

A call on a system either fails or publishes. `Settles` says which partition and which factors a
call arrives at, and `perform_cases` is the single inversion of all three calls: what a failed call
leaves behind, and what a successful one publishes. Atomicity follows, and later invariants need not
open the calls again.
-/

namespace ReducedSpace

/-- A call that may change the basis. -/
inductive BasisCall (α : Type) where
  | set (partition : Partition) (gc : SparseMatrix α)
  | select (nu : Option (Array α)) (gc : SparseMatrix α)
  | update (gc : SparseMatrix α)

/-- The gradients that a call is about. -/
def BasisCall.gradients {α : Type} : BasisCall α → SparseMatrix α
  | set _ gc => gc
  | select _ gc => gc
  | update gc => gc

/-- How many new bases a successful call counts. -/
def BasisCall.newBases {α : Type} : BasisCall α → Nat
  | set .. => 1
  | select .. => 1
  | update _ => 0

namespace Decomposer

variable {σ α S N : Type} [Scalar α] [Factorization S N α] [DirectSolver σ α S N]

/-- Carries out a call. -/
def perform (s : Decomposer σ α S N) :
    BasisCall α → Attempt (DecompError α) (Decomposition α S N) × Decomposer σ α S N
  | .set partition gc => s.setBasis partition gc
  | .select nu gc => s.selectBasis nu gc
  | .update gc => s.updateBasis gc

omit [Factorization S N α] [DirectSolver σ α S N] in
/-- The hints of one analysis in a selection. -/
def selectionHints (s : Decomposer σ α S N) (nu : Option (Array α)) (attempt : Nat) :
    AnalysisHints :=
  ⟨s.requiredRank, nu.map fun nu => nu.map fun v => !Scalar.isZero v, attempt⟩

omit [Factorization S N α] in
/-- The state of the solver in a selection after the given number of analyses. -/
def solverAfter (s : Decomposer σ α S N) (nu : Option (Array α)) (gc : SparseMatrix α) : Nat → σ
  | 0 => s.solver
  | k + 1 => (DirectSolver.analyze (solverAfter s nu gc k) gc (s.selectionHints nu k)).2

/-- The partition and the factors that a call arrives at before it publishes them. Each comes from
this call's gradients, and from the published partition only in an update. -/
inductive Settles (s : Decomposer σ α S N) :
    BasisCall α → Partition → BasisMatrix S N → Prop
  /-- The caller's partition, reordered by the analysis of its basis block. -/
  | set {client : Partition} {gc block : SparseMatrix α} {an : Analysis S N}
      {partition : Partition} (checked : s.checkClient client gc = .ok ())
      (extracted : client.basisBlock gc = .ok block)
      (analyzed : (DirectSolver.analyze s.solver block (.ofRank client.rank)).1 = .ok an)
      (refined : (refine client an s.n s.m : Attempt (DecompError α) _) = .ok partition) :
      Settles s (.set client gc) partition an.basis
  /-- The partition of the first analysis that succeeds. -/
  | select {nu : Option (Array α)} {gc : SparseMatrix α} {attempt : Nat} {an : Analysis S N}
      {partition : Partition} (checked : s.checkSelection nu gc = .ok ())
      (attempt_lt : attempt < s.attempts)
      (analyzed : (DirectSolver.analyze (s.solverAfter nu gc attempt) gc
        (s.selectionHints nu attempt)).1 = .ok an)
      (formed : (Partition.new an.rowPerm an.colPerm an.rank : Except (DecompError α) _) =
        .ok partition) :
      Settles s (.select nu gc) partition an.basis
  /-- The published partition, with its basis block factored anew. -/
  | update {gc block : SparseMatrix α} {current : Decomposition α S N} {basis : BasisMatrix S N}
      (checked : Partition.checkShape gc s.n s.m = .ok ()) (published : s.current = some current)
      (extracted : current.partition.basisBlock gc = .ok block)
      (refactored : (DirectSolver.refactor s.solver block current.basis.symbolic).1 = .ok basis) :
      Settles s (.update gc) current.partition basis

/-- What a call may return and leave behind: an error with nothing but the solver moved on, or a
prepared decomposition that is then the published one. -/
inductive Outcome (s : Decomposer σ α S N) (call : BasisCall α) :
    Attempt (DecompError α) (Decomposition α S N) × Decomposer σ α S N → Prop
  | failed (e : Failure (DecompError α)) (solver : σ) :
      Outcome s call (.error e, { s with solver := solver })
  | published {partition : Partition} {basis : BasisMatrix S N} {dec : Decomposition α S N}
      (solver : σ) (settled : s.Settles call partition basis)
      (prepared : prepare s.settings partition basis call.gradients
        (s.generation + call.newBases) = .ok dec) :
      Outcome s call (.ok dec, { s with
        solver := solver
        current := some dec
        generation := s.generation + call.newBases })

omit [DirectSolver σ α S N] in
/-- A decomposition is prepared if it is built and, where the settings ask for it, passes its test.
-/
theorem prepare_eq_ok_iff {settings : Settings α} {partition : Partition} {basis : BasisMatrix S N}
    {gc : SparseMatrix α} {generation : Nat} {dec : Decomposition α S N} :
    prepare settings partition basis gc generation = .ok dec ↔
      dec.BuiltFrom partition basis gc settings generation ∧
      (settings.testDecomposition = true → ∃ t, dec.verify gc settings.testTol = .ok t) := by
  rw [prepare]
  simp only [bind_eq_ok_iff, Decomposition.build_eq_ok_iff]
  constructor
  · rintro ⟨d, hd, h⟩
    split at h
    · obtain ⟨t, ht, hdec⟩ := bind_eq_ok_iff.1 h
      cases hdec
      exact ⟨hd, fun _ => ⟨t, ht⟩⟩
    · rename_i htest
      cases h
      exact ⟨hd, fun h => absurd h htest⟩
  · rintro ⟨hd, htest⟩
    refine ⟨dec, hd, ?_⟩
    split
    · rename_i ht
      obtain ⟨t, ht⟩ := htest ht
      exact bind_eq_ok_iff.2 ⟨t, ht, rfl⟩
    · rfl

/-- Publishing what a call settled on is one of the possible outcomes of the call. -/
private theorem outcome_publish {s : Decomposer σ α S N} {call : BasisCall α}
    {partition : Partition} {basis : BasisMatrix S N} (h : s.Settles call partition basis)
    (solver : σ) :
    s.Outcome call ({ s with solver := solver }.publish partition basis call.gradients
      (s.generation + call.newBases)) := by
  rw [publish]
  cases hp : prepare s.settings partition basis call.gradients (s.generation + call.newBases) with
  | error e => exact .failed e solver
  | ok dec => exact .published solver h hp

private theorem outcome_set (s : Decomposer σ α S N) (client : Partition) (gc : SparseMatrix α) :
    s.Outcome (.set client gc) (s.setBasis client gc) := by
  rw [setBasis]
  split
  · exact .failed _ s.solver
  · rename_i hcheck
    split
    · exact .failed _ s.solver
    · rename_i block hblock
      dsimp only
      split
      · exact .failed _ _
      · rename_i an han
        split
        · exact .failed _ _
        · rename_i partition hpart
          exact outcome_publish (.set hcheck hblock (Attempt.mapError_eq_ok_iff.1 han) hpart) _

private theorem outcome_selectFrom {s : Decomposer σ α S N} {nu : Option (Array α)}
    {gc : SparseMatrix α} (hcheck : s.checkSelection nu gc = .ok ()) (left attempt : Nat)
    (hleft : attempt + left ≤ s.attempts) (last : SolverError α) :
    s.Outcome (.select nu gc) (selectFrom (s.selectionHints nu attempt).preferredRows gc left
      attempt last { s with solver := s.solverAfter nu gc attempt }) := by
  induction left generalizing attempt last with
  | zero => exact .failed _ _
  | succ left ih =>
    rw [selectFrom]
    dsimp only
    split
    · rename_i an han
      split
      · exact .failed _ _
      · rename_i partition hpart
        exact outcome_publish (.select hcheck (by omega) han hpart) _
    · exact ih (attempt + 1) (by omega) _
    · exact .failed _ _
    · exact .failed _ _

private theorem outcome_select (s : Decomposer σ α S N) (nu : Option (Array α))
    (gc : SparseMatrix α) : s.Outcome (.select nu gc) (s.selectBasis nu gc) := by
  rw [selectBasis]
  split
  · exact .failed _ s.solver
  · rename_i hcheck
    exact outcome_selectFrom hcheck s.attempts 0 (by omega) _

private theorem outcome_update (s : Decomposer σ α S N) (gc : SparseMatrix α) :
    s.Outcome (.update gc) (s.updateBasis gc) := by
  rw [updateBasis]
  split
  · exact .failed _ s.solver
  · rename_i hcheck
    split
    · exact .failed _ s.solver
    · rename_i current hcurrent
      have hpublished : s.current = some current := by
        rw [decomposition] at hcurrent
        split at hcurrent <;> simp_all
      split
      · exact .failed _ s.solver
      · rename_i block hblock
        dsimp only
        split
        · exact .failed _ _
        · rename_i basis hbasis
          exact outcome_publish
            (.update hcheck hpublished hblock (Attempt.mapError_eq_ok_iff.1 hbasis)) _

/-- Every call fails or publishes, and there is nothing in between. -/
theorem perform_outcome (s : Decomposer σ α S N) (call : BasisCall α) :
    s.Outcome call (s.perform call) := by
  cases call with
  | set client gc => exact outcome_set s client gc
  | select nu gc => exact outcome_select s nu gc
  | update gc => exact outcome_update s gc

omit [Factorization S N α] in
/-- Every call checks the shape of its gradients. -/
theorem Settles.checkShape {s : Decomposer σ α S N} {call : BasisCall α} {partition : Partition}
    {basis : BasisMatrix S N} (h : s.Settles call partition basis) :
    (Partition.checkShape call.gradients s.n s.m : Except (DecompError α) Unit) = .ok () := by
  cases h with
  | set checked =>
    rw [checkClient] at checked
    obtain ⟨⟨⟩, hshape, -⟩ := bind_eq_ok_iff.1 checked
    exact hshape
  | select checked =>
    unfold checkSelection at checked
    obtain ⟨⟨⟩, hshape, -⟩ := bind_eq_ok_iff.1 checked
    exact hshape
  | update checked => exact checked

section State

/-- A solver whose calls leave its state as it is. -/
structure Stateless (solver : σ) : Prop where
  state_analyze : ∀ a hints, (DirectSolver.analyze solver a hints).2 = solver
  state_refactor : ∀ block symbolic, (DirectSolver.refactor solver block symbolic).2 = solver

variable {s : Decomposer σ α S N}

omit [Factorization S N α] in
/-- Without a changing state the solver is the same in every attempt. -/
theorem Stateless.solverAfter_eq (h : Stateless s.solver) (nu : Option (Array α))
    (gc : SparseMatrix α) (attempt : Nat) : s.solverAfter nu gc attempt = s.solver := by
  induction attempt with
  | zero => rfl
  | succ attempt ih =>
    rw [solverAfter]
    rw [ih, h.state_analyze]

omit [DirectSolver σ α S N] in
/-- Publishing leaves the solver as it is. -/
theorem solver_publish (s : Decomposer σ α S N) (partition : Partition) (basis : BasisMatrix S N)
    (gc : SparseMatrix α) (generation : Nat) :
    (s.publish partition basis gc generation).2.solver = s.solver := by
  rw [publish]
  split <;> rfl

/-- Without a changing state a selection does so, too. -/
theorem Stateless.solver_selectFrom (h : Stateless s.solver) (preferred : Option (Array Bool))
    (gc : SparseMatrix α) (left attempt : Nat) (last : SolverError α) :
    (selectFrom preferred gc left attempt last s).2.solver = s.solver := by
  induction left generalizing attempt last with
  | zero => rfl
  | succ left ih =>
    have hstate := h.state_analyze gc ⟨s.requiredRank, preferred, attempt⟩
    rw [selectFrom]
    dsimp only
    rw [hstate]
    split
    · split
      · rfl
      · exact solver_publish _ _ _ _ _
    · exact ih _ _
    · rfl
    · rfl

/-- No call changes the solver. -/
theorem Stateless.solver_perform (h : Stateless s.solver) (call : BasisCall α) :
    (s.perform call).2.solver = s.solver := by
  cases call with
  | set client gc =>
    show (s.setBasis client gc).2.solver = s.solver
    rw [setBasis]
    split
    · rfl
    · split
      · rfl
      · rename_i block _
        have hstate := h.state_analyze block (.ofRank client.rank)
        dsimp only
        rw [hstate]
        split
        · rfl
        · split
          · rfl
          · exact solver_publish _ _ _ _ _
  | select nu gc =>
    show (s.selectBasis nu gc).2.solver = s.solver
    rw [selectBasis]
    split
    · rfl
    · exact h.solver_selectFrom _ _ _ _ _
  | update gc =>
    show (s.updateBasis gc).2.solver = s.solver
    rw [updateBasis]
    split
    · rfl
    · split
      · rfl
      · rename_i current _
        split
        · rfl
        · rename_i block _
          have hstate := h.state_refactor block current.basis.symbolic
          dsimp only
          rw [hstate]
          split
          · rfl
          · exact solver_publish _ _ _ _ _

end State

/-- A failed call leaves the published decomposition and the generation as they were. A successful
one replaces the decomposition by one whose parts all come from the partition and the factors that
this call settled on and from this call's gradients. -/
theorem perform_publishes_whole_or_nothing (s : Decomposer σ α S N) (call : BasisCall α) :
    match s.perform call with
    | (.error _, s') =>
      s'.current = s.current ∧ s'.generation = s.generation ∧ s' = { s with solver := s'.solver }
    | (.ok dec, s') =>
      s'.current = some dec ∧ s'.generation = dec.generation ∧
        ∃ partition basis, s.Settles call partition basis ∧
          dec.BuiltFrom partition basis call.gradients s.settings
            (s.generation + call.newBases) := by
  have h := s.perform_outcome call
  generalize s.perform call = answer at h ⊢
  cases h with
  | failed e solver => exact ⟨rfl, rfl, rfl⟩
  | published solver settled prepared =>
    have hbuilt := (prepare_eq_ok_iff.1 prepared).1
    exact ⟨rfl, hbuilt.generation_eq.symm, _, _, settled, hbuilt⟩

/-- Settings on machine numbers whose self-test tolerates next to no rounding. -/
def strictSettings : Settings Float where
  solver := .markowitz
  kind := .coordinate
  sensitivity := .explicit
  pivotThreshold := 1
  rankTol := 0
  refactorTol := 0
  maxSearch := 4
  maxSelectAttempts := 1
  allowUndecomposed := true
  betaSource := .quasiNormalStep
  maxCondChangeFrac := 10
  maxCond := 1000
  testDecomposition := true
  testTol := 1 / 1000000000000000000

/-- The gradients of one equation in two variables. -/
def pairGradients (a b : Float) : SparseMatrix Float := .ofEntries 2 1 fun i _ => #[a, b][i]?

/-- A new system for them. -/
def strictSystem : Decomposer (MarkowitzSolver Float) Float MarkowitzStructure (SparseLu Float) :=
  ⟨.ofSettings strictSettings, strictSettings, 2, 1, none, 0⟩

/-- A selection publishes. In an update with `(49, 1)` the basis block is factored and the
decomposition is built, but the rounding in `49 * (1 / 49)` fails the self-test, so the selected
decomposition stays published; the next update replaces it, under the same generation. -/
theorem perform_publishes_whole_or_nothing_sample :
    let s := (strictSystem.perform (.select none (pairGradients 2 1))).2
    let failed := s.perform (.update (pairGradients 49 1))
    let updated := failed.2.perform (.update (pairGradients 4 1))
    strictSettings.validate = .ok () ∧
      (s.current.map fun dec => dec.basisBlock.maxAbs) = some 2 ∧ s.generation = 1 ∧
      failed.1 = Attempt.fail (.testFailed "C*D + N" (1 / 9007199254740992 / (50 * (1 + 1 / 49)))
        strictSettings.testTol) ∧
      failed.2.current = s.current ∧ failed.2.generation = s.generation ∧
      ∃ dec, updated.1 = .ok dec ∧ updated.2.current = some dec ∧ updated.2.generation = 1 ∧
        dec.basisBlock.maxAbs = 4 := by
  intro s failed updated
  have hfailed : failed = (Attempt.fail (.testFailed "C*D + N"
      (1 / 9007199254740992 / (50 * (1 + 1 / 49))) strictSettings.testTol), failed.2) :=
    Prod.ext (map_eq_error_iff.1 (show failed.1.map (fun dec => dec.rank) = _ by decide +kernel))
      rfl
  have hanswer : updated.1.map (fun dec => (dec.generation, dec.basisBlock.maxAbs)) =
      .ok (1, 4) := by decide +kernel
  obtain ⟨dec, hdec, hparts⟩ := map_eq_ok_iff.1 hanswer
  obtain ⟨hgeneration, hblock⟩ := Prod.mk.inj hparts
  have hupdated : updated = (.ok dec, updated.2) := Prod.ext hdec rfl
  have hkept := perform_publishes_whole_or_nothing s (.update (pairGradients 49 1))
  rw [show s.perform _ = _ from hfailed] at hkept
  have hpublished := perform_publishes_whole_or_nothing failed.2 (.update (pairGradients 4 1))
  rw [show failed.2.perform _ = _ from hupdated] at hpublished
  obtain ⟨hcurrent, hcount, -⟩ := hkept
  obtain ⟨hcurrent', hcount', -⟩ := hpublished
  exact ⟨by decide +kernel, by decide +kernel, by decide +kernel, congrArg Prod.fst hfailed,
    hcurrent, hcount, dec, hdec, hcurrent', hcount'.trans hgeneration, hblock⟩

end Decomposer

end ReducedSpace
