import ReducedSpace.Proofs.Decomposer.Correspondence
import ReducedSpace.Proofs.Decomposer.Identities
import ReducedSpace.Proofs.Guarded.Session

/-!
# Systems in lock-step

Two systems with the same solver and different settings take the same course if their settings
prepare decompositions alike: equal ones, or ones that no later call can tell apart. The relation
between the decompositions is a parameter. One call keeps two such systems in the same state and
gives both the same answer, so every history of client calls and recoveries does.
-/

namespace ReducedSpace

variable {K : Type} [ExactScalar K] {σ S N : Type} [Factorization S N K] [DirectSolver σ K S N]

namespace Decomposer

variable {r : Decomposition K S N → Decomposition K S N → Prop} {s s' : Decomposer σ K S N}

/-- The same answer, and the same state after it. -/
structure SameCourse (r : Decomposition K S N → Decomposition K S N → Prop)
    (a a' : Attempt (DecompError K) (Decomposition K S N) × Decomposer σ K S N) : Prop where
  answer : SameAnswer r a.1 a'.1
  state : SameState r a.2 a'.2

omit [ExactScalar K] [Factorization S N K] [DirectSolver σ K S N] in
/-- Courses that agree in a strong sense agree in every weaker one. -/
theorem SameCourse.imp {a a' : Attempt (DecompError K) (Decomposition K S N) × Decomposer σ K S N}
    (h : SameCourse r a a') {r₁ : Decomposition K S N → Decomposition K S N → Prop}
    (himp : ∀ dec dec', r dec dec' → r₁ dec dec') : SameCourse r₁ a a' :=
  ⟨h.answer.imp himp, h.state.imp himp⟩

/-- Settings that treat all calls alike, and prepare related decompositions from any factors that
solve with the basis block. Later calls cannot tell related decompositions apart. -/
structure Alike (r : Decomposition K S N → Decomposition K S N → Prop)
    (settings settings' : Settings K) : Prop where
  allowUndecomposed_eq : settings.allowUndecomposed = settings'.allowUndecomposed
  maxSelectAttempts_eq : settings.maxSelectAttempts = settings'.maxSelectAttempts
  partition_eq : ∀ {dec dec'}, r dec dec' → dec.partition = dec'.partition
  basis_eq : ∀ {dec dec'}, r dec dec' → dec.basis = dec'.basis
  generation_eq : ∀ {dec dec'}, r dec dec' → dec.generation = dec'.generation
  prepare : ∀ {partition : Partition} {basis : BasisMatrix S N} {gc : SparseMatrix K},
    gc.rows = partition.n → gc.cols = partition.m → basis.dim = partition.rank →
    Inverts basis.solve partition.rank (partition.reordered gc) → ∀ generation,
      SameAnswer r (prepare settings partition basis gc generation)
        (prepare settings' partition basis gc generation)

/-- Two systems in the same state, each of which has come about by calls. -/
structure InStep [Dimensioned S N] (r : Decomposition K S N → Decomposition K S N → Prop)
    (n m : ℕ) (settings settings' : Settings K) (s s' : Decomposer σ K S N) : Prop
    extends SameState r s s' where
  solves : SolvesExactly s.solver
  coherent : s.Coherent n m settings
  coherent' : s'.Coherent n m settings'

section Step

variable {n m : ℕ} {settings settings' : Settings K}

omit [DirectSolver σ K S N] in
/-- Factors of another size than the basis block are refused whatever the settings. -/
theorem prepare_of_dim_ne {partition : Partition} {basis : BasisMatrix S N}
    (hdim : basis.dim ≠ partition.rank) (settings : Settings K) (gc : SparseMatrix K)
    (generation : ℕ) : prepare settings partition basis gc generation =
      Attempt.fail (.dimensionMismatch "basis factorization" partition.rank basis.dim) := by
  rw [prepare, Decomposition.build, if_pos hdim]
  rfl

variable [Dimensioned S N] [SizedSolver σ]

/-- What a call settles on is prepared alike. -/
theorem Alike.prepare_settled (ha : Alike r settings settings') (h : s.Coherent n m settings)
    (hs : SolvesExactly s.solver) {call : BasisCall K} {partition : Partition}
    {basis : BasisMatrix S N} (settled : s.Settles call partition basis) (generation : ℕ) :
    SameAnswer r (Decomposer.prepare settings partition basis call.gradients generation)
      (Decomposer.prepare settings' partition basis call.gradients generation) := by
  by_cases hdim : basis.dim = partition.rank
  · obtain ⟨hn, hm, -, -⟩ := settled.proper h hdim
    obtain ⟨hrows, hcols⟩ := settled.size_gradients
    refine ha.prepare ?_ ?_ hdim (settled.inverts hs hdim) generation
    · rw [hrows, h.n_eq, hn]
    · rw [hcols, h.m_eq, hm]
  · rw [prepare_of_dim_ne hdim, prepare_of_dim_ne hdim]
    exact .error _

variable (ha : Alike r settings settings') (h : InStep r n m settings settings' s s')
include ha h

/-- Both systems answer a call alike and are in the same state after it. -/
theorem InStep.sameCourse_perform (call : BasisCall K) :
    SameCourse r (s.perform call) (s'.perform call) := by
  have hrules : SameRules s.settings s'.settings := by
    rw [h.coherent.settings_eq, h.coherent'.settings_eq]
    exact ⟨ha.allowUndecomposed_eq, ha.maxSelectAttempts_eq⟩
  have hprepare : PreparesAlike .equal r s s' call call.gradients := by
    rintro partition basis basis' settled - rfl
    rw [h.coherent.settings_eq, h.coherent'.settings_eq]
    exact (ha.prepare_settled h.coherent h.solves settled _).corresponds (.refl .same)
  have hcourse := course_perform (Relations.respected_equal (stateless_of_exact h.solves))
    h.toSameState (fun _ _ hr => hr) hrules call rfl
    (fun _ _ hr => ⟨ha.partition_eq hr, congrArg _ (ha.basis_eq hr)⟩) hprepare
  rw [call.withGradients_gradients] at hcourse
  exact ⟨hcourse.answer.sameAnswer, hcourse.state⟩

/-- Every call keeps two systems in step. -/
theorem InStep.perform (call : BasisCall K) :
    InStep r n m settings settings' (s.perform call).2 (s'.perform call).2 where
  toSameState := (h.sameCourse_perform ha call).state
  solves := by
    rw [(stateless_of_exact h.solves).solver_perform call]
    exact h.solves
  coherent := h.coherent.perform call
  coherent' := h.coherent'.perform call

end Step

end Decomposer

namespace Session

open Decomposer

variable {r : Decomposition K S N → Decomposition K S N → Prop} {n m : ℕ}
  {settings settings' : Settings K}

/-- After every history two sessions have the same record of recoveries and systems in the same
state, and any further event has the same answer. -/
structure Lockstep (r : Decomposition K S N → Decomposition K S N → Prop)
    (t t' : Session σ K S N) : Prop where
  recovery_eq : ∀ history, (t.after history).recovery = (t'.after history).recovery
  sameState : ∀ history, SameState r (t.after history).system (t'.after history).system
  sameAnswer : ∀ history event, SameAnswer (Sum.LiftRel r (· = ·))
    ((t.after history).respond event).1 ((t'.after history).respond event).1

section Step

variable [Dimensioned S N] [SizedSolver σ] {s s' : Decomposer σ K S N}

/-- The same answer of a record of recoveries, the same record and systems in step after it. -/
structure RecoversAlike (r : Decomposition K S N → Decomposition K S N → Prop) (n m : ℕ)
    (settings settings' : Settings K)
    (a a' : Attempt (DecompError K) StepOutcome × Recovery K × Decomposer σ K S N) : Prop where
  answer_eq : a.1 = a'.1
  recovery_eq : a.2.1 = a'.2.1
  inStep : InStep r n m settings settings' a.2.2 a'.2.2

variable (ha : Alike r settings settings') (h : InStep r n m settings settings' s s')
include ha h

/-- So does a selection in a recovery. -/
theorem recoversAlike_reselect (rec : Recovery K) (gc : SparseMatrix K) (nu : Option (Array K)) :
    RecoversAlike r n m settings settings' (rec.reselect s gc nu) (rec.reselect s' gc nu) := by
  have hanswer : SameAnswer r (s.selectBasis nu gc).1 (s'.selectBasis nu gc).1 :=
    (h.sameCourse_perform ha (.select nu gc)).answer
  have hstep : InStep r n m settings settings' (s.selectBasis nu gc).2 (s'.selectBasis nu gc).2 :=
    h.perform ha (.select nu gc)
  rw [Recovery.reselect, Recovery.reselect]
  generalize s.selectBasis nu gc = a at hanswer hstep ⊢
  generalize s'.selectBasis nu gc = a' at hanswer hstep ⊢
  obtain ⟨answer, system⟩ := a
  obtain ⟨answer', system'⟩ := a'
  cases hanswer with
  | ok hr =>
    refine ⟨?_, rfl, hstep⟩
    show Except.ok (StepOutcome.reselected _) = .ok (.reselected _)
    rw [ha.generation_eq hr]
  | error e => exact ⟨rfl, rfl, hstep⟩

/-- And every other recovery. -/
theorem recoversAlike (rec : Recovery K) (call : RecoveryCall K) :
    RecoversAlike r n m settings settings' (rec.perform s call) (rec.perform s' call) := by
  cases call with
  | check beta gc nu =>
    show RecoversAlike r n m settings settings' (rec.checkConditioning beta s gc nu)
      (rec.checkConditioning beta s' gc nu)
    rw [Recovery.checkConditioning, Recovery.checkConditioning, ← h.generation_eq]
    dsimp only
    split
    · exact ⟨rfl, rfl, h⟩
    · exact recoversAlike_reselect ha h _ gc nu
  | lineSearchFailure iter gc nu =>
    show RecoversAlike r n m settings settings' (rec.lineSearchFailure iter s gc nu)
      (rec.lineSearchFailure iter s' gc nu)
    rw [Recovery.lineSearchFailure, Recovery.lineSearchFailure]
    split
    · exact ⟨rfl, rfl, h⟩
    · exact recoversAlike_reselect ha h _ gc nu
  | reselect gc nu => exact recoversAlike_reselect ha h rec gc nu

end Step

section Run

variable [Dimensioned S N] [SizedSolver σ] {t t' : Session σ K S N}

/-- Two sessions with the same record of recoveries and systems in step. -/
structure InStep (r : Decomposition K S N → Decomposition K S N → Prop) (n m : ℕ)
    (settings settings' : Settings K) (t t' : Session σ K S N) : Prop where
  recovery_eq : t.recovery = t'.recovery
  system : Decomposer.InStep r n m settings settings' t.system t'.system

variable (ha : Alike r settings settings')
include ha

/-- An event has the same answer in both sessions. -/
theorem InStep.sameAnswer (h : InStep r n m settings settings' t t') (event : Event K) :
    SameAnswer (Sum.LiftRel r (· = ·)) (t.respond event).1 (t'.respond event).1 := by
  cases event with
  | client call =>
    exact (h.system.sameCourse_perform ha call).answer.map fun _ _ hr => .inl hr
  | recovery call =>
    have hrecovers := recoversAlike ha h.system t.recovery call
    show SameAnswer _ ((t.recovery.perform t.system call).1.map Sum.inr)
      ((t'.recovery.perform t'.system call).1.map Sum.inr)
    rw [← h.recovery_eq, hrecovers.answer_eq]
    exact (sameAnswer_self _).map fun _ _ heq => .inr heq.2

/-- An event keeps both sessions in step. -/
theorem InStep.handle (h : InStep r n m settings settings' t t') (event : Event K) :
    InStep r n m settings settings' (t.handle event) (t'.handle event) := by
  cases event with
  | client call => exact ⟨h.recovery_eq, h.system.perform ha call⟩
  | recovery call =>
    have hrecovers := recoversAlike ha h.system t.recovery call
    show InStep r n m settings settings' ⟨(t.recovery.perform t.system call).2.1, _⟩
      ⟨(t'.recovery.perform t'.system call).2.1, _⟩
    rw [← h.recovery_eq]
    exact ⟨hrecovers.recovery_eq, hrecovers.inStep⟩

/-- So does every history. -/
theorem InStep.after (h : InStep r n m settings settings' t t') (history : List (Event K)) :
    InStep r n m settings settings' (t.after history) (t'.after history) := by
  induction history generalizing t t' with
  | nil => exact h
  | cons event history ih => exact ih (h.handle ha event)

/-- Therefore systems in step stay in lock-step. -/
theorem InStep.lockstep (h : InStep r n m settings settings' t t') : t.Lockstep r t' where
  recovery_eq history := (h.after ha history).recovery_eq
  sameState history := (h.after ha history).system.toSameState
  sameAnswer history event := (h.after ha history).sameAnswer ha event

/-- New systems with such settings stay in lock-step. -/
theorem lockstep_new {solver : σ} (hsolver : SolvesExactly solver) {s s' : Decomposer σ K S N}
    (h : new n m solver settings = .ok s) (h' : new n m solver settings' = .ok s')
    (rec : Recovery K) : (⟨rec, s⟩ : Session σ K S N).Lockstep r ⟨rec, s'⟩ := by
  have hcoherent := coherent_new h
  have hcoherent' := coherent_new h'
  obtain ⟨-, -, rfl⟩ := new_eq_ok_iff.1 h
  obtain ⟨-, -, rfl⟩ := new_eq_ok_iff.1 h'
  have hstep : Decomposer.InStep r n m settings settings'
      (⟨solver, settings, n, m, none, 0⟩ : Decomposer σ K S N)
      ⟨solver, settings', n, m, none, 0⟩ :=
    { solver_eq := rfl
      n_eq := rfl
      m_eq := rfl
      generation_eq := rfl
      current := .none
      solves := hsolver
      coherent := hcoherent
      coherent' := hcoherent' }
  exact InStep.lockstep ha ⟨rfl, hstep⟩

end Run

end Session

end ReducedSpace
