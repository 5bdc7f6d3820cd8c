import ReducedSpace.Proofs.Guarded.Decomposer
import ReducedSpace.Proofs.Recovery.Escalation

/-!
# Sessions never fault

A session with guarded accesses runs through the same states as the session itself, whatever the
history: the invariant of the system gives every call what its guards demand, and each call keeps
the invariant. So no access of a session is ever out of range and no two lengths ever disagree, and
each event is answered by a result or by an error of the domain. The arithmetic plays no part.
-/

namespace ReducedSpace

variable {σ α S N : Type} [Scalar α] [Factorization S N α] [DirectSolver σ α S N]

namespace Session

/-- The answer to an event, and the session after it. -/
def respond (t : Session σ α S N) :
    Event α → Attempt (DecompError α) (Decomposition α S N ⊕ StepOutcome) × Session σ α S N
  | .client call =>
    let (answer, system) := t.system.perform call
    (answer.map .inl, { t with system := system })
  | .recovery call =>
    let (answer, recovery, system) := t.recovery.perform t.system call
    (answer.map .inr, ⟨recovery, system⟩)

/-- Handling an event is answering it and forgetting the answer. -/
theorem handle_eq (t : Session σ α S N) (event : Event α) :
    t.handle event = (t.respond event).2 := by
  cases event <;> rfl

end Session

namespace Guarded

open Session (Event)

variable [GuardedFactorization S N α] [GuardedSolver σ α S N]

section Calls

/-- Selects a new basis and, if that succeeds, counts it and restarts the monitor. -/
def reselect (r : Recovery α) (system : Decomposer σ α S N) (gc : SparseMatrix α)
    (nu : Option (Array α)) :
    Attempt (DecompError α) StepOutcome × Recovery α × Decomposer σ α S N :=
  match selectBasis system nu gc with
  | (.error e, system) => (.error e, r, system)
  | (.ok dec, system) =>
    (.ok (.reselected dec.generation),
      { r with monitor := r.monitor.reset, count := r.count + 1 }, system)

/-- Shows the measure of an iteration to the monitor and selects a new basis if it fires. -/
def checkConditioning (r : Recovery α) (beta : α) (system : Decomposer σ α S N)
    (gc : SparseMatrix α) (nu : Option (Array α)) :
    Attempt (DecompError α) StepOutcome × Recovery α × Decomposer σ α S N :=
  let (verdict, monitor) := r.monitor.observe beta system.generation
  let r := { r with monitor := monitor }
  match verdict with
  | .accept => (.ok .proceed, r, system)
  | .illConditioned _ => reselect r system gc nu

/-- Handles a failed line search. -/
def lineSearchFailure (r : Recovery α) (iter : Nat) (system : Decomposer σ α S N)
    (gc : SparseMatrix α) (nu : Option (Array α)) :
    Attempt (DecompError α) StepOutcome × Recovery α × Decomposer σ α S N :=
  match r.exhaustedBy iter with
  | some previous =>
    (Attempt.fail (.recoveryExhausted iter previous r.monitor.betaMin), r, system)
  | none => reselect { r with lastLineSearch := some iter } system gc nu

/-- Carries out a call on a record of recoveries. -/
def recover (r : Recovery α) (system : Decomposer σ α S N) :
    RecoveryCall α → Attempt (DecompError α) StepOutcome × Recovery α × Decomposer σ α S N
  | .check beta gc nu => checkConditioning r beta system gc nu
  | .lineSearchFailure iter gc nu => lineSearchFailure r iter system gc nu
  | .reselect gc nu => reselect r system gc nu

/-- The answer to an event, and the session after it. -/
def respond (t : Session σ α S N) :
    Event α → Attempt (DecompError α) (Decomposition α S N ⊕ StepOutcome) × Session σ α S N
  | .client call =>
    let (answer, system) := perform t.system call
    (answer.map .inl, { t with system := system })
  | .recovery call =>
    let (answer, recovery, system) := recover t.recovery t.system call
    (answer.map .inr, ⟨recovery, system⟩)

/-- The session after a history. -/
def after (t : Session σ α S N) (history : List (Event α)) : Session σ α S N :=
  history.foldl (fun t event => (respond t event).2) t

end Calls

section Steps

variable [Dimensioned S N] [LawfulGuards σ] {n m : Nat} {settings : Settings α}

/-- A selection in a recovery tracks the plain one. -/
theorem tracks_reselect (r : Recovery α) (system : Decomposer σ α S N) (gc : SparseMatrix α)
    (nu : Option (Array α)) : Tracks (reselect r system gc nu) (r.reselect system gc nu) := by
  obtain ⟨heq, hnoFault⟩ := tracks_selectBasis system nu gc
  rw [reselect, Recovery.reselect]
  rw [heq]
  cases hselect : system.selectBasis nu gc with
  | mk answer system' => cases answer with
    | error e => exact ⟨rfl, hnoFault.of_error (congrArg Prod.fst hselect)⟩
    | ok dec => exact ⟨rfl, noFault_ok _⟩

theorem tracks_recover (r : Recovery α) (system : Decomposer σ α S N) (call : RecoveryCall α) :
    Tracks (recover r system call) (r.perform system call) := by
  cases call with
  | check beta gc nu =>
    show Tracks (checkConditioning r beta system gc nu) (r.checkConditioning beta system gc nu)
    rw [checkConditioning, Recovery.checkConditioning]
    cases r.monitor.observe beta system.generation with
    | mk verdict monitor => cases verdict with
      | accept => exact ⟨rfl, noFault_ok _⟩
      | illConditioned reason => exact tracks_reselect _ _ _ _
  | lineSearchFailure iter gc nu =>
    show Tracks (lineSearchFailure r iter system gc nu) (r.lineSearchFailure iter system gc nu)
    rw [lineSearchFailure, Recovery.lineSearchFailure]
    cases r.exhaustedBy iter with
    | some previous => exact ⟨rfl, noFault_fail _⟩
    | none => exact tracks_reselect _ _ _ _
  | reselect gc nu => exact tracks_reselect r system gc nu

/-- In a session with a coherent system every event is answered as with guarded accesses. -/
theorem tracks_respond {t : Session σ α S N} (ht : t.system.Coherent n m settings)
    (event : Event α) : Tracks (respond t event) (t.respond event) := by
  cases event with
  | client call =>
    obtain ⟨heq, hnoFault⟩ := tracks_perform ht call
    unfold respond Session.respond
    dsimp only
    rw [heq]
    exact ⟨rfl, hnoFault.map _⟩
  | recovery call =>
    obtain ⟨heq, hnoFault⟩ := tracks_recover t.recovery t.system call
    unfold respond Session.respond
    dsimp only
    rw [heq]
    exact ⟨rfl, hnoFault.map _⟩

end Steps

end Guarded

namespace Session

section Runs

variable [Dimensioned S N] {n m : Nat} {settings : Settings α}

/-- Whatever a record of recoveries does, it leaves the system as it was or selects a basis. -/
private theorem coherent_recovery [SizedSolver σ] {system : Decomposer σ α S N}
    (hs : system.Coherent n m settings) (r : Recovery α) (call : RecoveryCall α) :
    (r.perform system call).2.2.Coherent n m settings := by
  have hreselect : ∀ (r : Recovery α) gc nu,
      (r.reselect system gc nu).2.2.Coherent n m settings := by
    intro r gc nu
    have hselect : (system.selectBasis nu gc).2.Coherent n m settings :=
      hs.perform (.select nu gc)
    rw [Recovery.reselect]
    split
    · rename_i e s h
      rw [h] at hselect
      exact hselect
    · rename_i dec s h
      rw [h] at hselect
      exact hselect
  cases call with
  | check beta gc nu =>
    show (r.checkConditioning beta system gc nu).2.2.Coherent n m settings
    rw [Recovery.checkConditioning]
    dsimp only
    split
    · exact hs
    · exact hreselect _ _ _
  | lineSearchFailure iter gc nu =>
    show (r.lineSearchFailure iter system gc nu).2.2.Coherent n m settings
    rw [Recovery.lineSearchFailure]
    split
    · exact hs
    · exact hreselect _ _ _
  | reselect gc nu => exact hreselect _ _ _

/-- Every event keeps the invariant of the system. -/
theorem coherent_handle [SizedSolver σ] {t : Session σ α S N}
    (ht : t.system.Coherent n m settings) (event : Event α) :
    (t.handle event).system.Coherent n m settings := by
  cases event with
  | client call => exact ht.perform call
  | recovery call => exact coherent_recovery ht t.recovery call

/-- Every history keeps it. -/
theorem coherent_after [SizedSolver σ] {t : Session σ α S N}
    (ht : t.system.Coherent n m settings) (history : List (Event α)) :
    (t.after history).system.Coherent n m settings := by
  induction history generalizing t with
  | nil => exact ht
  | cons event history ih => exact ih (coherent_handle ht event)

variable [GuardedFactorization S N α] [GuardedSolver σ α S N]

omit [Dimensioned S N] in
/-- Nothing goes wrong in a history and in one more event. -/
structure Unfailing (start : Session σ α S N) (history : List (Event α)) (event : Event α) :
    Prop where
  /-- With guarded accesses the session runs through the same states. -/
  after_eq : Guarded.after start history = start.after history
  /-- With guarded accesses the event has the same answer and the same effect. -/
  respond_eq : Guarded.respond (start.after history) event = (start.after history).respond event
  /-- The answer is a result or an error of the domain. -/
  answered : (∃ result, ((start.after history).respond event).1 = .ok result) ∨
    ∃ e, ((start.after history).respond event).1 = Attempt.fail e

theorem unfailing_of_coherent [LawfulGuards σ] {start : Session σ α S N}
    (hstart : start.system.Coherent n m settings) (history : List (Event α)) (event : Event α) :
    start.Unfailing history event := by
  have hafter : Guarded.after start history = start.after history := by
    induction history generalizing start with
    | nil => rfl
    | cons event history ih =>
      have hevent := (Guarded.tracks_respond hstart event).eq
      show Guarded.after (Guarded.respond start event).2 history =
        (start.handle event).after history
      rw [hevent, ← handle_eq]
      exact ih (coherent_handle hstart event)
  obtain ⟨heq, hnoFault⟩ := Guarded.tracks_respond (coherent_after hstart history) event
  refine ⟨hafter, heq, ?_⟩
  cases hanswer : ((start.after history).respond event).1 with
  | ok result => exact .inl ⟨result, rfl⟩
  | error failure => cases failure with
    | fault f => exact absurd hanswer (hnoFault f)
    | error e => exact .inr ⟨e, rfl⟩

end Runs

/-- In every session with one of the solvers of the library, after any history, any event is
answered by a result or an error of the domain, and no access on the way was out of range. The
arithmetic, the settings, the record of recoveries and all arguments are arbitrary. -/
theorem sessions_never_fault {α : Type} [Scalar α] (n m : Nat) (settings : Settings α)
    (recovery : Recovery α) (history : List (Event α)) (event : Event α) :
    (∀ (solver : DenseSolver α) s, Decomposer.new n m solver settings = .ok s →
      (⟨recovery, s⟩ : Session _ α _ _).Unfailing history event) ∧
    (∀ (solver : MarkowitzSolver α) s, Decomposer.new n m solver settings = .ok s →
      (⟨recovery, s⟩ : Session _ α _ _).Unfailing history event) ∧
    (∀ (solver : ChosenSolver α) s, Decomposer.new n m solver settings = .ok s →
      (⟨recovery, s⟩ : Session _ α _ _).Unfailing history event) :=
  ⟨fun _ _ h => unfailing_of_coherent (Decomposer.coherent_new h) history event,
    fun _ _ h => unfailing_of_coherent (Decomposer.coherent_new h) history event,
    fun _ _ h => unfailing_of_coherent (Decomposer.coherent_new h) history event⟩

/-- A history with failed selections and an update after it: with guarded accesses it selects three
new bases and the update succeeds. The dense solver selects a basis and factors it anew with guarded
accesses, too. -/
theorem sessions_never_fault_sample :
    let dense : Session (DenseSolver Rat) Rat DenseStructure (DenseLu Rat) :=
      ⟨sample.recovery, .sample (.ofSettings (sampleSettings .dense)) (sampleSettings .dense)⟩
    let selection : List (Event Rat) := [.client (.select none sampleGradients)]
    Decomposer.new 3 3 sample.system.solver sample.system.settings = .ok sample.system ∧
      sample.Unfailing sampleHistory (.client (.update sampleGradients)) ∧
      (Guarded.after sample sampleHistory).recovery.count = 3 ∧
      (Guarded.respond (Guarded.after sample sampleHistory)
        (.client (.update sampleGradients))).1.isOk ∧
      dense.Unfailing selection (.client (.update sampleGradients)) ∧
      (Guarded.after dense selection).system.generation = 1 ∧
      (Guarded.respond (Guarded.after dense selection)
        (.client (.update sampleGradients))).1.isOk := by
  intro dense selection
  have hnew : Decomposer.new 3 3 sample.system.solver sample.system.settings = .ok sample.system :=
    Decomposer.new_eq_sample _ _
  have hdense : Decomposer.new 3 3 dense.system.solver dense.system.settings = .ok dense.system :=
    Decomposer.new_eq_sample _ _
  obtain ⟨-, hmarkowitz, -⟩ := sessions_never_fault 3 3 sample.system.settings sample.recovery
    sampleHistory (.client (.update sampleGradients))
  obtain ⟨hdenseLu, -, -⟩ := sessions_never_fault 3 3 dense.system.settings sample.recovery
    selection (.client (.update sampleGradients))
  exact ⟨hnew, hmarkowitz _ _ hnew, by decide +kernel, by decide +kernel, hdenseLu _ _ hdense,
    by decide +kernel, by decide +kernel⟩

end Session

end ReducedSpace
