import ReducedSpace.Proofs.Conditioning.Baseline
import ReducedSpace.Proofs.Recovery.Escalation

/-!
# Accounts of a session

A record of recoveries counts the bases that it selects, and the system numbers all bases that it
adopts. `Recovery.perform_effect` says once what a call on the record can do: it either keeps the
published decomposition and its own count, or it adopts exactly one basis, counts it and forgets
the history of the monitor. The two counters therefore agree in every session, whoever else changes
the basis in between and whichever selections fail.
-/

namespace ReducedSpace

variable {σ α S N : Type} [Scalar α]

/-- The monitor of a record after the observation that a call makes, if it makes one. -/
def Recovery.observed (r : Recovery α) (generation : Nat) : RecoveryCall α → Monitor α
  | .check beta _ _ => (r.monitor.observe beta generation).2
  | .lineSearchFailure .. => r.monitor
  | .reselect .. => r.monitor

variable [Factorization S N α] [DirectSolver σ α S N]

namespace Recovery

/-- What a call on a record may answer and leave behind: either the decomposition is kept, whether
the call goes on or fails, or one more basis is adopted and counted. -/
inductive Effect (r : Recovery α) (system : Decomposer σ α S N) (call : RecoveryCall α) :
    Attempt (DecompError α) StepOutcome × Recovery α × Decomposer σ α S N → Prop
  | proceeded : Effect r system call
      (.ok .proceed, { r with monitor := r.observed system.generation call }, system)
  | failed (e : Failure (DecompError α)) (last : Option Nat) (solver : σ) : Effect r system call
      (.error e, ⟨r.observed system.generation call, last, r.count⟩,
        { system with solver := solver })
  | reselected (last : Option Nat) (solver : σ) {dec : Decomposition α S N}
      (generation_eq : dec.generation = system.generation + 1) : Effect r system call
      (.ok (.reselected (system.generation + 1)),
        ⟨(r.observed system.generation call).reset, last, r.count + 1⟩,
        { system with
          solver := solver
          current := some dec
          generation := system.generation + 1 })

/-- A selection on behalf of a call that has made its observation has one of the effects of the
call. -/
private theorem effect_reselect {r : Recovery α} {system : Decomposer σ α S N}
    {call : RecoveryCall α} (last : Option Nat) (gc : SparseMatrix α) (nu : Option (Array α)) :
    r.Effect system call (Recovery.reselect
      ⟨r.observed system.generation call, last, r.count⟩ system gc nu) := by
  have hselect : system.Outcome (.select nu gc) (system.selectBasis nu gc) :=
    system.perform_outcome (.select nu gc)
  rw [reselect]
  generalize system.selectBasis nu gc = answer at hselect ⊢
  cases hselect with
  | failed e solver => exact .failed e last solver
  | @published partition basis dec solver settled prepared =>
    have hgeneration : dec.generation = system.generation + 1 :=
      (Decomposer.prepare_eq_ok_iff.1 prepared).1.generation_eq
    dsimp only
    rw [hgeneration]
    exact .reselected last solver hgeneration

/-- The single inversion of all calls on a record. -/
theorem perform_effect (r : Recovery α) (system : Decomposer σ α S N) (call : RecoveryCall α) :
    r.Effect system call (r.perform system call) := by
  cases call with
  | check beta gc nu =>
    show r.Effect system _ (r.checkConditioning beta system gc nu)
    rw [checkConditioning]
    dsimp only
    split
    · exact .proceeded
    · exact effect_reselect r.lastLineSearch gc nu
  | lineSearchFailure iter gc nu =>
    show r.Effect system _ (r.lineSearchFailure iter system gc nu)
    rw [lineSearchFailure]
    split
    · exact .failed _ r.lastLineSearch system.solver
    · exact effect_reselect (some iter) gc nu
  | reselect gc nu => exact effect_reselect r.lastLineSearch gc nu

end Recovery

namespace Session

/-- Whether the event is a measure shown to the monitor. -/
def Event.isCheck : Event α → Bool
  | .recovery (.check ..) => true
  | _ => false

/-- Whether the event is a call on the record that is answered by a new basis. -/
def reselects (t : Session σ α S N) : Event α → Bool
  | .client _ => false
  | .recovery call =>
    match (t.recovery.perform t.system call).1 with
    | .ok (.reselected _) => true
    | _ => false

/-- Whether the event is a call of the client that adopts a new basis. -/
def adopts (t : Session σ α S N) : Event α → Bool
  | .client (.set partition gc) => (t.system.setBasis partition gc).1.isOk
  | .client (.select nu gc) => (t.system.selectBasis nu gc).1.isOk
  | .client (.update _) => false
  | .recovery _ => false

/-- The number of events in a history that have a property in the session as it then is. -/
def countWhere (p : Session σ α S N → Event α → Bool) (t : Session σ α S N) : List (Event α) → Nat
  | [] => 0
  | event :: history => (p t event).toNat + countWhere p (t.handle event) history

variable (t : Session σ α S N)

/-- The record counts an event exactly if the event is answered by a new basis. -/
theorem count_handle (event : Event α) :
    (t.handle event).recovery.count = t.recovery.count + (t.reselects event).toNat := by
  cases event with
  | client call => rfl
  | recovery call =>
    have heffect := t.recovery.perform_effect t.system call
    unfold handle reselects
    dsimp only
    generalize t.recovery.perform t.system call = answer at heffect ⊢
    cases heffect with
    | proceeded => rfl
    | failed e last solver => rfl
    | reselected last solver generation_eq => rfl

/-- The system adopts one basis for each success of a set or a selection by the client. -/
private theorem generation_perform (call : BasisCall α) :
    (t.system.perform call).2.generation =
      t.system.generation + (t.adopts (.client call)).toNat := by
  have houtcome := t.system.perform_outcome call
  have hadopts : (t.adopts (.client call)).toNat =
      if (t.system.perform call).1.isOk then call.newBases else 0 := by
    cases call with
    | set partition gc =>
      show (t.system.setBasis partition gc).1.isOk.toNat =
        if (t.system.setBasis partition gc).1.isOk then 1 else 0
      cases (t.system.setBasis partition gc).1.isOk <;> rfl
    | select nu gc =>
      show (t.system.selectBasis nu gc).1.isOk.toNat =
        if (t.system.selectBasis nu gc).1.isOk then 1 else 0
      cases (t.system.selectBasis nu gc).1.isOk <;> rfl
    | update gc => exact (ite_self 0).symm
  rw [hadopts]
  generalize t.system.perform call = answer at houtcome ⊢
  cases houtcome with
  | failed e solver => rfl
  | published solver settled prepared => rfl

/-- Every basis that the system adopts is adopted by the client or counted by the record. -/
theorem generation_handle (event : Event α) :
    (t.handle event).system.generation =
      t.system.generation + (t.reselects event).toNat + (t.adopts event).toNat := by
  cases event with
  | client call => exact t.generation_perform call
  | recovery call =>
    have heffect := t.recovery.perform_effect t.system call
    unfold handle reselects
    dsimp only
    generalize t.recovery.perform t.system call = answer at heffect ⊢
    cases heffect with
    | proceeded => rfl
    | failed e last solver => rfl
    | reselected last solver generation_eq => rfl

theorem count_after (history : List (Event α)) :
    (t.after history).recovery.count = t.recovery.count + t.countWhere reselects history := by
  induction history generalizing t with
  | nil => rfl
  | cons event history ih =>
    show ((t.handle event).after history).recovery.count = _
    rw [ih, count_handle, countWhere]
    omega

theorem generation_after (history : List (Event α)) :
    (t.after history).system.generation = t.system.generation +
      t.countWhere reselects history + t.countWhere adopts history := by
  induction history generalizing t with
  | nil => rfl
  | cons event history ih =>
    show ((t.handle event).after history).system.generation = _
    rw [ih, generation_handle, countWhere, countWhere]
    omega

section Fresh

variable {t}

/-- A monitor without history stays without history until a measure is shown to it. -/
theorem lastGeneration_handle_of_fresh (h : t.recovery.monitor.lastGeneration = none)
    {event : Event α} (hcheck : event.isCheck = false) :
    (t.handle event).recovery.monitor.lastGeneration = none := by
  rcases event with call | call
  · exact h
  · have hobserved : (t.recovery.observed t.system.generation call).lastGeneration = none := by
      cases call with
      | check beta gc nu => cases hcheck
      | lineSearchFailure iter gc nu => exact h
      | reselect gc nu => exact h
    have heffect := t.recovery.perform_effect t.system call
    unfold handle
    dsimp only
    generalize t.recovery.perform t.system call = answer at heffect ⊢
    cases heffect with
    | proceeded => exact hobserved
    | failed e last solver => exact hobserved
    | reselected last solver generation_eq => rfl

theorem lastGeneration_after_of_fresh (h : t.recovery.monitor.lastGeneration = none)
    {history : List (Event α)} (hchecks : ∀ event ∈ history, event.isCheck = false) :
    (t.after history).recovery.monitor.lastGeneration = none := by
  induction history generalizing t with
  | nil => exact h
  | cons event history ih =>
    obtain ⟨hcheck, hchecks⟩ := List.forall_mem_cons.1 hchecks
    exact ih (lastGeneration_handle_of_fresh h hcheck) hchecks

/-- The first finite measure that a monitor without history sees is accepted. -/
theorem check_of_fresh (h : t.recovery.monitor.lastGeneration = none) {beta : α}
    (hfinite : Scalar.isFinite beta = true) (gc : SparseMatrix α) (nu : Option (Array α)) :
    (t.recovery.checkConditioning beta t.system gc nu).1 = .ok .proceed := by
  have hnew : t.recovery.monitor.lastGeneration ≠ some t.system.generation := by
    rw [h]
    exact (Option.some_ne_none _).symm
  rw [Recovery.checkConditioning]
  rw [Monitor.observe_of_new hfinite hnew]

end Fresh

/-- What a call on the record does to the accounts of a session. -/
structure Accounts (call : RecoveryCall α) : Prop where
  /-- A new basis is reported with the generation under which it is published, one above the
  generation before the call. It leaves no baseline, so the next measure that the monitor sees is
  accepted if it is finite, whatever happens before it. -/
  reselected : ∀ g, (t.recovery.perform t.system call).1 = .ok (.reselected g) →
    g = t.system.generation + 1 ∧ (t.handle (.recovery call)).system.generation = g ∧
      (∃ dec, (t.handle (.recovery call)).system.current = some dec ∧ dec.generation = g) ∧
      (t.handle (.recovery call)).recovery.monitor.betaMin = Scalar.infinity ∧
      ∀ later : List (Event α), (∀ event ∈ later, event.isCheck = false) →
        ∀ beta gc nu, Scalar.isFinite beta = true →
          (((t.handle (.recovery call)).after later).recovery.checkConditioning beta
            ((t.handle (.recovery call)).after later).system gc nu).1 = .ok .proceed
  /-- Any other answer leaves the published decomposition and its generation as they were. -/
  kept : ((t.recovery.perform t.system call).1 = .ok .proceed ∨
      ∃ e, (t.recovery.perform t.system call).1 = .error e) →
    (t.handle (.recovery call)).system.current = t.system.current ∧
      (t.handle (.recovery call)).system.generation = t.system.generation
  /-- A failure is not counted, and the monitor has seen the measure of the call and no more. -/
  failed : ∀ e, (t.recovery.perform t.system call).1 = .error e →
    (t.handle (.recovery call)).recovery.count = t.recovery.count ∧
      (t.handle (.recovery call)).recovery.monitor =
        t.recovery.observed t.system.generation call

theorem accounts (call : RecoveryCall α) : t.Accounts call := by
  have heffect := t.recovery.perform_effect t.system call
  have hhandle : t.handle (.recovery call) = ⟨(t.recovery.perform t.system call).2.1,
      (t.recovery.perform t.system call).2.2⟩ := rfl
  constructor <;> rw [hhandle] <;>
    generalize t.recovery.perform t.system call = answer at heffect ⊢
  case reselected =>
    intro g hanswer
    cases heffect with
    | proceeded => cases hanswer
    | failed e last solver => cases hanswer
    | reselected last solver generation_eq =>
      cases hanswer
      refine ⟨rfl, rfl, ⟨_, rfl, generation_eq⟩, rfl, fun later hlater beta gc nu hfinite => ?_⟩
      exact check_of_fresh (lastGeneration_after_of_fresh rfl hlater) hfinite gc nu
  case kept =>
    intro hanswer
    cases heffect with
    | proceeded => exact ⟨rfl, rfl⟩
    | failed e last solver => exact ⟨rfl, rfl⟩
    | reselected last solver generation_eq => simp at hanswer
  case failed =>
    intro e hanswer
    cases heffect with
    | proceeded => cases hanswer
    | failed e' last solver => exact ⟨rfl, rfl⟩
    | reselected last solver generation_eq => cases hanswer

omit t in
/-- After any history of a record and a system, the record has counted the calls on it that were
answered by a new basis, and the generation has grown by this count and by the successful sets and
selections of the client. The next call on the record keeps to these accounts. The system, its
state at the start, its solver and the arithmetic are arbitrary. -/
theorem recovery_accounting (monitor : Monitor α) (system : Decomposer σ α S N)
    (history : List (Event α)) :
    let start : Session σ α S N := ⟨.new monitor, system⟩
    (start.after history).recovery.count = start.countWhere reselects history ∧
      (start.after history).system.generation = system.generation +
        (start.after history).recovery.count + start.countWhere adopts history ∧
      ∀ call, (start.after history).Accounts call := by
  intro start
  have hcount : (start.after history).recovery.count = start.countWhere reselects history :=
    (start.count_after history).trans (Nat.zero_add _)
  refine ⟨hcount, ?_, (start.after history).accounts⟩
  rw [hcount]
  exact start.generation_after history

/-- In the sample history three calls on the record and one of the client adopt a basis. The next
selection is reported as the fifth basis, and a large finite measure after it is accepted. -/
theorem recovery_accounting_sample :
    sample.countWhere reselects sampleHistory = 3 ∧
      sample.countWhere adopts sampleHistory = 1 ∧
      (sample.after sampleHistory).recovery.count = 3 ∧
      (sample.after sampleHistory).system.generation = 4 ∧
      ((sample.after sampleHistory).handle
        (.recovery (.lineSearchFailure 9 sampleGradients none))).system.generation = 5 ∧
      (((sample.after sampleHistory).handle
        (.recovery (.lineSearchFailure 9 sampleGradients none))).recovery.checkConditioning 9999
          ((sample.after sampleHistory).handle
            (.recovery (.lineSearchFailure 9 sampleGradients none))).system
          sampleGradients none).1 = .ok .proceed := by
  have hreselects : sample.countWhere reselects sampleHistory = 3 := by decide +kernel
  have hadopts : sample.countWhere adopts sampleHistory = 1 := by decide +kernel
  have hanswer : ((sample.after sampleHistory).recovery.perform
      (sample.after sampleHistory).system (.lineSearchFailure 9 sampleGradients none)).1 =
        .ok (.reselected 5) := by decide +kernel
  have hlaw := recovery_accounting sample.recovery.monitor sample.system sampleHistory
  have hcount : (sample.after sampleHistory).recovery.count = 3 := hlaw.1.trans hreselects
  have hgeneration : (sample.after sampleHistory).system.generation =
      0 + (sample.after sampleHistory).recovery.count +
        sample.countWhere adopts sampleHistory := hlaw.2.1
  have haccounts : ∀ call, (sample.after sampleHistory).Accounts call := hlaw.2.2
  rw [hcount, hadopts] at hgeneration
  obtain ⟨-, hnext, -, -, hcheck⟩ := (haccounts _).reselected 5 hanswer
  exact ⟨hreselects, hadopts, hcount, hgeneration, hnext,
    hcheck [] (by simp) 9999 sampleGradients none rfl⟩

end Session

end ReducedSpace
