import ReducedSpace.Proofs.Decomposer.Errors
import ReducedSpace.Proofs.Recovery.Session

/-!
# Escalation of failed line searches

A failed line search is accepted unless it is answered by the fatal error. Which failures of a
session are accepted can be read off their iterations alone: `admitted` says so without a session,
and the record of the last accepted failure follows it through every history. Selections, whether
they succeed or fail and whoever asks for them, have no part in it.
-/

namespace ReducedSpace

/-- Whether the error is the one that ends a recovery. -/
def DecompError.isExhausted {α : Type} : DecompError α → Bool
  | recoveryExhausted .. => true
  | _ => false

/-- Whether the operation failed with the error that ends a recovery. -/
def Failure.isExhausted {α : Type} : Failure (DecompError α) → Bool
  | fault _ => false
  | error e => e.isExhausted

section Selection

variable {σ α S N : Type}

/-- A failure, if there is one, does not end a recovery. -/
abbrev KeepsGoing {β : Type} (x : Attempt (DecompError α) β) : Prop :=
  RaisesOnly (fun e => e.isExhausted = false) x

private theorem isExhausted_ofSolver (e : SolverError α) :
    (DecompError.ofSolver e).isExhausted = false := by
  cases e <;> rfl

variable [Scalar α] [Factorization S N α] [DirectSolver σ α S N]

/-- Whatever stops a selection, it is not the end of a recovery. -/
theorem Decomposer.keepsGoing_selectBasis (s : Decomposer σ α S N) (nu : Option (Array α))
    (gc : SparseMatrix α) : KeepsGoing (s.selectBasis nu gc).1 := by
  rintro (fault | e) h
  · rfl
  have herror : s.CallError (.select nu gc) e := callError_of_perform h
  cases herror with
  | argument => rfl
  | partition => rfl
  | analysis failed => exact isExhausted_ofSolver _
  | noAttempt => rfl
  | preparation settled failed => cases failed <;> rfl

end Selection

namespace Recovery

variable {σ α S N : Type} [Scalar α] [Factorization S N α] [DirectSolver σ α S N]

/-- Whether an answer is the fatal error. -/
def isFatal (answer : Attempt (DecompError α) StepOutcome) : Bool :=
  match answer with
  | .ok _ => false
  | .error e => e.isExhausted

/-- Whether a failure comes too soon after the last one that was accepted. -/
def tooSoon (last : Option Nat) (iter : Nat) : Bool := last.any fun p => decide (iter ≤ p + 1)

/-- The failures that are accepted after a last accepted one: those that do not come too soon. -/
def admitted : Option Nat → List Nat → List Nat
  | _, [] => []
  | last, iter :: iters =>
    if tooSoon last iter then admitted last iters else iter :: admitted (some iter) iters

section Calls

variable (r : Recovery α) (system : Decomposer σ α S N)

theorem lastLineSearch_reselect (gc : SparseMatrix α) (nu : Option (Array α)) :
    (r.reselect system gc nu).2.1.lastLineSearch = r.lastLineSearch := by
  rw [reselect]
  split <;> rfl

theorem isFatal_reselect (gc : SparseMatrix α) (nu : Option (Array α)) :
    isFatal (r.reselect system gc nu).1 = false := by
  have hgoes := system.keepsGoing_selectBasis nu gc
  rw [reselect]
  split
  · rename_i e s hselect
    rw [hselect] at hgoes
    exact hgoes e rfl
  · rfl

/-- A check leaves the record of failures alone and is never answered by the fatal error. -/
theorem checkConditioning_spec (beta : α) (gc : SparseMatrix α) (nu : Option (Array α)) :
    (r.checkConditioning beta system gc nu).2.1.lastLineSearch = r.lastLineSearch ∧
      isFatal (r.checkConditioning beta system gc nu).1 = false := by
  rw [checkConditioning]
  dsimp only
  split
  · exact ⟨rfl, rfl⟩
  · exact ⟨lastLineSearch_reselect _ _ _ _, isFatal_reselect _ _ _ _⟩

/-- A failure that comes too soon is answered by the fatal error, and nothing changes. -/
theorem lineSearchFailure_of_tooSoon {iter p : Nat} (hlast : r.lastLineSearch = some p)
    (hle : iter ≤ p + 1) (gc : SparseMatrix α) (nu : Option (Array α)) :
    r.lineSearchFailure iter system gc nu =
      (Attempt.fail (.recoveryExhausted iter p r.monitor.betaMin), r, system) := by
  have hexhausted : r.exhaustedBy iter = some p := by
    rw [exhaustedBy]
    rw [hlast, Option.filter_some, if_pos (decide_eq_true hle)]
  rw [lineSearchFailure]
  rw [hexhausted]

/-- Any other failure is recorded before a new basis is selected. -/
theorem lineSearchFailure_of_not_tooSoon {iter : Nat} (h : tooSoon r.lastLineSearch iter = false)
    (gc : SparseMatrix α) (nu : Option (Array α)) :
    r.lineSearchFailure iter system gc nu =
      { r with lastLineSearch := some iter }.reselect system gc nu := by
  have hexhausted : r.exhaustedBy iter = none := by
    rw [exhaustedBy]
    unfold tooSoon at h
    cases hlast : r.lastLineSearch with
    | none => rfl
    | some p =>
      rw [hlast, Option.any_some] at h
      rw [Option.filter_some, h]
      rfl
  rw [lineSearchFailure]
  rw [hexhausted]

theorem isFatal_lineSearchFailure (iter : Nat) (gc : SparseMatrix α) (nu : Option (Array α)) :
    isFatal (r.lineSearchFailure iter system gc nu).1 = tooSoon r.lastLineSearch iter := by
  cases h : tooSoon r.lastLineSearch iter with
  | false =>
    rw [r.lineSearchFailure_of_not_tooSoon system h]
    exact isFatal_reselect _ _ _ _
  | true =>
    obtain ⟨p, hlast, hle⟩ := (Option.any_eq_true _ _).1 h
    rw [r.lineSearchFailure_of_tooSoon system hlast (of_decide_eq_true hle)]
    rfl

end Calls

end Recovery

namespace Session

/-- The iteration of a failed line search. -/
def Event.failure? {α : Type} : Event α → Option Nat
  | .recovery (.lineSearchFailure iter _ _) => some iter
  | _ => none

/-- The iterations of the failed line searches of a history, in order. -/
def failures {α : Type} (history : List (Event α)) : List Nat := history.filterMap Event.failure?

variable {σ α S N : Type} [Scalar α] [Factorization S N α] [DirectSolver σ α S N]

/-- The iteration of a failed line search that is not answered by the fatal error. -/
def accepts (t : Session σ α S N) : Event α → Option Nat
  | .recovery (.lineSearchFailure iter gc nu) =>
    if Recovery.isFatal (t.recovery.lineSearchFailure iter t.system gc nu).1 then none
    else some iter
  | _ => none

/-- The iterations of the failed line searches of a history that are not answered by the fatal
error, in order. -/
def accepted (t : Session σ α S N) : List (Event α) → List Nat
  | [] => []
  | event :: history => (t.accepts event).toList ++ (t.handle event).accepted history

section Admission

open Recovery

theorem spaced_admitted (last : Option Nat) (iters : List Nat) :
    (∀ p, last = some p → ∀ q ∈ admitted last iters, p + 2 ≤ q) ∧
      (admitted last iters).Pairwise fun p q => p + 2 ≤ q := by
  induction iters generalizing last with
  | nil => exact ⟨fun _ _ _ hq => absurd hq List.not_mem_nil, .nil⟩
  | cons iter iters ih =>
    rw [admitted]
    cases hsoon : tooSoon last iter with
    | true => exact ih last
    | false =>
      obtain ⟨hlater, hpairwise⟩ := ih (some iter)
      refine ⟨fun p hp q hq => ?_, .cons (hlater iter rfl) hpairwise⟩
      have hiter : p + 2 ≤ iter := by
        rw [hp, tooSoon, Option.any_some, decide_eq_false_iff_not] at hsoon
        omega
      rcases List.mem_cons.1 hq with rfl | hq
      · exact hiter
      · have := hlater iter rfl q hq
        omega

/-- In a list that grows the last member is the largest. -/
theorem le_getLast?_of_spaced {l : List Nat} (h : l.Pairwise fun p q => p + 2 ≤ q) {p q : Nat}
    (hp : l.getLast? = some p) (hq : q ∈ l) : q ≤ p := by
  obtain ⟨l, rfl⟩ := List.getLast?_eq_some_iff.1 hp
  rcases List.mem_append.1 hq with hq | hq
  · have := (List.pairwise_append.1 h).2.2 q hq p (List.mem_singleton_self p)
    omega
  · exact Nat.le_of_eq (List.mem_singleton.1 hq)

end Admission

section Runs

open Recovery

/-- Which failures are accepted depends on the record of the last accepted one. -/
theorem accepts_eq (t : Session σ α S N) (event : Event α) :
    t.accepts event =
      event.failure?.filter fun iter => !tooSoon t.recovery.lastLineSearch iter := by
  rcases event with call | (⟨beta, gc, nu⟩ | ⟨iter, gc, nu⟩ | ⟨gc, nu⟩)
  · rfl
  · rfl
  · show (if isFatal (t.recovery.lineSearchFailure iter t.system gc nu).1 then none
      else some iter) = (some iter).filter _
    rw [isFatal_lineSearchFailure, Option.filter_some]
    cases tooSoon t.recovery.lastLineSearch iter <;> rfl
  · rfl

/-- An event changes the record of the last accepted failure only by being one. -/
theorem lastLineSearch_handle (t : Session σ α S N) (event : Event α) :
    (t.handle event).recovery.lastLineSearch =
      (t.accepts event).or t.recovery.lastLineSearch := by
  rw [accepts_eq]
  rcases event with call | (⟨beta, gc, nu⟩ | ⟨iter, gc, nu⟩ | ⟨gc, nu⟩)
  · rfl
  · exact (t.recovery.checkConditioning_spec t.system beta gc nu).1
  · show (t.recovery.lineSearchFailure iter t.system gc nu).2.1.lastLineSearch =
      ((some iter).filter _).or _
    rw [Option.filter_some]
    cases hsoon : tooSoon t.recovery.lastLineSearch iter with
    | false =>
      rw [lineSearchFailure_of_not_tooSoon _ _ hsoon]
      exact lastLineSearch_reselect _ _ _ _
    | true =>
      obtain ⟨p, hlast, hle⟩ := (Option.any_eq_true _ _).1 hsoon
      rw [lineSearchFailure_of_tooSoon _ _ hlast (of_decide_eq_true hle)]
      rfl
  · exact t.recovery.lastLineSearch_reselect t.system gc nu

/-- The accepted failures of a history are those that its failures admit. -/
theorem accepted_eq (t : Session σ α S N) (history : List (Event α)) :
    t.accepted history = admitted t.recovery.lastLineSearch (failures history) := by
  induction history generalizing t with
  | nil => rfl
  | cons event history ih =>
    rw [accepted, ih, lastLineSearch_handle, accepts_eq]
    unfold failures
    rw [List.filterMap_cons]
    cases event.failure? with
    | none => rfl
    | some iter =>
      dsimp only
      rw [admitted, Option.filter_some]
      cases tooSoon t.recovery.lastLineSearch iter <;> rfl

/-- After a history the record names the last accepted failure. -/
theorem lastLineSearch_after (t : Session σ α S N) (history : List (Event α)) :
    (t.after history).recovery.lastLineSearch =
      (t.accepted history).getLast?.or t.recovery.lastLineSearch := by
  induction history generalizing t with
  | nil => rfl
  | cons event history ih =>
    show ((t.handle event).after history).recovery.lastLineSearch = _
    rw [ih, lastLineSearch_handle, accepted, List.getLast?_append, Option.or_assoc]
    cases t.accepts event <;> rfl

/-- The escalation law in a session after the given failures were accepted. -/
structure Escalates (t : Session σ α S N) (accepted : List Nat) : Prop where
  /-- The fatal error answers exactly the failures that come no later than one iteration after the
  last accepted one, and no other call. -/
  isFatal_iff : ∀ call, isFatal (t.recovery.perform t.system call).1 = true ↔
    ∃ iter gc nu p, call = .lineSearchFailure iter gc nu ∧ accepted.getLast? = some p ∧
      iter ≤ p + 1
  /-- The error names both iterations and the baseline, and nothing changes. -/
  fatal_eq : ∀ iter gc nu p, accepted.getLast? = some p → iter ≤ p + 1 →
    t.recovery.lineSearchFailure iter t.system gc nu =
      (Attempt.fail (.recoveryExhausted iter p t.recovery.monitor.betaMin), t.recovery, t.system)
  le_last : ∀ p, accepted.getLast? = some p → ∀ q ∈ accepted, q ≤ p
  spaced : accepted.Pairwise fun p q => p + 2 ≤ q

theorem escalates_of_last {t : Session σ α S N} {accepted : List Nat}
    (hlast : t.recovery.lastLineSearch = accepted.getLast?)
    (hspaced : accepted.Pairwise fun p q => p + 2 ≤ q) : t.Escalates accepted where
  isFatal_iff call := by
    rcases call with ⟨beta, gc, nu⟩ | ⟨iter, gc, nu⟩ | ⟨gc, nu⟩
    · have hgoes := (t.recovery.checkConditioning_spec t.system beta gc nu).2
      simp [perform, hgoes]
    · have hfatal := t.recovery.isFatal_lineSearchFailure t.system iter gc nu
      rw [perform, hfatal, tooSoon, hlast, Option.any_eq_true]
      constructor
      · rintro ⟨p, hp, hle⟩
        exact ⟨iter, gc, nu, p, rfl, hp, of_decide_eq_true hle⟩
      · rintro ⟨_, _, _, p, hcall, hp, hle⟩
        cases hcall
        exact ⟨p, hp, decide_eq_true hle⟩
    · have hgoes := t.recovery.isFatal_reselect t.system gc nu
      simp [perform, hgoes]
  fatal_eq iter gc nu p hp hle :=
    t.recovery.lineSearchFailure_of_tooSoon t.system (hlast.trans hp) hle gc nu
  le_last _ hp _ hq := le_getLast?_of_spaced hspaced hp hq
  spaced := hspaced

/-- In every session, after any history of calls on the record and on the system, a failed line
search is fatal exactly if it comes no later than one iteration after the last accepted one. The
accepted failures are the same for every history with the same failures, whatever else happens in
it, whatever the monitor and whatever the system and its solver. -/
theorem escalation_law (monitor : Monitor α) (system : Decomposer σ α S N)
    (history : List (Event α)) :
    let start : Session σ α S N := ⟨.new monitor, system⟩
    (start.after history).Escalates (start.accepted history) ∧
      ∀ (σ' S' N' : Type) [Factorization S' N' α] [DirectSolver σ' α S' N'] (monitor' : Monitor α)
        (system' : Decomposer σ' α S' N') (history' : List (Event α)),
        failures history' = failures history →
          (⟨.new monitor', system'⟩ : Session σ' α S' N').accepted history' =
            start.accepted history := by
  intro start
  refine ⟨escalates_of_last ?_ ?_, fun σ' S' N' _ _ monitor' system' history' hfailures => ?_⟩
  · rw [lastLineSearch_after]
    exact Option.or_none
  · rw [accepted_eq]
    exact (spaced_admitted _ _).2
  · rw [accepted_eq, accepted_eq, hfailures]
    rfl

end Runs

/-- Two failures are accepted, the second one although its selection fails, and after each of them a
failure on the next iteration is fatal. The monitor asks for a basis in between. -/
def sampleHistory : List (Event Rat) :=
  [.client (.select none sampleGradients), .recovery (.check 1 sampleGradients none),
    .recovery (.lineSearchFailure 5 sampleGradients none),
    .recovery (.check 1 sampleGradients none), .recovery (.check 2000 sampleGradients none),
    .recovery (.lineSearchFailure 6 sampleGradients none), .client (.update sampleGradients),
    .recovery (.lineSearchFailure 7 (.empty 0 0) none), .recovery (.reselect sampleGradients none),
    .recovery (.lineSearchFailure 3 sampleGradients none)]

/-- The law at the end of the sample history: the next failure is fatal, and the same failures would
have been accepted without all the other events. -/
theorem escalation_law_sample :
    sample.accepted sampleHistory = [5, 7] ∧ (sample.after sampleHistory).recovery.count = 3 ∧
      (sample.after sampleHistory).Escalates [5, 7] ∧
      (sample.after sampleHistory).recovery.lineSearchFailure 8
          (sample.after sampleHistory).system sampleGradients none =
        (Attempt.fail (.recoveryExhausted 8 7 Scalar.infinity),
          (sample.after sampleHistory).recovery, (sample.after sampleHistory).system) ∧
      sample.accepted (sampleHistory.filter fun event => event.failure?.isSome) = [5, 7] := by
  have haccepted : sample.accepted sampleHistory = [5, 7] := by decide +kernel
  have hlaw := escalation_law sample.recovery.monitor sample.system sampleHistory
  have hescalates : (sample.after sampleHistory).Escalates (sample.accepted sampleHistory) := hlaw.1
  have hsame : sample.accepted (sampleHistory.filter fun event => event.failure?.isSome) =
      sample.accepted sampleHistory :=
    hlaw.2 _ _ _ sample.recovery.monitor sample.system _ (by decide +kernel)
  have hbaseline : (sample.after sampleHistory).recovery.monitor.betaMin = Scalar.infinity := by
    decide +kernel
  rw [haccepted] at hescalates hsame
  have hfatal := hescalates.fatal_eq 8 sampleGradients none 7 rfl (by decide)
  rw [hbaseline] at hfatal
  exact ⟨haccepted, by decide +kernel, hescalates, hfatal, hsame⟩

end Session

end ReducedSpace
