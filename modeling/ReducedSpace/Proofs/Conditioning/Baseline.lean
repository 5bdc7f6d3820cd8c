import ReducedSpace.Proofs.Machine.Order
import ReducedSpace.Conditioning

/-!
# The baseline of the conditioning monitor

An epoch of a monitor is what it has observed since the last reset or the last change of the
generation. The baseline is meant to be the smallest measure of the epoch, where the measure that
opens the epoch counts with a small surplus and later zeros do not count. This holds of every epoch
that opens with a finite measure. A measure that is not finite changes no baseline, and yet its
generation is remembered, so an epoch that opens with one goes on with the baseline of the epoch
before it.
-/

namespace ReducedSpace

/-- The measure is in the list, and no measure of the list is smaller. -/
def IsMinimum {α : Type} [Scalar α] (x : α) (l : List α) : Prop :=
  x ∈ l ∧ ∀ y ∈ l, Scalar.lt y x = false

section Minimum

variable {α : Type} [Scalar α] [OrderedScalar α] {x y : α} {l : List α}

/-- A single measure is the minimum of itself. -/
theorem IsMinimum.singleton (x : α) : IsMinimum x [x] :=
  ⟨List.mem_singleton_self x, fun y hy => by
    rw [List.mem_singleton.1 hy]
    exact OrderedScalar.lt_irrefl x⟩

omit [OrderedScalar α] in
/-- A value that is not smaller leaves the minimum. -/
theorem IsMinimum.append (h : IsMinimum x l) (hy : Scalar.lt y x = false) :
    IsMinimum x (l ++ [y]) := by
  refine ⟨List.mem_append_left _ h.1, fun z hz => ?_⟩
  rcases List.mem_append.1 hz with hz | hz
  · exact h.2 z hz
  · rw [List.mem_singleton.1 hz]
    exact hy

/-- A smaller value is the new minimum. -/
theorem IsMinimum.append_of_lt (h : IsMinimum x l) (hy : Scalar.lt y x = true) :
    IsMinimum y (l ++ [y]) := by
  refine ⟨List.mem_append_right _ (List.mem_singleton_self y), fun z hz => ?_⟩
  rcases List.mem_append.1 hz with hz | hz
  · rw [Bool.eq_false_iff]
    intro hlt
    have hzx := OrderedScalar.lt_trans hlt hy
    rw [h.2 z hz] at hzx
    cases hzx
  · rw [List.mem_singleton.1 hz]
    exact OrderedScalar.lt_irrefl y

end Minimum

namespace Monitor

variable {α : Type}

/-- What can happen to a monitor. -/
inductive Event (α : Type) where
  | observe (beta : α) (generation : Nat)
  | reset

/-- The observations of an epoch: their common generation and their measures in order. -/
structure Epoch (α : Type) where
  generation : Option Nat
  measures : List α
  deriving DecidableEq

/-- The epoch before anything is observed. -/
def Epoch.start : Epoch α := ⟨none, []⟩

/-- The epoch after one more event. -/
def Epoch.next (epoch : Epoch α) : Event α → Epoch α
  | .observe beta generation =>
    if epoch.generation = some generation then ⟨some generation, epoch.measures ++ [beta]⟩
    else ⟨some generation, [beta]⟩
  | .reset => .start

/-- The epoch that a history ends in. -/
def epoch (history : List (Event α)) : Epoch α := history.foldl Epoch.next .start

variable [Scalar α]

/-- The monitor after an event. -/
def handle (mon : Monitor α) : Event α → Monitor α
  | .observe beta generation => (mon.observe beta generation).2
  | .reset => mon.reset

/-- The monitor after a history. -/
def after (mon : Monitor α) (history : List (Event α)) : Monitor α := history.foldl handle mon

/-- The values that the baseline is the smallest of: the first finite measure with its surplus, and
the finite measures after it that are not zero. -/
def Epoch.candidates (epoch : Epoch α) : List α :=
  match epoch.measures.filter Scalar.isFinite with
  | [] => []
  | first :: later => (first + Scalar.epsilon) :: later.filter fun beta => !Scalar.isZero beta

/-- The baseline is the one that the epoch should have. -/
def Epoch.HasBaseline (epoch : Epoch α) (betaMin : α) : Prop :=
  if epoch.candidates = [] then betaMin = Scalar.infinity else IsMinimum betaMin epoch.candidates

/-- The first measure of the epoch, if there is one, is finite. -/
def Epoch.OpensFinite (epoch : Epoch α) : Prop := epoch.measures.head?.all Scalar.isFinite = true

instance (epoch : Epoch α) : Decidable epoch.OpensFinite := inferInstanceAs (Decidable (_ = true))

section Observations

variable {mon : Monitor α} {beta : α} {generation : Nat}

/-- A measure that is not finite triggers and changes no baseline, whatever its generation. -/
theorem observe_of_not_finite (h : Scalar.isFinite beta = false) :
    mon.observe beta generation = (.illConditioned (.absoluteExceeded beta mon.maxCond),
      { mon with lastGeneration := some generation }) := by
  rw [observe, update, h]
  rfl

/-- A finite measure of another generation is accepted as the new baseline. -/
theorem observe_of_new (h : Scalar.isFinite beta = true)
    (hnew : mon.lastGeneration ≠ some generation) :
    mon.observe beta generation = (.accept,
      { mon with betaMin := beta + Scalar.epsilon, lastGeneration := some generation }) := by
  rw [observe, update, h, decide_eq_true hnew]
  rfl

/-- What a finite measure of the same generation makes of the baseline. -/
theorem betaMin_observe_of_same (h : Scalar.isFinite beta = true)
    (hsame : mon.lastGeneration = some generation) :
    (mon.observe beta generation).2.betaMin =
      if Scalar.isZero beta then mon.betaMin
      else if Scalar.lt beta mon.betaMin then beta else mon.betaMin := by
  have hold : ¬mon.lastGeneration ≠ some generation := fun hne => hne hsame
  unfold observe update
  rw [h, decide_eq_false hold]
  dsimp only
  split
  · contradiction
  split
  · contradiction
  split
  · rfl
  split
  · rfl
  · split <;> rfl

/-- A monitor remembers the last generation that it saw. -/
theorem lastGeneration_observe : (mon.observe beta generation).2.lastGeneration =
    some generation := by
  unfold observe update
  dsimp only
  repeat' split
  all_goals rfl

/-- A measure is only ever compared with the baseline when its generation is the one of the
observation before it. -/
theorem of_observe_degraded {b betaMin ratio : α}
    (h : (mon.observe beta generation).1 = .illConditioned (.degraded b betaMin ratio)) :
    b = beta ∧ betaMin = mon.betaMin ∧ mon.lastGeneration = some generation := by
  by_cases hfinite : Scalar.isFinite beta = true
  · by_cases hsame : mon.lastGeneration = some generation
    · have hold : ¬mon.lastGeneration ≠ some generation := fun hne => hne hsame
      unfold observe update judgeAbsolute at h
      rw [hfinite, decide_eq_false hold] at h
      dsimp only at h
      repeat' split at h
      all_goals first | contradiction | cases h
      exact ⟨rfl, rfl, hsame⟩
    · rw [observe_of_new hfinite hsame] at h
      cases h
  · rw [observe_of_not_finite (Bool.eq_false_iff.2 hfinite)] at h
    cases h

end Observations

section Epochs

/-- A further measure of an epoch that opens with a finite one is a further candidate, unless it is
not finite or zero. -/
theorem Epoch.candidates_append {epoch : Epoch α} (hopen : epoch.OpensFinite)
    (hne : epoch.measures ≠ []) (generation : Option Nat) (beta : α) :
    Epoch.candidates ⟨generation, epoch.measures ++ [beta]⟩ = epoch.candidates ++
      if Scalar.isFinite beta && !Scalar.isZero beta then [beta] else [] := by
  obtain ⟨g, measures⟩ := epoch
  cases measures with
  | nil => contradiction
  | cons first rest =>
    have hfirst : Scalar.isFinite first = true := hopen
    unfold candidates
    simp only [List.cons_append, List.filter_cons_of_pos hfirst, List.filter_append]
    cases hfinite : Scalar.isFinite beta <;> cases hzero : Scalar.isZero beta <;>
      simp [hfinite, hzero]

theorem Epoch.candidates_ne_nil {epoch : Epoch α} (hopen : epoch.OpensFinite)
    (hne : epoch.measures ≠ []) : epoch.candidates ≠ [] := by
  obtain ⟨g, measures⟩ := epoch
  cases measures with
  | nil => contradiction
  | cons first rest =>
    have hfirst : Scalar.isFinite first = true := hopen
    unfold candidates
    rw [List.filter_cons_of_pos hfirst]
    exact List.cons_ne_nil _ _

/-- What a monitor remembers of an epoch. -/
structure Tracks (mon : Monitor α) (epoch : Epoch α) : Prop where
  generation_eq : mon.lastGeneration = epoch.generation
  measures_eq_nil : epoch.measures = [] ↔ epoch.generation = none
  baseline : epoch.OpensFinite → epoch.HasBaseline mon.betaMin

theorem Tracks.measures_ne_nil {mon : Monitor α} {epoch : Epoch α} (h : mon.Tracks epoch)
    {generation : Nat} (hsame : epoch.generation = some generation) : epoch.measures ≠ [] := by
  rw [Ne, h.measures_eq_nil, hsame]
  exact Option.some_ne_none generation

/-- A further measure does not change how the epoch opens. -/
theorem Tracks.opensFinite_of_next {mon : Monitor α} {epoch : Epoch α} (h : mon.Tracks epoch)
    {generation : Nat} (hsame : epoch.generation = some generation) {beta : α}
    (hopen : (epoch.next (.observe beta generation)).OpensFinite) : epoch.OpensFinite := by
  have hnext : epoch.next (.observe beta generation) =
      ⟨some generation, epoch.measures ++ [beta]⟩ := if_pos hsame
  rw [hnext, Epoch.OpensFinite, List.head?_append_of_ne_nil _ (h.measures_ne_nil hsame)] at hopen
  exact hopen

/-- The first finite measure of an epoch that opens finite opens it, so the monitor accepts it. -/
theorem Tracks.observe_of_first {mon : Monitor α} {epoch : Epoch α} (h : mon.Tracks epoch)
    {beta : α} {generation : Nat} (hopen : (epoch.next (.observe beta generation)).OpensFinite)
    (hfirst : (epoch.next (.observe beta generation)).measures.filter Scalar.isFinite = [beta]) :
    (mon.observe beta generation).1 = .accept := by
  have hfinite : Scalar.isFinite beta = true :=
    (List.mem_filter.1 (hfirst ▸ List.mem_singleton_self beta)).2
  have hnew : epoch.generation ≠ some generation := by
    intro hsame
    have hnext : epoch.next (.observe beta generation) =
        ⟨some generation, epoch.measures ++ [beta]⟩ := if_pos hsame
    rw [hnext, List.filter_append, List.filter_cons_of_pos hfinite, List.filter_nil,
      List.append_eq_singleton_iff] at hfirst
    have hcandidates := Epoch.candidates_ne_nil (h.opensFinite_of_next hsame hopen)
      (h.measures_ne_nil hsame)
    rcases hfirst with ⟨hnil, -⟩ | ⟨-, hnil⟩
    · rw [Epoch.candidates, hnil] at hcandidates
      exact hcandidates rfl
    · cases hnil
  rw [observe_of_new hfinite (h.generation_eq ▸ hnew)]

/-- Degradation is found against the smallest candidate of the same epoch. -/
theorem Tracks.of_degraded {mon : Monitor α} {epoch : Epoch α} (h : mon.Tracks epoch)
    {beta b betaMin ratio : α} {generation : Nat}
    (hopen : (epoch.next (.observe beta generation)).OpensFinite)
    (hverdict : (mon.observe beta generation).1 = .illConditioned (.degraded b betaMin ratio)) :
    b = beta ∧ epoch.generation = some generation ∧ IsMinimum betaMin epoch.candidates := by
  obtain ⟨rfl, rfl, hgeneration⟩ := of_observe_degraded hverdict
  have hsame : epoch.generation = some generation := h.generation_eq.symm.trans hgeneration
  have hopen := h.opensFinite_of_next hsame hopen
  have hbaseline := h.baseline hopen
  rw [Epoch.HasBaseline, if_neg (Epoch.candidates_ne_nil hopen (h.measures_ne_nil hsame))]
    at hbaseline
  exact ⟨rfl, hsame, hbaseline⟩

variable [OrderedScalar α]

/-- A further measure of the same generation keeps the baseline the smallest value, the measure
included unless it is not finite or zero. -/
theorem isMinimum_observe {mon : Monitor α} {l : List α} (h : IsMinimum mon.betaMin l)
    {generation : Nat} (hsame : mon.lastGeneration = some generation) (beta : α) :
    IsMinimum (mon.observe beta generation).2.betaMin
      (l ++ if Scalar.isFinite beta && !Scalar.isZero beta then [beta] else []) := by
  cases hfinite : Scalar.isFinite beta with
  | false =>
    rw [observe_of_not_finite hfinite, Bool.false_and, if_neg Bool.false_ne_true, List.append_nil]
    exact h
  | true =>
    rw [betaMin_observe_of_same hfinite hsame, Bool.true_and]
    cases hzero : Scalar.isZero beta with
    | true => simpa using h
    | false =>
      cases hlt : Scalar.lt beta mon.betaMin with
      | true => simpa using h.append_of_lt hlt
      | false => simpa using h.append hlt

/-- The same of several measures. -/
theorem isMinimum_after {mon : Monitor α} {l : List α} (h : IsMinimum mon.betaMin l)
    {generation : Nat} (hsame : mon.lastGeneration = some generation) (measures : List α) :
    IsMinimum (mon.after (measures.map fun beta => .observe beta generation)).betaMin
      (l ++ measures.filter fun beta => Scalar.isFinite beta && !Scalar.isZero beta) := by
  induction measures generalizing mon l with
  | nil =>
    rw [List.filter_nil, List.append_nil]
    exact h
  | cons beta measures ih =>
    have hstep := ih (isMinimum_observe h hsame beta) lastGeneration_observe
    rw [List.append_assoc] at hstep
    rw [List.filter_cons]
    cases hcounts : Scalar.isFinite beta && !Scalar.isZero beta <;> rw [hcounts] at hstep <;>
      exact hstep

/-- A further measure of the same generation leaves the baseline of the longer epoch. -/
theorem Epoch.HasBaseline.append {mon : Monitor α} {epoch : Epoch α} {generation : Nat}
    (h : epoch.HasBaseline mon.betaMin) (hopen : epoch.OpensFinite) (hne : epoch.measures ≠ [])
    (hsame : mon.lastGeneration = some generation) (beta : α) :
    Epoch.HasBaseline ⟨some generation, epoch.measures ++ [beta]⟩
      (mon.observe beta generation).2.betaMin := by
  have hcandidates := epoch.candidates_ne_nil hopen hne
  rw [HasBaseline, if_neg hcandidates] at h
  rw [HasBaseline, candidates_append hopen hne,
    if_neg fun hnil => hcandidates (List.append_eq_nil_iff.1 hnil).1]
  exact isMinimum_observe h hsame beta

/-- Every event leaves the monitor with the baseline of the epoch as it then is. -/
theorem Tracks.handle {mon : Monitor α} {epoch : Epoch α} (h : mon.Tracks epoch)
    (event : Event α) : (mon.handle event).Tracks (epoch.next event) := by
  cases event with
  | reset => exact ⟨rfl, ⟨fun _ => rfl, fun _ => rfl⟩, fun _ => rfl⟩
  | observe beta generation =>
    by_cases hsame : epoch.generation = some generation
    · have hnext : epoch.next (.observe beta generation) =
          ⟨some generation, epoch.measures ++ [beta]⟩ := if_pos hsame
      refine ⟨lastGeneration_observe.trans (by rw [hnext]), by simp [hnext], fun hopen => ?_⟩
      have hopen := h.opensFinite_of_next hsame hopen
      rw [hnext]
      exact (h.baseline hopen).append hopen (h.measures_ne_nil hsame)
        (h.generation_eq.trans hsame) beta
    · have hnext : epoch.next (.observe beta generation) = ⟨some generation, [beta]⟩ :=
        if_neg hsame
      rw [hnext]
      refine ⟨lastGeneration_observe, by simp, fun hopen => ?_⟩
      have hfinite : Scalar.isFinite beta = true := hopen
      have hcandidates : Epoch.candidates ⟨some generation, [beta]⟩ =
          [beta + Scalar.epsilon] := by
        simp [Epoch.candidates, hfinite]
      unfold Epoch.HasBaseline
      rw [hcandidates, if_neg (List.cons_ne_nil _ _)]
      rw [Monitor.handle, observe_of_new hfinite (h.generation_eq ▸ hsame)]
      exact IsMinimum.singleton _

/-- By induction a monitor tracks the epoch of its whole history. -/
theorem tracks_after (maxCondChangeFrac maxCond : α) (history : List (Event α)) :
    ((new maxCondChangeFrac maxCond).after history).Tracks (epoch history) := by
  have hrun : ∀ (history : List (Event α)) (mon : Monitor α) (ep : Epoch α), mon.Tracks ep →
      (mon.after history).Tracks (history.foldl Epoch.next ep) := by
    intro history
    induction history with
    | nil => exact fun mon ep h => h
    | cons event history ih => exact fun mon ep h => ih _ _ (h.handle event)
  exact hrun history _ _ ⟨rfl, ⟨fun _ => rfl, fun _ => rfl⟩, fun _ => rfl⟩

end Epochs

section Law

/-- A history may be split. -/
theorem after_append (mon : Monitor α) (first later : List (Event α)) :
    mon.after (first ++ later) = (mon.after first).after later := List.foldl_append

variable [OrderedScalar α]

/-- A measure that is not finite opens no baseline: the later ones of its generation are added to
what the baseline was the smallest of. -/
theorem isMinimum_after_of_not_finite (mon : Monitor α) {first : α}
    (hfirst : Scalar.isFinite first = false) (generation : Nat) (later : List α) :
    IsMinimum
      (mon.after ((first :: later).map fun beta => .observe beta generation)).betaMin
      (mon.betaMin :: later.filter fun beta => Scalar.isFinite beta && !Scalar.isZero beta) := by
  have hkept : (mon.observe first generation).2.betaMin = mon.betaMin := by
    rw [observe_of_not_finite hfirst]
  have hminimum : IsMinimum (mon.observe first generation).2.betaMin [mon.betaMin] :=
    hkept ▸ IsMinimum.singleton mon.betaMin
  exact isMinimum_after hminimum lastGeneration_observe later

/-- The baseline law of the epochs that open with a finite measure. After any history the baseline
is the smallest candidate of the epoch, and infinity before the first one; the first finite measure
is accepted; and degradation is only ever found against the smallest candidate of the same epoch.
An epoch that opens with a measure that is not finite goes on with the baseline of the epoch before
it. -/
theorem baseline_of_epoch (maxCondChangeFrac maxCond : α) (history : List (Event α)) (beta : α)
    (generation : Nat) :
    let mon := (new maxCondChangeFrac maxCond).after history
    let next := (epoch history).next (.observe beta generation)
    ((epoch history).OpensFinite → (epoch history).HasBaseline mon.betaMin) ∧
      (next.OpensFinite → next.measures.filter Scalar.isFinite = [beta] →
        (mon.observe beta generation).1 = .accept) ∧
      (next.OpensFinite → ∀ b betaMin ratio,
        (mon.observe beta generation).1 = .illConditioned (.degraded b betaMin ratio) →
          b = beta ∧ (epoch history).generation = some generation ∧
            IsMinimum betaMin (epoch history).candidates) ∧
      (Scalar.isFinite beta = false → ∀ later : List α,
        IsMinimum ((new maxCondChangeFrac maxCond).after
            (history ++ (beta :: later).map fun b => .observe b generation)).betaMin
          (mon.betaMin :: later.filter fun b => Scalar.isFinite b && !Scalar.isZero b)) := by
  intro mon next
  have h : mon.Tracks (epoch history) := tracks_after maxCondChangeFrac maxCond history
  refine ⟨h.baseline, h.observe_of_first, fun hopen b betaMin ratio => h.of_degraded hopen,
    fun hbeta later => ?_⟩
  rw [after_append]
  exact isMinimum_after_of_not_finite mon hbeta generation later

/-- A history with a change of generation, a reset, a zero, measures that are not finite and two new
minima. -/
def sampleHistory : List (Event Float) :=
  [.observe 4 1, .observe Scalar.nan 1, .observe 0 1, .observe 2 1, .reset, .observe 3 7,
    .observe 5 7, .observe 2 7, .observe Scalar.infinity 7]

/-- The last epoch opens with a finite measure, so the law holds at the end of the history. -/
theorem baseline_of_epoch_sample :
    (epoch sampleHistory).OpensFinite ∧
      (epoch sampleHistory).candidates = [3 + Scalar.epsilon, 5, 2] ∧
      (epoch sampleHistory).HasBaseline ((new 10 1000).after sampleHistory).betaMin ∧
      (((new 10 1000).after sampleHistory).observe 9 8).1 = .accept ∧
      (((new 10 1000).after sampleHistory).observe 30 7).1 =
        .illConditioned (.degraded 30 2 15) ∧
      IsMinimum 2 (epoch sampleHistory).candidates ∧
      IsMinimum ((new 10 1000).after (sampleHistory ++
        [Scalar.nan, 7, 0].map fun beta => .observe beta 8)).betaMin [2, 7] := by
  have hopen : (epoch sampleHistory).OpensFinite := by decide +kernel
  have hverdict : (((new 10 1000).after sampleHistory).observe 30 7).1 =
      .illConditioned (.degraded 30 2 15) := by decide +kernel
  have hbaseline : ((new 10 1000).after sampleHistory).betaMin = 2 := by decide +kernel
  have hlater : ([7, 0] : List Float).filter
      (fun beta => Scalar.isFinite beta && !Scalar.isZero beta) = [7] := by decide +kernel
  obtain ⟨hlaw, -, hdegraded, -⟩ := baseline_of_epoch 10 1000 sampleHistory 30 7
  obtain ⟨-, hfirst, -, -⟩ := baseline_of_epoch 10 1000 sampleHistory 9 8
  obtain ⟨-, -, -, hkept⟩ := baseline_of_epoch 10 1000 sampleHistory Scalar.nan 8
  have hminimum := hkept (by decide +kernel) [7, 0]
  rw [hbaseline, hlater] at hminimum
  refine ⟨hopen, by decide +kernel, hlaw hopen, hfirst (by decide +kernel) (by decide +kernel),
    hverdict, (hdegraded (by decide +kernel) _ _ _ hverdict).2.2, hminimum⟩

/-- Without the condition the law fails. Here the second generation opens with a NaN: the epoch has
no candidate and yet a baseline, and its first finite measure is found degraded against the measure
of the first generation. -/
theorem baseline_outlives_epoch :
    ¬(∀ history : List (Event Float),
        (epoch history).HasBaseline ((new 10 1000).after history).betaMin) ∧
      ¬(∀ (history : List (Event Float)) (beta : Float) (generation : Nat),
        ((epoch history).next (.observe beta generation)).measures.filter Scalar.isFinite =
          [beta] → (((new 10 1000).after history).observe beta generation).1 = .accept) ∧
      (((new (10 : Float) 1000).after [.observe 1 1, .observe Scalar.nan 2]).observe 50 2).1 =
        .illConditioned (.degraded 50 (1 + Scalar.epsilon) (50 / (1 + Scalar.epsilon))) := by
  refine ⟨fun h => ?_, fun h => ?_, by decide +kernel⟩
  · have hbaseline := h [.observe 1 1, .observe Scalar.nan 2]
    have hcandidates : (epoch [.observe 1 1, .observe (Scalar.nan : Float) 2]).candidates = [] := by
      decide +kernel
    rw [Epoch.HasBaseline, if_pos hcandidates] at hbaseline
    revert hbaseline
    decide +kernel
  · have haccept := h [.observe 1 1, .observe Scalar.nan 2] 50 2 (by decide +kernel)
    revert haccept
    decide +kernel

end Law

end Monitor

end ReducedSpace
