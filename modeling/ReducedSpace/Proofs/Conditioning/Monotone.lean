import ReducedSpace.Proofs.Conditioning.Baseline
import ReducedSpace.Proofs.Exact.Extended

/-!
# The conditioning monitor is monotone

Exact measures that are not negative, among them some that are not finite, keep the baseline of a
monitor positive, so every ratio is defined. A larger measure then triggers if a smaller one does,
and of two monitors with the same bounds the one with the smaller baseline is the stricter one: it
keeps the smaller baseline whatever both observe, and it triggers whenever the other one does. One
of them may take a measure as a new minimum that the other one compares with its baseline. The
absolute test that closes both branches is what carries the comparison over.
-/

namespace ReducedSpace.Monitor

section Triggers

variable {α : Type} [Scalar α] {mon : Monitor α} {beta : α} {generation : Nat}

/-- A measure passes the absolute bound, or it is no new minimum and its ratio to the baseline
passes the relative bound. -/
def Exceeds (mon : Monitor α) (beta : α) : Prop :=
  Scalar.lt mon.maxCond beta = true ∨ Scalar.lt beta mon.betaMin = false ∧
    Scalar.lt mon.maxCondChangeFrac (beta / mon.betaMin) = true

/-- The absolute bound triggers exactly above it. -/
theorem isTrigger_judgeAbsolute :
    (mon.judgeAbsolute beta).isTrigger = true ↔ Scalar.lt mon.maxCond beta = true := by
  unfold judgeAbsolute
  split
  · rename_i h
    exact ⟨fun _ => h, fun _ => rfl⟩
  · rename_i h
    exact ⟨fun h' => (Bool.false_ne_true h').elim, fun h' => absurd h' h⟩

/-- A finite measure triggers if it is compared, is not zero and exceeds a bound. -/
theorem isTrigger_update (h : Scalar.isFinite beta = true) (basisChanged : Bool) :
    (mon.update beta basisChanged).1.isTrigger = true ↔
      basisChanged = false ∧ Scalar.isZero beta = false ∧ mon.Exceeds beta := by
  unfold update Exceeds
  rw [h]
  cases basisChanged with
  | true => simp [Verdict.isTrigger]
  | false =>
    cases hzero : Scalar.isZero beta with
    | true => simp [Verdict.isTrigger]
    | false =>
      cases hmin : Scalar.lt beta mon.betaMin with
      | true => simp [isTrigger_judgeAbsolute]
      | false =>
        cases hratio : Scalar.lt mon.maxCondChangeFrac (beta / mon.betaMin) with
        | true => simp [hratio, Verdict.isTrigger]
        | false => simp [hratio, isTrigger_judgeAbsolute]

/-- A measure that is not finite triggers. -/
theorem isTrigger_update_of_not_finite (h : Scalar.isFinite beta = false) (basisChanged : Bool) :
    (mon.update beta basisChanged).1.isTrigger = true := by
  rw [update, h]
  rfl

end Triggers

variable {K : Type} [ExactScalar K]

/-- What a monitor may be shown: a measure that is not finite or not negative. -/
def IsMeasure (beta : Extended K) : Prop :=
  Scalar.isFinite beta = false ∨ Scalar.le 0 beta = true

/-- An event whose measure, if it has one, may be shown. -/
def Event.Admissible : Event (Extended K) → Prop
  | .observe beta _ => IsMeasure beta
  | .reset => True

/-- A monitor that has come about by resets and admissible measures, with either way of being shown
one. -/
inductive Reachable : Monitor (Extended K) → Prop
  | new (maxCondChangeFrac maxCond : Extended K) : Reachable (new maxCondChangeFrac maxCond)
  | observe {mon : Monitor (Extended K)} {beta : Extended K} (reachable : Reachable mon)
      (measure : IsMeasure beta) (generation : Nat) : Reachable (mon.observe beta generation).2
  | update {mon : Monitor (Extended K)} {beta : Extended K} (reachable : Reachable mon)
      (measure : IsMeasure beta) (basisChanged : Bool) : Reachable (mon.update beta basisChanged).2
  | reset {mon : Monitor (Extended K)} (reachable : Reachable mon) : Reachable mon.reset

section Baseline

variable {mon mon' : Monitor (Extended K)} {beta : Extended K}

/-- A measure that is not finite leaves the minimum as it is. -/
theorem betaMin_update_of_not_finite (h : Scalar.isFinite beta = false) (basisChanged : Bool) :
    (mon.update beta basisChanged).2.betaMin = mon.betaMin := by
  rw [update, h]
  rfl

/-- What a finite measure makes of the baseline. -/
theorem betaMin_update_finite (b : K) (basisChanged : Bool) :
    (mon.update (.finite b) basisChanged).2.betaMin =
      if basisChanged = true then .finite (b + 1 / Nat.cast (2 ^ 52))
      else if b ≠ 0 ∧ Scalar.lt (.finite b) mon.betaMin = true then .finite b
      else mon.betaMin := by
  unfold update
  have hfinite : Scalar.isFinite (Extended.finite b) = true := rfl
  rw [hfinite]
  cases basisChanged with
  | true => rfl
  | false =>
    by_cases hzero : b = 0
    · simp [hzero]
    · have hzero' : Scalar.isZero (Extended.finite b) = false := decide_eq_false hzero
      rw [hzero']
      cases hmin : Scalar.lt (.finite b) mon.betaMin with
      | true => simp [hzero]
      | false =>
        simp only [Bool.not_true, Bool.false_eq_true, if_false, and_false]
        split
        · rfl
        · rfl

/-- A measure is a number that is not negative, or not finite. -/
theorem measure_cases (h : IsMeasure beta) :
    Scalar.isFinite beta = false ∨ ∃ b, 0 ≤ b ∧ beta = .finite b := by
  rcases h with h | h
  · exact .inl h
  · by_cases hfinite : Scalar.isFinite beta = true
    · obtain ⟨b, rfl⟩ := Extended.isFinite_iff.1 hfinite
      exact .inr ⟨b, Extended.le_finite.1 h, rfl⟩
    · exact .inl (by simpa using hfinite)

/-- A measure leaves a positive baseline positive. -/
theorem pos_update (h : Scalar.lt 0 mon.betaMin = true) (hbeta : IsMeasure beta)
    (basisChanged : Bool) : Scalar.lt 0 (mon.update beta basisChanged).2.betaMin = true := by
  rcases measure_cases hbeta with hfinite | ⟨b, hb, rfl⟩
  · rw [betaMin_update_of_not_finite hfinite]
    exact h
  · rw [betaMin_update_finite]
    split
    · exact Extended.lt_finite.2 (by positivity)
    · split
      · rename_i hmin
        exact Extended.lt_finite.2 (lt_of_le_of_ne hb hmin.1.symm)
      · exact h

/-- The minimum of a reachable monitor is positive. -/
theorem Reachable.pos (h : mon.Reachable) : Scalar.lt 0 mon.betaMin = true := by
  induction h with
  | new => rfl
  | @observe mon _ _ hbeta generation ih =>
    exact @pos_update K _ { mon with lastGeneration := some generation } _ ih hbeta _
  | update _ hbeta _ ih => exact pos_update ih hbeta _
  | reset => rfl

end Baseline

section Comparison

variable {mon mon' : Monitor (Extended K)}

/-- The first monitor has the same bounds as the second one, has seen the same generation last, and
its baseline is positive and not larger. -/
structure Stricter (mon mon' : Monitor (Extended K)) : Prop where
  frac_eq : mon.maxCondChangeFrac = mon'.maxCondChangeFrac
  maxCond_eq : mon.maxCond = mon'.maxCond
  lastGeneration_eq : mon.lastGeneration = mon'.lastGeneration
  pos : Scalar.lt 0 mon.betaMin = true
  betaMin_le : Scalar.le mon.betaMin mon'.betaMin = true

/-- A monitor is as strict as itself. -/
theorem Stricter.refl (h : Scalar.lt 0 mon.betaMin = true) : mon.Stricter mon where
  frac_eq := rfl
  maxCond_eq := rfl
  lastGeneration_eq := rfl
  pos := h
  betaMin_le := by
    rcases Extended.pos_iff.1 h with hbeta | ⟨a, -, hbeta⟩ <;> rw [hbeta]
    · rfl
    · exact Extended.le_finite.2 (le_refl a)

/-- A measure that exceeds a bound of the laxer monitor exceeds one of the stricter monitor, and so
does every larger measure. -/
theorem Stricter.exceeds (h : mon.Stricter mon') {b b' : K} (hb : 0 < b) (hle : b ≤ b')
    (hexceeds : mon'.Exceeds (.finite b)) : mon.Exceeds (.finite b') := by
  have hle' := h.betaMin_le
  rw [Exceeds, ← h.maxCond_eq, ← h.frac_eq] at hexceeds
  rcases hexceeds with habsolute | ⟨hmin, hratio⟩
  · exact .inl (Extended.lt_of_lt_of_le habsolute hle)
  · rcases Extended.cases_of_pos_of_le h.pos h.betaMin_le with
      hbeta' | ⟨a, a', ha, haa', hbeta, hbeta'⟩
    · rw [hbeta'] at hmin
      cases hmin
    · rw [hbeta'] at hmin hratio
      have hmin : a' ≤ b := by
        rw [Bool.eq_false_iff, Ne, Extended.lt_finite] at hmin
        exact not_lt.1 hmin
      have ha' : 0 < a' := ha.trans_le haa'
      have hb' : 0 ≤ b' := hb.le.trans hle
      -- A larger measure over a smaller baseline: the ratio can only have grown.
      have hquotient : b / a' ≤ b' / a := by gcongr
      rw [Extended.finite_div b ha'.ne'] at hratio
      refine .inr ⟨?_, ?_⟩
      · rw [hbeta, Bool.eq_false_iff, Ne, Extended.lt_finite]
        exact not_lt.2 ((haa'.trans hmin).trans hle)
      · rw [hbeta, Extended.finite_div b' ha.ne']
        exact Extended.lt_of_lt_of_le hratio hquotient

/-- An update changes nothing but the minimum. -/
theorem update_bounds (mon : Monitor (Extended K)) (beta : Extended K) (basisChanged : Bool) :
    (mon.update beta basisChanged).2 =
      { mon with betaMin := (mon.update beta basisChanged).2.betaMin } := by
  unfold update
  dsimp only
  repeat' split
  all_goals rfl

/-- A measure keeps the order of two baselines. One that lies between them becomes the baseline of
the laxer monitor only. -/
theorem Stricter.betaMin_update (h : mon.Stricter mon') {beta : Extended K}
    (hbeta : IsMeasure beta) (basisChanged : Bool) :
    Scalar.le (mon.update beta basisChanged).2.betaMin
      (mon'.update beta basisChanged).2.betaMin = true := by
  rcases measure_cases hbeta with hfinite | ⟨b, hb, rfl⟩
  · rw [betaMin_update_of_not_finite hfinite, betaMin_update_of_not_finite hfinite]
    exact h.betaMin_le
  · rw [betaMin_update_finite, betaMin_update_finite]
    split
    · exact Extended.le_finite.2 (le_refl _)
    · by_cases hzero : b = 0
      · simp only [hzero, ne_eq, not_true, false_and, if_false]
        exact h.betaMin_le
      · simp only [hzero, ne_eq, not_false_eq_true, true_and]
        exact Extended.smaller_le_smaller h.pos h.betaMin_le b

/-- A measure leaves the stricter monitor the stricter one. -/
theorem Stricter.update (h : mon.Stricter mon') {beta : Extended K} (hbeta : IsMeasure beta)
    (basisChanged : Bool) :
    (mon.update beta basisChanged).2.Stricter (mon'.update beta basisChanged).2 := by
  rw [update_bounds mon, update_bounds mon']
  exact ⟨h.frac_eq, h.maxCond_eq, h.lastGeneration_eq, pos_update h.pos hbeta basisChanged,
    h.betaMin_update hbeta basisChanged⟩

/-- A finite measure that triggers the laxer monitor triggers the stricter one, and so does every
larger finite measure. -/
theorem Stricter.isTrigger_finite (h : mon.Stricter mon') {b b' : K} (hb : 0 ≤ b) (hle : b ≤ b')
    (basisChanged : Bool)
    (htrigger : (mon'.update (.finite b) basisChanged).1.isTrigger = true) :
    (mon.update (.finite b') basisChanged).1.isTrigger = true := by
  obtain ⟨hsame, hzero, hexceeds⟩ := (Monitor.isTrigger_update rfl basisChanged).1 htrigger
  have hpos : 0 < b := lt_of_le_of_ne hb (Ne.symm (of_decide_eq_false hzero))
  have hzero' : Scalar.isZero (Extended.finite b') = false :=
    decide_eq_false (hpos.trans_le hle).ne'
  exact (Monitor.isTrigger_update rfl basisChanged).2 ⟨hsame, hzero', h.exceeds hpos hle hexceeds⟩

/-- A measure that triggers the laxer monitor triggers the stricter one. -/
theorem Stricter.isTrigger_update (h : mon.Stricter mon') {beta : Extended K}
    (hbeta : IsMeasure beta) (basisChanged : Bool)
    (htrigger : (mon'.update beta basisChanged).1.isTrigger = true) :
    (mon.update beta basisChanged).1.isTrigger = true := by
  rcases measure_cases hbeta with hfinite | ⟨b, hb, rfl⟩
  · exact isTrigger_update_of_not_finite hfinite basisChanged
  · exact h.isTrigger_finite hb (le_refl b) basisChanged htrigger

/-- A measure larger than one that triggers triggers too. -/
theorem isTrigger_update_of_lt (h : Scalar.lt 0 mon.betaMin = true) {beta beta' : Extended K}
    (hfinite : Scalar.isFinite beta = true) (hbeta : Scalar.le 0 beta = true)
    (hlt : Scalar.lt beta beta' = true) (basisChanged : Bool)
    (htrigger : (mon.update beta basisChanged).1.isTrigger = true) :
    (mon.update beta' basisChanged).1.isTrigger = true := by
  cases hfinite' : Scalar.isFinite beta' with
  | false => exact isTrigger_update_of_not_finite hfinite' basisChanged
  | true =>
    obtain ⟨b, rfl⟩ := Extended.isFinite_iff.1 hfinite
    obtain ⟨b', rfl⟩ := Extended.isFinite_iff.1 hfinite'
    exact (Stricter.refl h).isTrigger_finite (Extended.le_finite.1 hbeta)
      (Extended.lt_finite.1 hlt).le basisChanged htrigger

/-- A finite measure has a finite ratio to a positive baseline. -/
theorem isFinite_ratio (h : Scalar.lt 0 mon.betaMin = true) {beta : Extended K}
    (hbeta : Scalar.isFinite beta = true) : Scalar.isFinite (beta / mon.betaMin) = true := by
  obtain ⟨b, rfl⟩ := Extended.isFinite_iff.1 hbeta
  rcases Extended.pos_iff.1 h with hmin | ⟨a, ha, hmin⟩
  · rw [hmin]
    rfl
  · rw [hmin, Extended.finite_div b ha.ne']
    rfl

end Comparison

section Histories

variable {mon mon' : Monitor (Extended K)}

/-- An observation is judged alike up to the baselines: both monitors see the basis change at the
same generations. -/
theorem Stricter.see (h : mon.Stricter mon') (generation : Nat) :
    Stricter { mon with lastGeneration := some generation }
      { mon' with lastGeneration := some generation } :=
  ⟨h.frac_eq, h.maxCond_eq, rfl, h.pos, h.betaMin_le⟩

/-- A stricter monitor stays stricter. -/
theorem Stricter.observe (h : mon.Stricter mon') {beta : Extended K} (hbeta : IsMeasure beta)
    (generation : Nat) :
    (mon.observe beta generation).2.Stricter (mon'.observe beta generation).2 := by
  rw [Monitor.observe, Monitor.observe, h.lastGeneration_eq]
  exact (h.see generation).update hbeta _

/-- And it triggers whenever the other one does. -/
theorem Stricter.isTrigger_observe (h : mon.Stricter mon') {beta : Extended K}
    (hbeta : IsMeasure beta) (generation : Nat)
    (htrigger : (mon'.observe beta generation).1.isTrigger = true) :
    (mon.observe beta generation).1.isTrigger = true := by
  rw [Monitor.observe, ← h.lastGeneration_eq] at htrigger
  exact (h.see generation).isTrigger_update hbeta _ htrigger

/-- A reset makes two monitors with the same bounds equal. -/
theorem Stricter.reset (h : mon.Stricter mon') : mon.reset.Stricter mon'.reset :=
  ⟨h.frac_eq, h.maxCond_eq, rfl, rfl, rfl⟩

/-- After every event it still is the stricter one. -/
theorem Stricter.handle (h : mon.Stricter mon') {event : Event (Extended K)}
    (hevent : event.Admissible) : (mon.handle event).Stricter (mon'.handle event) := by
  cases event with
  | observe beta generation => exact h.observe hevent generation
  | reset => exact h.reset

/-- The stricter monitor stays the stricter one. -/
theorem Stricter.after (h : mon.Stricter mon') {history : List (Event (Extended K))}
    (hhistory : ∀ event ∈ history, event.Admissible) :
    (mon.after history).Stricter (mon'.after history) := by
  induction history generalizing mon mon' with
  | nil => exact h
  | cons event rest ih =>
    rw [List.forall_mem_cons] at hhistory
    exact ih (h.handle hhistory.1) hhistory.2

/-- The baseline of a monitor that has come about is positive, so a finite measure has a finite
ratio to it, and a measure larger than one that triggers triggers too. Of two monitors with the same
bounds that have seen the same generation last, the one with the smaller baseline keeps it through
every history and triggers whenever the other one does. -/
theorem triggers_monotone :
    (∀ mon : Monitor (Extended K), mon.Reachable →
      Scalar.lt 0 mon.betaMin = true ∧
      (∀ beta, Scalar.isFinite beta = true → Scalar.isFinite (beta / mon.betaMin) = true) ∧
      ∀ beta beta', Scalar.isFinite beta = true → Scalar.le 0 beta = true →
        Scalar.lt beta beta' = true →
        (∀ generation, (mon.observe beta generation).1.isTrigger = true →
          (mon.observe beta' generation).1.isTrigger = true) ∧
        ∀ basisChanged, (mon.update beta basisChanged).1.isTrigger = true →
          (mon.update beta' basisChanged).1.isTrigger = true) ∧
    ∀ mon mon' : Monitor (Extended K), mon.Reachable → mon'.Reachable →
      mon.maxCondChangeFrac = mon'.maxCondChangeFrac → mon.maxCond = mon'.maxCond →
      mon.lastGeneration = mon'.lastGeneration →
      Scalar.le mon.betaMin mon'.betaMin = true →
      ∀ history : List (Event (Extended K)), (∀ event ∈ history, event.Admissible) →
        Scalar.le (mon.after history).betaMin (mon'.after history).betaMin = true ∧
        ∀ beta generation, IsMeasure beta →
          ((mon'.after history).observe beta generation).1.isTrigger = true →
          ((mon.after history).observe beta generation).1.isTrigger = true := by
  refine ⟨fun mon hmon => ?_, fun mon mon' hmon _ hfrac hcond hgeneration hle history hadm => ?_⟩
  · have hpos := hmon.pos
    refine ⟨hpos, fun beta => isFinite_ratio hpos, fun beta beta' hfinite hbeta hlt => ⟨?_, ?_⟩⟩
    · exact fun generation =>
        @isTrigger_update_of_lt K _ { mon with lastGeneration := some generation } hpos _ _ hfinite
          hbeta hlt _
    · exact fun basisChanged => isTrigger_update_of_lt hpos hfinite hbeta hlt basisChanged
  · have hstricter : mon.Stricter mon' := ⟨hfrac, hcond, hgeneration, hmon.pos, hle⟩
    have hafter := hstricter.after hadm
    exact ⟨hafter.betaMin_le, fun _ generation hbeta => hafter.isTrigger_observe hbeta generation⟩

/-- A monitor with the bounds ten and a thousand that has seen one measure. -/
def sampleSeen (b : Rat) : Monitor (Extended Rat) :=
  ((new (.finite 10) (.finite 1000)).observe (.finite b) 1).2

/-- The second measure is a new minimum for the laxer monitor only, and the last one triggers
both. -/
theorem triggers_monotone_sample :
    ((sampleSeen 1).observe (.finite 50) 1).1.isTrigger = true ∧
      Scalar.lt ((sampleSeen 1).after [.observe (.finite 3) 1, .observe .nan 1]).betaMin
        ((sampleSeen 5).after [.observe (.finite 3) 1, .observe .nan 1]).betaMin = true ∧
      (((sampleSeen 1).after [.observe (.finite 3) 1, .observe .nan 1]).observe
        (.finite 40) 1).1.isTrigger = true := by
  have h1 : (sampleSeen 1).Reachable := .observe (.new _ _) (.inr (by decide +kernel)) 1
  have h5 : (sampleSeen 5).Reachable := .observe (.new _ _) (.inr (by decide +kernel)) 1
  have hadm : ∀ event ∈ [Event.observe (Extended.finite (3 : Rat)) 1, .observe .nan 1],
      event.Admissible := by
    rw [List.forall_mem_cons, List.forall_mem_singleton]
    exact ⟨.inr (by decide +kernel), .inl (by decide +kernel)⟩
  obtain ⟨-, -, hlarger⟩ := triggers_monotone.1 _ h1
  have htrigger := (hlarger (.finite 40) (.finite 50) (by decide +kernel) (by decide +kernel)
    (by decide +kernel)).1 1 (by decide +kernel)
  obtain ⟨-, hstrict⟩ := triggers_monotone.2 _ _ h1 h5 (by decide +kernel) (by decide +kernel)
    (by decide +kernel) (by decide +kernel) _ hadm
  exact ⟨htrigger, by decide +kernel,
    hstrict (.finite 40) 1 (.inr (by decide +kernel)) (by decide +kernel)⟩

end Histories

end ReducedSpace.Monitor
