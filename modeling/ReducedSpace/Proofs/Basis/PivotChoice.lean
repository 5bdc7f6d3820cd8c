import Mathlib
import ReducedSpace.Proofs.Exact.Norm
import ReducedSpace.Basis.CompletePivoting

/-!
# The choice of a complete pivot

Complete pivoting chooses in one pass over the remaining entries. Entries below the bound are
skipped; of the others a preferred row wins, then the larger magnitude, then the entry that comes
first. So the chosen entry is not worse than any other one within the bound, and it is the largest
one unless a preferred row was given precedence. A choice that is the largest entry survives every
larger bound that it meets itself.
-/

namespace ReducedSpace

variable {K : Type} [ExactScalar K]

/-- No row is preferred to another one of the first `n`. -/
def AnalysisHints.Indifferent (hints : AnalysisHints) (n : ℕ) : Prop :=
  ∀ i i', i < n → i' < n → hints.isPreferred i = hints.isPreferred i'

namespace DensePivot

/-- The other candidate neither has the only preferred row nor is larger with the same
preference. -/
def NotWorse (b c : DensePivot K) : Prop :=
  (c.preferred = true → b.preferred = true) ∧
    (c.preferred = b.preferred → c.magnitude ≤ b.magnitude)

/-- No candidate is worse than itself. -/
theorem NotWorse.refl (b : DensePivot K) : b.NotWorse b := ⟨id, fun _ => le_refl _⟩

/-- Not being worse is transitive. -/
theorem NotWorse.trans {b c d : DensePivot K} (h : b.NotWorse c) (h' : c.NotWorse d) :
    b.NotWorse d := by
  refine ⟨fun hd => h.1 (h'.1 hd), fun hd => ?_⟩
  by_cases hc : c.preferred = b.preferred
  · exact (h'.2 (hd.trans hc.symm)).trans (h.2 hc)
  · cases hb : b.preferred with
    | false =>
      have hct : c.preferred = true := by simpa [hb] using hc
      exact absurd (h.1 hct) (by simp [hb])
    | true => exact absurd ((h'.1 (hd.trans hb)).trans hb.symm) hc

end DensePivot

namespace PivotedMatrix

open DensePivot

/-- A candidate is better if its row is preferred instead, or if it is larger in a row of the same
kind. -/
theorem better_some_iff {preferred : Bool} {magnitude : K} {b : DensePivot K} :
    better preferred magnitude (some b) = true ↔
      preferred = true ∧ b.preferred = false ∨
        preferred = b.preferred ∧ b.magnitude < magnitude := by
  simp [better]

/-- A candidate that beats another one beats what that one is not worse than. -/
theorem better_of_notWorse {c b d : DensePivot K}
    (h : better c.preferred c.magnitude (some b) = true) (hd : b.NotWorse d) :
    better c.preferred c.magnitude (some d) = true := by
  rw [better_some_iff] at h ⊢
  obtain ⟨hpreferred, hmagnitude⟩ := hd
  rcases h with ⟨hc, hb⟩ | ⟨hc, hlt⟩
  · refine .inl ⟨hc, ?_⟩
    by_contra hne
    rw [hpreferred (by simpa using hne)] at hb
    cases hb
  · by_cases hdb : d.preferred = b.preferred
    · exact .inr ⟨hc.trans hdb.symm, (hmagnitude hdb).trans_lt hlt⟩
    · refine .inl ?_
      grind

/-- Of two candidates, the one that is kept is not worse than the other. -/
theorem notWorse_of_better {c b : DensePivot K}
    (h : better c.preferred c.magnitude (some b) = true) : c.NotWorse b := by
  rw [better_some_iff] at h
  unfold NotWorse
  rcases h with ⟨hc, hb⟩ | ⟨hc, hlt⟩
  · simp [hc, hb]
  · exact ⟨fun hb => hc.trans hb, fun _ => hlt.le⟩

/-- What is not improved on is not worse. -/
theorem notWorse_of_not_better {c b : DensePivot K}
    (h : ¬better c.preferred c.magnitude (some b) = true) : b.NotWorse c := by
  rw [better_some_iff, not_or] at h
  unfold NotWorse
  refine ⟨fun hc => ?_, fun hc => ?_⟩
  · by_contra hb
    exact h.1 ⟨hc, by simpa using hb⟩
  · by_contra hlt
    exact h.2 ⟨hc, not_le.1 hlt⟩

section Largest

variable {a : DenseMatrix K} {k : ℕ}

omit [ExactScalar K] in
/-- The remaining entries are those at or behind the step, in both directions. -/
theorem mem_remaining_iff {e : ℕ × ℕ} :
    e ∈ remaining a k ↔ (k ≤ e.1 ∧ e.1 < a.rows) ∧ k ≤ e.2 ∧ e.2 < a.cols := by
  obtain ⟨i, j⟩ := e
  rw [remaining]
  simp only [List.mem_flatMap, List.mem_map, List.mem_range'_1, Prod.mk.injEq]
  constructor
  · rintro ⟨j', hj', i', hi', rfl, rfl⟩
    omega
  · rintro ⟨hi, hj⟩
    exact ⟨j, by omega, i, by omega, rfl, rfl⟩

/-- No remaining entry is larger than the largest magnitude. -/
theorem abs_le_largest {e : ℕ × ℕ} (he : e ∈ remaining a k) : |a.entry e.1 e.2| ≤ largest a k :=
  abs_le_foldl_max (f := fun e : ℕ × ℕ => a.entry e.1 e.2) he 0

/-- The largest magnitude is not negative. -/
theorem largest_nonneg (a : DenseMatrix K) (k : ℕ) : 0 ≤ largest a k := le_foldl_max _ _ 0

/-- It is attained, or zero. -/
theorem largest_attained (a : DenseMatrix K) (k : ℕ) :
    largest a k = 0 ∨ ∃ e ∈ remaining a k, largest a k = |a.entry e.1 e.2| :=
  foldl_max_attained (remaining a k) (fun e => a.entry e.1 e.2) 0

end Largest

section Choice

/-- The candidate that an entry makes. -/
def candidate (s : PivotedMatrix K) (hints : AnalysisHints) (e : ℕ × ℕ) : DensePivot K :=
  ⟨hints.isPreferred (s.rowPerm.old e.1), |s.matrix.entry e.1 e.2|, e.1, e.2⟩

/-- The best of the listed entries whose magnitude is at least `bound`. -/
def bestOf (s : PivotedMatrix K) (hints : AnalysisHints) (bound : K) (l : List (ℕ × ℕ)) :
    Option (DensePivot K) :=
  l.foldl
    (fun best e =>
      let c := s.candidate hints e
      if Scalar.lt c.magnitude bound then best
      else if better c.preferred c.magnitude best then some c
      else best)
    none

/-- The search looks at the remaining entries one after the other. -/
theorem bestPivot_eq (s : PivotedMatrix K) (hints : AnalysisHints) (bound : K) (k : ℕ) :
    s.bestPivot hints bound k = s.bestOf hints bound (remaining s.matrix k) := rfl

variable {s : PivotedMatrix K} {hints : AnalysisHints} {bound : K}

/-- One more entry replaces the best one so far if it is within the bound and better. -/
theorem bestOf_append (l : List (ℕ × ℕ)) (e : ℕ × ℕ) :
    s.bestOf hints bound (l ++ [e]) =
      if (s.candidate hints e).magnitude < bound then s.bestOf hints bound l
      else if better (s.candidate hints e).preferred (s.candidate hints e).magnitude
        (s.bestOf hints bound l) = true then some (s.candidate hints e)
      else s.bestOf hints bound l := by
  simp only [← Scalar.lt_iff]
  unfold bestOf
  rw [List.foldl_append]
  rfl

/-- The candidate comes from the list, is within the bound and not worse than any other one. -/
structure BestAmong (s : PivotedMatrix K) (hints : AnalysisHints) (bound : K) (l : List (ℕ × ℕ))
    (b : DensePivot K) : Prop where
  mem : ∃ e ∈ l, b = s.candidate hints e
  bound_le : bound ≤ b.magnitude
  notWorse : ∀ e ∈ l, bound ≤ (s.candidate hints e).magnitude → b.NotWorse (s.candidate hints e)

/-- The best candidate stays the best among one more entry that it need not give way to. -/
theorem BestAmong.append {l : List (ℕ × ℕ)} {b : DensePivot K} (h : s.BestAmong hints bound l b)
    {e : ℕ × ℕ}
    (he : bound ≤ (s.candidate hints e).magnitude → b.NotWorse (s.candidate hints e)) :
    s.BestAmong hints bound (l ++ [e]) b where
  mem := by
    obtain ⟨d, hd, hbd⟩ := h.mem
    exact ⟨d, List.mem_append_left _ hd, hbd⟩
  bound_le := h.bound_le
  notWorse := List.forall_mem_append.2 ⟨h.notWorse, List.forall_mem_singleton.2 he⟩

/-- The pass ends with a best candidate, or there is none within the bound. -/
theorem bestOf_spec (s : PivotedMatrix K) (hints : AnalysisHints) (bound : K)
    (l : List (ℕ × ℕ)) :
    (∀ b, s.bestOf hints bound l = some b → s.BestAmong hints bound l b) ∧
      (s.bestOf hints bound l = none → ∀ e ∈ l, (s.candidate hints e).magnitude < bound) := by
  induction l using List.reverseRecOn with
  | nil => exact ⟨fun b hb => (Option.some_ne_none b hb.symm).elim, fun _ e he => by cases he⟩
  | append_singleton l e ih =>
    obtain ⟨hsome, hnone⟩ := ih
    rw [bestOf_append]
    by_cases hlt : (s.candidate hints e).magnitude < bound
    · rw [if_pos hlt]
      refine ⟨fun b hb => (hsome b hb).append fun hle => absurd hlt (not_lt.2 hle), fun h => ?_⟩
      exact List.forall_mem_append.2 ⟨hnone h, List.forall_mem_singleton.2 hlt⟩
    · rw [if_neg hlt]
      split
      · rename_i hbetter
        refine ⟨fun b hb => ?_, fun h => by cases h⟩
        cases hb
        refine ⟨⟨e, by simp, rfl⟩, not_lt.1 hlt, fun d hd hle => ?_⟩
        rcases List.mem_append.1 hd with hd | hd
        · cases hbest : s.bestOf hints bound l with
          | none => exact absurd (hnone hbest d hd) (not_lt.2 hle)
          | some b =>
            rw [hbest] at hbetter
            exact (notWorse_of_better hbetter).trans ((hsome b hbest).notWorse d hd hle)
        · cases List.mem_singleton.1 hd
          exact .refl _
      · rename_i hbetter
        refine ⟨fun b hb => (hsome b hb).append fun _ => ?_, fun h => ?_⟩
        · rw [hb] at hbetter
          exact notWorse_of_not_better hbetter
        · rw [h] at hbetter
          exact absurd rfl hbetter

/-- The best candidate stays the best under a larger bound that it meets itself. -/
theorem bestOf_of_le {bound' : K} (hle : bound ≤ bound') {l : List (ℕ × ℕ)} {b : DensePivot K}
    (h : s.bestOf hints bound l = some b) (hb : bound' ≤ b.magnitude) :
    s.bestOf hints bound' l = some b := by
  induction l using List.reverseRecOn with
  | nil => cases h
  | append_singleton l e ih =>
    rw [bestOf_append] at h ⊢
    by_cases hlt : (s.candidate hints e).magnitude < bound
    · rw [if_pos hlt] at h
      rw [if_pos (hlt.trans_le hle)]
      exact ih h
    · rw [if_neg hlt] at h
      split at h
      · rename_i hbetter
        cases h
        rw [if_neg (not_lt.2 hb), if_pos]
        cases hbest' : s.bestOf hints bound' l with
        | none => rfl
        | some c =>
          obtain ⟨⟨d, hd, rfl⟩, hbound', -⟩ := (bestOf_spec s hints bound' l).1 c hbest'
          cases hbest : s.bestOf hints bound l with
          | none =>
            have hlt' := (bestOf_spec s hints bound l).2 hbest d hd
            exact absurd hlt' (not_lt.2 (hle.trans hbound'))
          | some b =>
            rw [hbest] at hbetter
            exact better_of_notWorse hbetter
              (((bestOf_spec s hints bound l).1 b hbest).notWorse d hd (hle.trans hbound'))
      · rename_i hbetter
        rw [ih h]
        rw [h] at hbetter
        rw [if_neg hbetter, ite_self]

end Choice

section Step

variable {s t : PivotedMatrix K} {hints : AnalysisHints} {u absTol : K} {k : ℕ}

/-- Without an entry above the tolerance there is no further step. -/
theorem step_eq_none_of_le (h : largest s.matrix k ≤ absTol) :
    s.step hints u absTol k = none := by
  rw [step]
  have hstop : (Scalar.le (largest s.matrix k) absTol ||
      Scalar.isZero (largest s.matrix k)) = true := by
    simp [h]
  rw [if_pos hstop]

/-- A step that goes on has found an entry above the tolerance. -/
theorem lt_largest_of_step (h : s.step hints u absTol k = some t) :
    absTol < largest s.matrix k := by
  by_contra hle
  rw [step_eq_none_of_le (not_lt.1 hle)] at h
  cases h

/-- With an entry above the tolerance a step eliminates with the best one within the threshold. -/
theorem step_eq_of_lt (htol : 0 ≤ absTol) (h : absTol < largest s.matrix k) :
    s.step hints u absTol k =
      (s.bestOf hints (u * largest s.matrix k) (remaining s.matrix k)).map fun best =>
        s.pivot k best.row best.col := by
  rw [step]
  have hgo : (Scalar.le (largest s.matrix k) absTol ||
      Scalar.isZero (largest s.matrix k)) = false := by
    simp [h, (htol.trans_lt h).ne']
  rw [hgo]
  rfl

/-- The search stops exactly when no entry is above the tolerance. -/
theorem step_eq_none_iff (hu : u ≤ 1) (htol : 0 ≤ absTol) :
    s.step hints u absTol k = none ↔ largest s.matrix k ≤ absTol := by
  refine ⟨fun h => ?_, step_eq_none_of_le⟩
  by_contra hlt
  have hlt := not_le.1 hlt
  rw [step_eq_of_lt htol hlt, Option.map_eq_none_iff] at h
  rcases largest_attained s.matrix k with hzero | ⟨e, he, hlargest⟩
  · exact absurd hzero (htol.trans_lt hlt).ne'
  · have hbelow : |s.matrix.entry e.1 e.2| < u * largest s.matrix k :=
      (bestOf_spec s hints _ _).2 h e he
    rw [← hlargest] at hbelow
    exact absurd hbelow (not_lt.2 (mul_le_of_le_one_left (largest_nonneg _ _) hu))

/-- The pivot that a step moves to the diagonal: a remaining entry that is not below the multiple
`u` of the largest one, and the best one of those. -/
structure Chooses (s : PivotedMatrix K) (hints : AnalysisHints) (u absTol : K) (k p q : ℕ) :
    Prop where
  mem : (p, q) ∈ remaining s.matrix k
  above : absTol < largest s.matrix k
  bound_le : u * largest s.matrix k ≤ |s.matrix.entry p q|
  notWorse : ∀ e ∈ remaining s.matrix k, u * largest s.matrix k ≤ |s.matrix.entry e.1 e.2| →
    (s.candidate hints (p, q)).NotWorse (s.candidate hints e)

/-- A step that goes on has chosen a pivot. -/
theorem exists_chooses (htol : 0 ≤ absTol) (h : s.step hints u absTol k = some t) :
    ∃ p q, s.Chooses hints u absTol k p q ∧ t = s.pivot k p q := by
  have habove := lt_largest_of_step h
  rw [step_eq_of_lt htol habove] at h
  obtain ⟨best, hbest, rfl⟩ := Option.map_eq_some_iff.1 h
  obtain ⟨⟨e, he, rfl⟩, hbound, hall⟩ := (bestOf_spec s hints _ _).1 best hbest
  exact ⟨e.1, e.2, ⟨he, habove, hbound, hall⟩, rfl⟩

/-- The pivot is a largest entry unless its row was preferred to others. -/
theorem Chooses.largest_le {p q : ℕ} (h : s.Chooses hints u absTol k p q) (hu : u ≤ 1)
    (hpreferred : hints.isPreferred (s.rowPerm.old p) = false ∨
      s.rowPerm.size = s.matrix.rows ∧ hints.Indifferent s.matrix.rows) :
    largest s.matrix k ≤ |s.matrix.entry p q| := by
  rcases largest_attained s.matrix k with hzero | ⟨e, he, hlargest⟩
  · rw [hzero]
    exact abs_nonneg _
  · have hbound : u * largest s.matrix k ≤ |s.matrix.entry e.1 e.2| := by
      rw [← hlargest]
      exact mul_le_of_le_one_left (largest_nonneg _ _) hu
    obtain ⟨hwins, hlarger⟩ := h.notWorse e he hbound
    have hsame : hints.isPreferred (s.rowPerm.old e.1) =
        hints.isPreferred (s.rowPerm.old p) := by
      rcases hpreferred with hnot | ⟨hsize, hindifferent⟩
      · cases hrow : hints.isPreferred (s.rowPerm.old e.1) with
        | false => exact hnot.symm
        | true => exact (hwins hrow).symm
      · refine hindifferent _ _ ?_ ?_
        · rw [← hsize, s.rowPerm.old_lt_iff, hsize]
          exact (mem_remaining_iff.1 he).1.2
        · rw [← hsize, s.rowPerm.old_lt_iff, hsize]
          exact (mem_remaining_iff.1 h.mem).1.2
    rw [hlargest]
    exact hlarger hsame

end Step

end PivotedMatrix

end ReducedSpace
