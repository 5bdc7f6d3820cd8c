import Mathlib
import ReducedSpace.Proofs.Machine.Order
import ReducedSpace.Proofs.Basis.PivotChoice
import ReducedSpace.Proofs.Basis.PivotSearch

/-!
# The chosen pivot is the best one

Both searches keep the first best candidate of a list, which one pass finds if the comparison is a
strict weak order. The sparse search lists the acceptable entries of the columns that it visits.
With a threshold of at most one every column above the tolerance has such an entry, so the columns
that count for the limit are the columns above the tolerance. The dense search lists the remaining
entries within the bound.
-/

namespace ReducedSpace

/-- All values are numbers, so any two of them can be compared, and a product with a positive factor
of at most one is not above the other factor. -/
class TotalScalar (α : Type) [Scalar α] : Prop extends ComparableScalar α where
  isNaN_eq_false : ∀ x : α, Scalar.isNaN x = false
  max_eq : ∀ x y : α, Scalar.max x y = if Scalar.lt x y = true then y else x
  mul_le : ∀ {u x : α}, Scalar.lt 0 u = true → Scalar.le u 1 = true → Scalar.le 0 x = true →
    Scalar.le (u * x) x = true

instance {K : Type} [ExactScalar K] : TotalScalar K where
  isNaN_eq_false _ := rfl
  max_eq x y := by
    show max x y = _
    by_cases h : x < y
    · rw [if_pos (Scalar.lt_iff.2 h), max_eq_right h.le]
    · rw [if_neg (mt Scalar.lt_iff.1 h), max_eq_left (not_lt.1 h)]
  mul_le _ hu hx :=
    Scalar.le_iff.2 (mul_le_of_le_one_left (Scalar.le_iff.1 hx) (Scalar.le_iff.1 hu))

namespace TotalScalar

variable {α : Type} [Scalar α] [TotalScalar α] {x y z : α}

/-- Without special values, `x ≤ y` is the negation of `y < x`. -/
theorem le_iff_lt : Scalar.le x y = true ↔ Scalar.lt y x = false := by
  rw [ComparableScalar.le_iff, isNaN_eq_false, isNaN_eq_false]
  simp

/-- Whatever lies between two numbers in order is apart from one of them. -/
theorem lt_cotrans (h : Scalar.lt x y = true) (z : α) :
    Scalar.lt x z = true ∨ Scalar.lt z y = true :=
  ComparableScalar.lt_or_lt h (isNaN_eq_false z)

/-- No two numbers are less than each other. -/
theorem lt_asymm (h : Scalar.lt x y = true) : Scalar.lt y x = false := by
  rw [Bool.eq_false_iff]
  intro h'
  have hxx := OrderedScalar.lt_trans h h'
  rw [OrderedScalar.lt_irrefl x] at hxx
  cases hxx

theorem le_refl (x : α) : Scalar.le x x = true := le_iff_lt.2 (OrderedScalar.lt_irrefl x)

/-- The comparison is transitive. -/
theorem le_trans (hxy : Scalar.le x y = true) (hyz : Scalar.le y z = true) :
    Scalar.le x z = true := by
  rw [le_iff_lt, Bool.eq_false_iff] at *
  exact fun h => (lt_cotrans h y).elim hyz hxy

/-- Of two numbers one is at most the other. -/
theorem le_of_le_eq_false (h : Scalar.le x y = false) : Scalar.le y x = true := by
  rw [le_iff_lt]
  refine lt_asymm ?_
  rw [Bool.eq_false_iff, Ne, le_iff_lt, Bool.not_eq_false] at h
  exact h

/-- A maximum is at least its first argument. -/
theorem le_max_left (x y : α) : Scalar.le x (Scalar.max x y) = true := by
  rw [max_eq]
  split
  · exact le_iff_lt.2 (lt_asymm ‹_›)
  · exact le_refl x

/-- And at least its second one. -/
theorem le_max_right (x y : α) : Scalar.le y (Scalar.max x y) = true := by
  rw [max_eq]
  split
  · exact le_refl y
  · exact le_iff_lt.2 (by simpa using ‹¬Scalar.lt x y = true›)

/-- A maximum is one of its arguments. -/
theorem max_cases (x y : α) : Scalar.max x y = x ∨ Scalar.max x y = y := by
  rw [max_eq]
  split
  · exact .inr rfl
  · exact .inl rfl

end TotalScalar

/-! ## The first best element of a list -/

section FirstBest

variable {β : Type} {beats : β → β → Bool}

/-- A comparison that never holds in both directions, and where an element that beats another one
beats a third one or the third one beats the other. -/
structure StrictWeak (beats : β → β → Bool) : Prop where
  asymm : ∀ {x y}, beats x y = true → beats y x = false
  beats_or_beats : ∀ {x y}, beats x y = true → ∀ z, beats x z = true ∨ beats z y = true

/-- Nothing is better than itself. -/
theorem StrictWeak.irrefl (h : StrictWeak beats) (x : β) : beats x x = false := by
  cases hx : beats x x with
  | false => rfl
  | true => exact hx.symm.trans (h.asymm hx)

/-- What beats an element beats all that do not beat this element. -/
theorem StrictWeak.beats_of_not_beats (h : StrictWeak beats) {x y z : β} (hxy : beats x y = true)
    (hzy : beats z y = false) : beats x z = true :=
  (h.beats_or_beats hxy z).resolve_right (by simp [hzy])

/-- A first comparison, and a second one for elements that the first one does not tell apart. -/
def lexicographic (first second : β → β → Bool) (x y : β) : Bool :=
  first x y || !first y x && second x y

/-- Comparing by one order and breaking its ties by another one is an order again. -/
theorem StrictWeak.lexicographic {first second : β → β → Bool} (h : StrictWeak first)
    (h' : StrictWeak second) : StrictWeak (lexicographic first second) where
  asymm {x y} hxy := by
    simp only [ReducedSpace.lexicographic, Bool.or_eq_true, Bool.and_eq_true,
      Bool.not_eq_true', Bool.or_eq_false_iff, Bool.and_eq_false_iff] at hxy ⊢
    rcases hxy with hxy | ⟨hyx, hxy⟩
    · exact ⟨h.asymm hxy, .inl (by simp [hxy])⟩
    · exact ⟨hyx, .inr (h'.asymm hxy)⟩
  beats_or_beats {x y} hxy z := by
    simp only [ReducedSpace.lexicographic, Bool.or_eq_true, Bool.and_eq_true,
      Bool.not_eq_true'] at hxy ⊢
    by_cases hxz : first x z = true
    · exact .inl (.inl hxz)
    · by_cases hzy : first z y = true
      · exact .inr (.inl hzy)
      · rw [Bool.not_eq_true] at hxz hzy
        rcases hxy with hxy | ⟨hyx, hxy⟩
        · exact absurd (h.beats_or_beats hxy z) (by simp [hxz, hzy])
        · have hzx : first z x = false := by
            rw [Bool.eq_false_iff]
            exact fun hzx => absurd (h.beats_or_beats hzx y) (by simp [hzy, hyx])
          have hyz : first y z = false := by
            rw [Bool.eq_false_iff]
            exact fun hyz => absurd (h.beats_or_beats hyz x) (by simp [hyx, hxz])
          exact (h'.beats_or_beats hxy z).imp (fun hxz => .inr ⟨hzx, hxz⟩)
            fun hzy => .inr ⟨hyz, hzy⟩

/-- A flag that is set counts as better. -/
theorem StrictWeak.flag (f : β → Bool) : StrictWeak fun x y => f x && !f y where
  asymm {x y} h := by
    cases hx : f x <;> simp_all
  beats_or_beats {x y} h z := by
    cases hz : f z <;> simp_all

/-- A lower cost counts as better. -/
theorem StrictWeak.cost (f : β → Nat) : StrictWeak fun x y => decide (f x < f y) where
  asymm h := decide_eq_false (Nat.lt_asymm (of_decide_eq_true h))
  beats_or_beats {x y} h z := by
    simp only [decide_eq_true_iff] at h ⊢
    omega

/-- A larger size counts as better. -/
theorem StrictWeak.size {α : Type} [Scalar α] [TotalScalar α] (f : β → α) :
    StrictWeak fun x y => Scalar.lt (f y) (f x) where
  asymm h := TotalScalar.lt_asymm h
  beats_or_beats h z := (TotalScalar.lt_cotrans h (f z)).symm

/-- The better of the best element so far and a further one; a draw keeps the former. -/
def keepBetter (beats : β → β → Bool) (best : Option β) (c : β) : Option β :=
  match best with
  | none => some c
  | some b => if beats c b then some c else some b

/-- The pass keeps an element that beats all elements before it, and none after it beats it. -/
theorem foldl_keepBetter_split (h : StrictWeak beats) {l : List β} (hne : l ≠ []) :
    ∃ before b after, l = before ++ b :: after ∧ l.foldl (keepBetter beats) none = some b ∧
      (∀ d ∈ before, beats b d = true) ∧ ∀ d ∈ after, beats d b = false := by
  induction l using List.reverseRecOn with
  | nil => exact absurd rfl hne
  | append_singleton l c ih =>
    rw [List.foldl_append, List.foldl_cons, List.foldl_nil]
    by_cases hl : l = []
    · subst hl
      exact ⟨[], c, [], rfl, rfl, by simp, by simp⟩
    · obtain ⟨before, b, after, rfl, hfold, hbefore, hafter⟩ := ih hl
      rw [hfold]
      cases hc : beats c b with
      | true =>
        refine ⟨before ++ b :: after, c, [], rfl, by simp [keepBetter, hc], ?_, by simp⟩
        rw [List.forall_mem_append, List.forall_mem_cons]
        exact ⟨fun d hd => h.beats_of_not_beats hc (h.asymm (hbefore d hd)), hc,
          fun d hd => h.beats_of_not_beats hc (hafter d hd)⟩
      | false =>
        refine ⟨before, b, after ++ [c], by simp, by simp [keepBetter, hc], hbefore, ?_⟩
        exact List.forall_mem_append.2 ⟨hafter, List.forall_mem_singleton.2 hc⟩

/-- In a list without repetitions, ordered by some relation, the pass keeps the first best
element. -/
theorem exists_first_best (h : StrictWeak beats) {before : β → β → Prop}
    (hasymm : ∀ {x y}, before x y → ¬before y x) {l : List β} (hl : l.Pairwise before)
    (hne : l ≠ []) :
    ∃ b ∈ l, l.foldl (keepBetter beats) none = some b ∧
      ∀ d ∈ l, beats d b = false ∧ (before d b → beats b d = true) := by
  obtain ⟨earlier, b, later, rfl, hfold, hearlier, hlater⟩ := foldl_keepBetter_split h hne
  obtain ⟨-, hb, -⟩ := List.pairwise_append.1 hl
  have hafter := (List.pairwise_cons.1 hb).1
  refine ⟨b, by simp, hfold, ?_⟩
  rw [List.forall_mem_append, List.forall_mem_cons]
  refine ⟨fun d hd => ⟨h.asymm (hearlier d hd), fun _ => hearlier d hd⟩,
    ⟨h.irrefl b, fun hbb => absurd hbb (hasymm hbb)⟩,
    fun d hd => ⟨hlater d hd, fun hdb => absurd (hafter d hd) (hasymm hdb)⟩⟩

end FirstBest

section LargestMagnitude

variable {α : Type} [Scalar α] [TotalScalar α] {β : Type} {f : β → α}

/-- The largest of the start value and the values of a list is not below any of them. -/
theorem le_foldl_largest (l : List β) (x : α) :
    Scalar.le x (l.foldl (fun acc e => Scalar.max acc (f e)) x) = true ∧
      ∀ e ∈ l, Scalar.le (f e) (l.foldl (fun acc e => Scalar.max acc (f e)) x) = true := by
  induction l generalizing x with
  | nil => exact ⟨TotalScalar.le_refl x, by simp⟩
  | cons e l ih =>
    obtain ⟨hstart, hrest⟩ := ih (Scalar.max x (f e))
    rw [List.foldl_cons, List.forall_mem_cons]
    exact ⟨TotalScalar.le_trans (TotalScalar.le_max_left x (f e)) hstart,
      TotalScalar.le_trans (TotalScalar.le_max_right x (f e)) hstart, hrest⟩

/-- It is one of them. -/
theorem foldl_largest_cases (l : List β) (x : α) :
    l.foldl (fun acc e => Scalar.max acc (f e)) x = x ∨
      ∃ e ∈ l, l.foldl (fun acc e => Scalar.max acc (f e)) x = f e := by
  induction l generalizing x with
  | nil => exact .inl rfl
  | cons e l ih =>
    rw [List.foldl_cons]
    rcases ih (Scalar.max x (f e)) with hstart | ⟨d, hd, hrest⟩
    · rw [hstart]
      rcases TotalScalar.max_cases x (f e) with h | h
      · exact .inl h
      · exact .inr ⟨e, List.mem_cons_self, h⟩
    · exact .inr ⟨d, List.mem_cons_of_mem _ hd, hrest⟩

/-- If the largest value is above a bound that is not negative, it is a value of the list, and it is
not below its own multiple by a threshold of at most one. -/
theorem exists_foldl_largest {l : List β} {u bound : α} (hu : Scalar.lt 0 u = true)
    (hle : Scalar.le u 1 = true) (hbound : Scalar.le 0 bound = true)
    (h : Scalar.le (l.foldl (fun acc e => Scalar.max acc (f e)) 0) bound = false) :
    ∃ e ∈ l, Scalar.lt (f e) (u * l.foldl (fun acc e => Scalar.max acc (f e)) 0) = false ∧
      Scalar.le (f e) bound = false := by
  rcases foldl_largest_cases (f := f) l 0 with hzero | ⟨e, he, hlargest⟩
  · rw [hzero, hbound] at h
    cases h
  · have hnonneg := TotalScalar.le_trans hbound (TotalScalar.le_of_le_eq_false h)
    refine ⟨e, he, ?_, hlargest ▸ h⟩
    rw [← hlargest]
    exact TotalScalar.le_iff_lt.1 (TotalScalar.mul_le hu hle hnonneg)

end LargestMagnitude

/-! ## The sparse search -/

namespace PivotCandidate

variable {α : Type} [Scalar α] {c d : PivotCandidate α}

/-- A preferred row comes first, then a lower cost, then a larger magnitude. -/
def Outranks (c d : PivotCandidate α) : Prop :=
  c.preferred = true ∧ d.preferred = false ∨
    c.preferred = d.preferred ∧
      (c.cost < d.cost ∨ c.cost = d.cost ∧ Scalar.lt d.magnitude c.magnitude = true)

/-- The comparison of the search decides the order in words. -/
theorem beats_iff : c.beats d = true ↔ c.Outranks d := by
  unfold beats Outranks
  by_cases hpreferred : c.preferred = d.preferred
  · by_cases hcost : c.cost = d.cost
    · simp [hpreferred, hcost]
    · simp [hpreferred, hcost]
  · cases hc : c.preferred <;> cases hd : d.preferred <;> simp_all

/-- The comparison of candidates is a strict weak order, so the best of a list makes sense. -/
theorem strictWeak_beats [TotalScalar α] :
    StrictWeak (beats : PivotCandidate α → PivotCandidate α → Bool) := by
  have hbeats : (beats : PivotCandidate α → PivotCandidate α → Bool) =
      lexicographic (fun c d => c.preferred && !d.preferred)
        (lexicographic (fun c d => decide (c.cost < d.cost))
          fun c d => Scalar.lt d.magnitude c.magnitude) := by
    funext c d
    rw [Bool.eq_iff_iff, beats_iff, Outranks]
    unfold lexicographic
    grind
  rw [hbeats]
  exact (StrictWeak.flag _).lexicographic ((StrictWeak.cost _).lexicographic (StrictWeak.size _))

/-- The search keeps the first best candidate. -/
theorem improve_eq : improve (α := α) = keepBetter beats := by
  funext best c
  cases best <;> rfl

end PivotCandidate

namespace ActiveMatrix

section Order

variable {α : Type} (a : ActiveMatrix α)

/-- A column comes before another one if it has fewer entries, or as many and a lower index. -/
def ColumnPrecedes (j j' : ℕ) : Prop :=
  (a.column j).size < (a.column j').size ∨ (a.column j).size = (a.column j').size ∧ j < j'

/-- Entries are scanned column by column, and each column by rows. -/
def Precedes (i j i' j' : ℕ) : Prop := a.ColumnPrecedes j j' ∨ j = j' ∧ i < i'

variable {a}

/-- No two columns are scanned before each other. -/
theorem ColumnPrecedes.asymm {j j' : ℕ} (h : a.ColumnPrecedes j j') : ¬a.ColumnPrecedes j' j := by
  unfold ColumnPrecedes at *
  omega

/-- Nor are two entries. -/
theorem Precedes.asymm {i j i' j' : ℕ} (h : a.Precedes i j i' j') : ¬a.Precedes i' j' i j := by
  rintro (hcol' | ⟨hjj', hrow'⟩)
  · rcases h with hcol | ⟨rfl, -⟩
    · exact hcol.asymm hcol'
    · exact hcol'.asymm hcol'
  · rcases h with hcol | ⟨-, hrow⟩
    · exact hcol.asymm (hjj' ▸ hcol)
    · omega

/-- The scan order is ordered by the number of entries of the columns, then by their positions. -/
theorem pairwise_scanOrder (a : ActiveMatrix α) : a.scanOrder.Pairwise a.ColumnPrecedes := by
  rw [scanOrder]
  simp only [getD_sizes]
  refine List.pairwise_flatMap.2 ⟨fun count _ => ?_, ?_⟩
  · refine (List.pairwise_lt_range.filter _).imp_of_mem fun hj hj' hlt => .inr ⟨?_, hlt⟩
    have h := (List.mem_filter.1 hj).2
    have h' := (List.mem_filter.1 hj').2
    rw [beq_iff_eq] at h h'
    rw [h, h']
  · refine (List.pairwise_lt_range' ..).imp fun hlt j hj j' hj' => .inl ?_
    have h := (List.mem_filter.1 hj).2
    have h' := (List.mem_filter.1 hj').2
    rw [beq_iff_eq] at h h'
    rw [h, h']
    exact hlt

end Order

variable {α : Type} [Scalar α] {a : ActiveMatrix α} {u absTol : α} {hints : AnalysisHints}
  {m n : ℕ}

/-- The candidate that an entry makes. -/
def entryAt (a : ActiveMatrix α) (hints : AnalysisHints) (i j : ℕ) : PivotCandidate α where
  row := i
  col := j
  preferred := hints.isPreferred i
  cost := ((a.row i).size - 1) * ((a.column j).size - 1)
  magnitude := Scalar.abs (a.value i j)

/-- The candidates of a column are its acceptable entries. -/
theorem mem_candidates_iff {j : ℕ} {c : PivotCandidate α} :
    c ∈ a.candidates u absTol hints j ↔
      ∃ i, a.Acceptable u absTol i j ∧ a.entryAt hints i j = c := by
  rw [candidates]
  unfold Acceptable
  simp only [List.mem_map, List.mem_filter, Bool.not_eq_true', Bool.or_eq_false_iff,
    SparseVec.mem_indices_iff]
  rfl

/-- They come by ascending rows. -/
theorem pairwise_candidates (j : ℕ) :
    (a.candidates u absTol hints j).Pairwise fun c d => c.row < d.row := by
  have hindices : (a.column j).indices.Pairwise (· < ·) :=
    List.pairwise_map.2 (a.column j).sorted
  exact List.pairwise_map.2 (hindices.filter _)

/-- The columns above the tolerance in the order of the scan. -/
def eligible (a : ActiveMatrix α) (absTol : α) : List ℕ :=
  a.scanOrder.filter fun j => !Scalar.le (a.columnMax j) absTol

/-- If every column above the tolerance has a candidate, the scan is one pass over the candidates of
the first columns above the tolerance. Each of those uses up one of the limit, and the others are
passed over. -/
theorem scan_eq (hcandidates : ∀ j, Scalar.le (a.columnMax j) absTol = false →
      a.candidates u absTol hints j ≠ []) {order : List ℕ} {limit : ℕ} (hlimit : 1 ≤ limit)
    (best : Option (PivotCandidate α)) :
    a.scan u absTol hints order limit best =
      (((order.filter fun j => !Scalar.le (a.columnMax j) absTol).take limit).flatMap
        (a.candidates u absTol hints)).foldl PivotCandidate.improve best := by
  induction order generalizing limit best with
  | nil => simp [scan]
  | cons j order ih =>
    rw [scan]
    cases hle : Scalar.le (a.columnMax j) absTol with
    | true =>
      rw [if_pos rfl, List.filter_cons_of_neg (by simp [hle])]
      exact ih hlimit best
    | false =>
      obtain ⟨limit, rfl⟩ := Nat.exists_eq_add_of_le' hlimit
      rw [if_neg Bool.false_ne_true, List.filter_cons_of_pos (by simp [hle]), List.take_succ_cons,
        List.flatMap_cons, List.foldl_append]
      split
      · exact absurd ‹_› (hcandidates j hle)
      · dsimp only
        split
        · have hzero : limit = 0 := by omega
          rw [hzero, List.take_zero]
          rfl
        · exact ih (by omega) _

/-- Above a tolerance that is not negative a column is not empty, so the scan visits it. -/
theorem mem_eligible_iff (h : a.Aligned m n) (htol : Scalar.le 0 absTol = true) {j : ℕ} :
    j ∈ a.eligible absTol ↔ j < n ∧ Scalar.le (a.columnMax j) absTol = false := by
  rw [eligible, List.mem_filter, mem_scanOrder_iff, Bool.not_eq_true', h.size_cols, h.size_rows]
  refine ⟨fun hj => ⟨hj.1.1, hj.2⟩, fun hj => ⟨⟨hj.1, ?_, ?_⟩, hj.2⟩⟩
  · rw [← SparseVec.length_indices, Nat.one_le_iff_ne_zero, Ne, List.length_eq_zero_iff]
    intro hnil
    have hzero : a.columnMax j = 0 := by rw [columnMax, hnil, List.foldl_nil]
    rw [hzero, htol] at hj
    cases hj.2
  · rw [← SparseVec.length_indices, ← @List.length_range m]
    refine (List.subperm_of_subset (SparseVec.nodup_indices _) fun i hi => ?_).length_le
    exact List.mem_range.2 (h.row_lt (SparseVec.mem_indices_iff.1 hi))

/-- At most every column is eligible. -/
theorem length_eligible_le (h : a.Aligned m n) (htol : Scalar.le 0 absTol = true) :
    (a.eligible absTol).length ≤ n := by
  have hnodup : (a.eligible absTol).Nodup :=
    ((pairwise_scanOrder a).filter _).imp fun hjj' hj => (hj ▸ hjj').asymm (hj ▸ hjj')
  rw [← @List.length_range n]
  refine (List.subperm_of_subset hnodup fun j hj => ?_).length_le
  exact List.mem_range.2 ((mem_eligible_iff h htol).1 hj).1

section Optimal

/-- An acceptable entry of the given columns that no acceptable entry of them outranks, and that
outranks those of them that come before it in the scan. -/
structure Optimal (a : ActiveMatrix α) (u absTol : α) (hints : AnalysisHints)
    (columns : ℕ → Prop) (c : PivotCandidate α) : Prop where
  mem : columns c.col
  acceptable : a.Acceptable u absTol c.row c.col
  eq_entryAt : c = a.entryAt hints c.row c.col
  best : ∀ i j, columns j → a.Acceptable u absTol i j → ¬(a.entryAt hints i j).Outranks c
  first : ∀ i j, columns j → a.Acceptable u absTol i j → a.Precedes i j c.row c.col →
    c.Outranks (a.entryAt hints i j)

variable [TotalScalar α]

/-- A column with an entry above the tolerance has a candidate: its largest entry is acceptable. -/
theorem candidates_ne_nil (hu : Scalar.lt 0 u = true) (hle : Scalar.le u 1 = true)
    (htol : Scalar.le 0 absTol = true) {j : ℕ} (h : Scalar.le (a.columnMax j) absTol = false) :
    a.candidates u absTol hints j ≠ [] := by
  obtain ⟨i, hi, hbound, habove⟩ := exists_foldl_largest hu hle htol h
  have hacc : a.Acceptable u absTol i j := ⟨SparseVec.mem_indices_iff.1 hi, hbound, habove⟩
  exact List.ne_nil_of_mem (mem_candidates_iff.2 ⟨i, hacc, rfl⟩)

/-- A pass over the candidates of some columns in the order of the scan keeps the optimal one. -/
theorem exists_optimal {order : List ℕ} (horder : order.Pairwise a.ColumnPrecedes)
    (hne : order.flatMap (a.candidates u absTol hints) ≠ []) :
    ∃ c, (order.flatMap (a.candidates u absTol hints)).foldl PivotCandidate.improve none = some c ∧
      a.Optimal u absTol hints (· ∈ order) c := by
  have hpairwise : (order.flatMap (a.candidates u absTol hints)).Pairwise fun c d =>
      a.Precedes c.row c.col d.row d.col := by
    refine List.pairwise_flatMap.2 ⟨fun j _ => ?_, horder.imp fun hjj' c hc d hd => .inl ?_⟩
    · refine (pairwise_candidates j).imp_of_mem fun hc hd hlt => .inr ⟨?_, hlt⟩
      rw [col_eq_of_mem_candidates hc, col_eq_of_mem_candidates hd]
    · rw [col_eq_of_mem_candidates hc, col_eq_of_mem_candidates hd]
      exact hjj'
  obtain ⟨c, hc, hfold, hbest⟩ :=
    exists_first_best PivotCandidate.strictWeak_beats (fun h => h.asymm) hpairwise hne
  obtain ⟨j, hj, hcj⟩ := List.mem_flatMap.1 hc
  obtain ⟨i, hacc, rfl⟩ := mem_candidates_iff.1 hcj
  have hall {i' j' : ℕ} (hj' : j' ∈ order) (hacc' : a.Acceptable u absTol i' j') :=
    hbest _ (List.mem_flatMap.2 ⟨j', hj', mem_candidates_iff.2 ⟨i', hacc', rfl⟩⟩)
  rw [PivotCandidate.improve_eq]
  refine ⟨_, hfold, hj, hacc, rfl, ?_, ?_⟩
  · intro i' j' hj' hacc' hout
    have hnot := (hall hj' hacc').1
    rw [PivotCandidate.beats_iff.2 hout] at hnot
    cases hnot
  · intro i' j' hj' hacc' hbefore
    exact PivotCandidate.beats_iff.1 ((hall hj' hacc').2 hbefore)

/-- The column of an acceptable entry is above the tolerance. -/
theorem columnMax_of_acceptable {i j : ℕ} (h : a.Acceptable u absTol i j) :
    Scalar.le (a.columnMax j) absTol = false := by
  rw [Bool.eq_false_iff]
  intro hle
  have hi := (le_foldl_largest (f := fun i => Scalar.abs (a.value i j)) (a.column j).indices 0).2 i
    (SparseVec.mem_indices_iff.2 h.1)
  have hcovered := TotalScalar.le_trans hi hle
  rw [h.2.2] at hcovered
  cases hcovered

/-- A search looks at the first columns above the tolerance; it finds the optimal entry there, or
nothing if there are no such columns. -/
theorem search_cases (hu : Scalar.lt 0 u = true) (hle : Scalar.le u 1 = true)
    (htol : Scalar.le 0 absTol = true) {limit : ℕ} (hlimit : 1 ≤ limit) :
    a.eligible absTol = [] ∧ a.search u absTol hints limit = none ∨
      ∃ c, a.search u absTol hints limit = some c ∧
        a.Optimal u absTol hints (· ∈ (a.eligible absTol).take limit) c := by
  rw [search, scan_eq (fun j => candidates_ne_nil hu hle htol) hlimit, ← eligible]
  cases heligible : a.eligible absTol with
  | nil => exact .inl ⟨rfl, by simp⟩
  | cons j order =>
    rw [← heligible]
    have hpairwise : ((a.eligible absTol).take limit).Pairwise a.ColumnPrecedes :=
      ((pairwise_scanOrder a).filter _).sublist (List.take_sublist limit _)
    have hj : Scalar.le (a.columnMax j) absTol = false := by
      have hmem : j ∈ a.eligible absTol := heligible ▸ List.mem_cons_self
      simpa using (List.mem_filter.1 hmem).2
    have hne : ((a.eligible absTol).take limit).flatMap (a.candidates u absTol hints) ≠ [] := by
      obtain ⟨limit, rfl⟩ := Nat.exists_eq_add_of_le' hlimit
      rw [heligible, List.take_succ_cons, List.flatMap_cons]
      exact List.append_ne_nil_of_left_ne_nil (candidates_ne_nil hu hle htol hj) _
    exact .inr (exists_optimal hpairwise hne)

/-- What is optimal among the columns above the tolerance is optimal in the whole matrix. -/
theorem Optimal.of_eligible (h : a.Aligned m n) (htol : Scalar.le 0 absTol = true)
    {c : PivotCandidate α} (hc : a.Optimal u absTol hints (· ∈ a.eligible absTol) c) :
    a.Optimal u absTol hints (· < n) c where
  mem := ((mem_eligible_iff h htol).1 hc.mem).1
  acceptable := hc.acceptable
  eq_entryAt := hc.eq_entryAt
  best i j hj hacc :=
    hc.best i j ((mem_eligible_iff h htol).2 ⟨hj, columnMax_of_acceptable hacc⟩) hacc
  first i j hj hacc :=
    hc.first i j ((mem_eligible_iff h htol).2 ⟨hj, columnMax_of_acceptable hacc⟩) hacc

end Optimal

end ActiveMatrix

/-! ## The dense search -/

namespace DensePivot

variable {α : Type} [Scalar α] {b c : DensePivot α}

/-- A preferred row comes first, then a larger magnitude. -/
def Outranks (b c : DensePivot α) : Prop :=
  b.preferred = true ∧ c.preferred = false ∨
    b.preferred = c.preferred ∧ Scalar.lt c.magnitude b.magnitude = true

/-- The comparison of the dense search as a comparison of two candidates. -/
def beats (b c : DensePivot α) : Bool := PivotedMatrix.better b.preferred b.magnitude (some c)

/-- The comparison of the dense search decides its order in words. -/
theorem beats_iff : b.beats c = true ↔ b.Outranks c := by
  unfold beats PivotedMatrix.better Outranks
  simp

/-- It is a strict weak order as well. -/
theorem strictWeak_beats [TotalScalar α] :
    StrictWeak (beats : DensePivot α → DensePivot α → Bool) := by
  have hbeats : (beats : DensePivot α → DensePivot α → Bool) =
      lexicographic (fun b c => b.preferred && !c.preferred)
        fun b c => Scalar.lt c.magnitude b.magnitude := by
    funext b c
    rw [Bool.eq_iff_iff, beats_iff, Outranks]
    unfold lexicographic
    grind
  rw [hbeats]
  exact (StrictWeak.flag _).lexicographic (StrictWeak.size _)

end DensePivot

namespace PivotedMatrix

variable {α : Type} [Scalar α] {s : PivotedMatrix α} {hints : AnalysisHints} {u absTol bound : α}
  {k : ℕ}

/-- The candidate that an entry makes. -/
def entryAt (s : PivotedMatrix α) (hints : AnalysisHints) (e : ℕ × ℕ) : DensePivot α where
  preferred := hints.isPreferred (s.rowPerm.old e.1)
  magnitude := Scalar.abs (s.matrix.entry e.1 e.2)
  row := e.1
  col := e.2

/-- Column by column, and each column from above. -/
def ColumnMajor (e e' : ℕ × ℕ) : Prop := e.2 < e'.2 ∨ e.2 = e'.2 ∧ e.1 < e'.1

/-- No two entries precede each other in column-major order. -/
theorem ColumnMajor.asymm {e e' : ℕ × ℕ} (h : ColumnMajor e e') : ¬ColumnMajor e' e := by
  unfold ColumnMajor at *
  omega

/-- The dense search visits the remaining entries in column-major order. -/
theorem pairwise_remaining {β : Type} (a : DenseMatrix β) (k : ℕ) :
    (remaining a k).Pairwise ColumnMajor := by
  refine List.pairwise_flatMap.2 ⟨fun j _ => ?_, ?_⟩
  · exact List.pairwise_map.2 ((List.pairwise_lt_range' ..).imp fun hlt => .inr ⟨rfl, hlt⟩)
  · refine (List.pairwise_lt_range' ..).imp fun hlt e he e' he' => .inl ?_
    obtain ⟨i, -, rfl⟩ := List.mem_map.1 he
    obtain ⟨i', -, rfl⟩ := List.mem_map.1 he'
    exact hlt

/-- The remaining entries within a bound, in the order in which they are compared. -/
def within (s : PivotedMatrix α) (bound : α) (k : ℕ) : List (ℕ × ℕ) :=
  (remaining s.matrix k).filter fun e => !Scalar.lt (Scalar.abs (s.matrix.entry e.1 e.2)) bound

/-- The search is one pass over the entries within the bound. -/
theorem bestPivot_eq_foldl :
    s.bestPivot hints bound k =
      ((s.within bound k).map (s.entryAt hints)).foldl (keepBetter DensePivot.beats) none := by
  rw [within, List.foldl_map, List.foldl_filter, bestPivot]
  congr 1
  funext best e
  cases hlt : Scalar.lt (Scalar.abs (s.matrix.entry e.1 e.2)) bound with
  | true => simp [hlt]
  | false => cases best <;> simp [hlt, keepBetter, entryAt, better, DensePivot.beats]

/-- A remaining entry within the bound that no other one outranks, and that outranks those before
it. -/
structure Optimal (s : PivotedMatrix α) (hints : AnalysisHints) (bound : α) (k : ℕ)
    (b : DensePivot α) : Prop where
  mem : k ≤ b.row ∧ b.row < s.matrix.rows ∧ k ≤ b.col ∧ b.col < s.matrix.cols
  bound_le : Scalar.lt (Scalar.abs (s.matrix.entry b.row b.col)) bound = false
  eq_entryAt : b = s.entryAt hints (b.row, b.col)
  best : ∀ i j, k ≤ i → i < s.matrix.rows → k ≤ j → j < s.matrix.cols →
    Scalar.lt (Scalar.abs (s.matrix.entry i j)) bound = false →
    ¬(s.entryAt hints (i, j)).Outranks b
  first : ∀ i j, k ≤ i → i < s.matrix.rows → k ≤ j → j < s.matrix.cols →
    Scalar.lt (Scalar.abs (s.matrix.entry i j)) bound = false →
    ColumnMajor (i, j) (b.row, b.col) → b.Outranks (s.entryAt hints (i, j))

variable [TotalScalar α]

/-- If an entry is within the bound, the search answers the optimal one. -/
theorem exists_optimal (hne : s.within bound k ≠ []) :
    ∃ b, s.bestPivot hints bound k = some b ∧ s.Optimal hints bound k b := by
  have hpairwise : ((s.within bound k).map (s.entryAt hints)).Pairwise fun b c =>
      ColumnMajor (b.row, b.col) (c.row, c.col) :=
    List.pairwise_map.2 ((pairwise_remaining s.matrix k).filter _)
  obtain ⟨b, hb, hfold, hbest⟩ :=
    exists_first_best DensePivot.strictWeak_beats (fun h => h.asymm) hpairwise (by simpa using hne)
  obtain ⟨e, he, rfl⟩ := List.mem_map.1 hb
  have hall {i j : ℕ} (hi : k ≤ i) (hi' : i < s.matrix.rows) (hj : k ≤ j) (hj' : j < s.matrix.cols)
      (h : Scalar.lt (Scalar.abs (s.matrix.entry i j)) bound = false) :=
    hbest (s.entryAt hints (i, j)) <| List.mem_map_of_mem <|
      List.mem_filter.2 ⟨mem_remaining_iff.2 ⟨⟨hi, hi'⟩, hj, hj'⟩, by simp [h]⟩
  obtain ⟨hmem, hwithin⟩ := List.mem_filter.1 he
  obtain ⟨⟨hrow, hrow'⟩, hcol, hcol'⟩ := mem_remaining_iff.1 hmem
  rw [bestPivot_eq_foldl]
  refine ⟨_, hfold, ⟨hrow, hrow', hcol, hcol'⟩, by rwa [Bool.not_eq_true'] at hwithin, rfl, ?_, ?_⟩
  · intro i j hi hi' hj hj' h hout
    have hnot := (hall hi hi' hj hj' h).1
    rw [DensePivot.beats_iff.2 hout] at hnot
    cases hnot
  · intro i j hi hi' hj hj' h hbefore
    exact DensePivot.beats_iff.1 ((hall hi hi' hj hj' h).2 hbefore)

/-- The largest remaining entry is within a multiple of at most one of itself. -/
theorem within_ne_nil (hu : Scalar.lt 0 u = true) (hle : Scalar.le u 1 = true)
    (htol : Scalar.le 0 absTol = true) (h : Scalar.le (largest s.matrix k) absTol = false) :
    s.within (u * largest s.matrix k) k ≠ [] := by
  obtain ⟨e, he, hbound, -⟩ := exists_foldl_largest hu hle htol h
  exact List.ne_nil_of_mem (List.mem_filter.2 ⟨he, by rwa [Bool.not_eq_true']⟩)

end PivotedMatrix

section Searches

variable {α : Type} [Scalar α] [TotalScalar α]

/-- With a threshold of at most one and a tolerance that is not negative, the sparse search answers
the optimal entry of the first columns above the tolerance, and of the whole matrix if the limit
covers all columns; it answers nothing only if there are no such columns. The dense search answers
the optimal entry within the multiple of the largest one. -/
theorem searches_optimal :
    (∀ (a : ActiveMatrix α) (m n : ℕ) (u absTol : α) (hints : AnalysisHints) (limit : ℕ),
      a.Aligned m n → Scalar.lt 0 u = true → Scalar.le u 1 = true → Scalar.le 0 absTol = true →
      1 ≤ limit →
      ∃ order : List ℕ,
        (∀ j, j ∈ order ↔ j < n ∧ Scalar.le (a.columnMax j) absTol = false) ∧
        order.Pairwise a.ColumnPrecedes ∧
        (order = [] → a.search u absTol hints limit = none) ∧
        (order ≠ [] → ∃ c, a.search u absTol hints limit = some c ∧
          a.Optimal u absTol hints (· ∈ order.take limit) c ∧
          (n ≤ limit → a.Optimal u absTol hints (· < n) c))) ∧
    ∀ (s : PivotedMatrix α) (hints : AnalysisHints) (u absTol : α) (k : ℕ),
      Scalar.lt 0 u = true → Scalar.le u 1 = true → Scalar.le 0 absTol = true →
      Scalar.le (PivotedMatrix.largest s.matrix k) absTol = false →
      ∃ b, s.bestPivot hints (u * PivotedMatrix.largest s.matrix k) k = some b ∧
        s.Optimal hints (u * PivotedMatrix.largest s.matrix k) k b := by
  refine ⟨fun a m n u absTol hints limit h hu hle htol hlimit => ?_,
    fun s hints u absTol k hu hle htol habove => ?_⟩
  · refine ⟨a.eligible absTol, fun j => ActiveMatrix.mem_eligible_iff h htol,
      (ActiveMatrix.pairwise_scanOrder a).filter _, fun hnil => ?_, fun hne => ?_⟩
    · rcases ActiveMatrix.search_cases hu hle htol hlimit with ⟨-, hnone⟩ | ⟨c, -, hc⟩
      · exact hnone
      · have hmem : c.col ∈ (a.eligible absTol).take limit := hc.mem
        rw [hnil, List.take_nil] at hmem
        cases hmem
    · rcases ActiveMatrix.search_cases hu hle htol hlimit with ⟨hnil, -⟩ | ⟨c, hsearch, hc⟩
      · exact absurd hnil hne
      · refine ⟨c, hsearch, hc, fun hlimit' => ?_⟩
        have hall : (a.eligible absTol).take limit = a.eligible absTol :=
          List.take_of_length_le ((ActiveMatrix.length_eligible_le h htol).trans hlimit')
        rw [hall] at hc
        exact hc.of_eligible h htol
  · exact PivotedMatrix.exists_optimal (PivotedMatrix.within_ne_nil hu hle htol habove)

/-- The first two columns have one entry each, the last one has two and the largest entry. -/
def searchSample : SparseMatrix Rat :=
  .ofEntries 3 3 fun i j =>
    ((#[#[some 1, none, none], #[none, some 2, some 1], #[none, none, some 9]] :
      Array (Array (Option Rat))).getD i #[]).getD j none

/-- None of the entries of the first two columns causes fill-in, so a search of two columns answers
the larger one. A search of all columns answers the largest entry, and so does the dense search. -/
theorem searches_optimal_sample :
    (∃ c, (ActiveMatrix.ofSparse searchSample).search (1 / 10) 0 (.ofRank 3) 2 = some c ∧
        (c.row, c.col) = (1, 1) ∧ ∃ order : List ℕ, 2 ∈ order ∧
          (ActiveMatrix.ofSparse searchSample).Optimal (1 / 10) 0 (.ofRank 3)
            (· ∈ order.take 2) c) ∧
      (∃ c, (ActiveMatrix.ofSparse searchSample).search (1 / 10) 0 (.ofRank 3) 3 = some c ∧
        (c.row, c.col) = (2, 2) ∧
        (ActiveMatrix.ofSparse searchSample).Optimal (1 / 10) 0 (.ofRank 3) (· < 3) c) ∧
      ∃ b, (PivotedMatrix.start searchSample.toDense).bestPivot (.ofRank 3)
          (1 / 10 * PivotedMatrix.largest searchSample.toDense 0) 0 = some b ∧
        (b.row, b.col) = (2, 2) := by
  have hcolumn (limit : ℕ) (hlimit : 1 ≤ limit) :=
    searches_optimal.1 (ActiveMatrix.ofSparse searchSample) 3 3 (1 / 10) 0 (.ofRank 3) limit
      (ActiveMatrix.ofSparse_aligned searchSample) (by decide +kernel) (by decide +kernel)
      (by decide +kernel) hlimit
  refine ⟨?_, ?_, ?_⟩
  · obtain ⟨order, hmem, -, -, hsome⟩ := hcolumn 2 (by omega)
    have htwo : 2 ∈ order := (hmem 2).2 ⟨by decide, by decide +kernel⟩
    obtain ⟨c, hc, hopt, -⟩ := hsome (List.ne_nil_of_mem htwo)
    have hpos : ((ActiveMatrix.ofSparse searchSample).search (1 / 10) 0 (.ofRank 3) 2).map
        (fun c => (c.row, c.col)) = some (1, 1) := by decide +kernel
    rw [hc] at hpos
    exact ⟨c, hc, Option.some.inj hpos, order, htwo, hopt⟩
  · obtain ⟨order, hmem, -, -, hsome⟩ := hcolumn 3 (by omega)
    have htwo : 2 ∈ order := (hmem 2).2 ⟨by decide, by decide +kernel⟩
    obtain ⟨c, hc, -, hopt⟩ := hsome (List.ne_nil_of_mem htwo)
    have hpos : ((ActiveMatrix.ofSparse searchSample).search (1 / 10) 0 (.ofRank 3) 3).map
        (fun c => (c.row, c.col)) = some (2, 2) := by decide +kernel
    rw [hc] at hpos
    exact ⟨c, hc, Option.some.inj hpos, hopt (le_refl 3)⟩
  · obtain ⟨b, hb, -⟩ := searches_optimal.2 (PivotedMatrix.start searchSample.toDense) (.ofRank 3)
      (1 / 10) 0 0 (by decide +kernel) (by decide +kernel) (by decide +kernel) (by decide +kernel)
    have hpos : ((PivotedMatrix.start searchSample.toDense).bestPivot (.ofRank 3)
        (1 / 10 * PivotedMatrix.largest searchSample.toDense 0) 0).map
        (fun b => (b.row, b.col)) = some (2, 2) := by decide +kernel
    have hb : (PivotedMatrix.start searchSample.toDense).bestPivot (.ofRank 3)
        (1 / 10 * PivotedMatrix.largest searchSample.toDense 0) 0 = some b := hb
    rw [hb] at hpos
    exact ⟨b, hb, Option.some.inj hpos⟩

end Searches

end ReducedSpace
