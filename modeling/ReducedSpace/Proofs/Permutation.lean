import Mathlib.Data.List.Perm.Subperm
import Mathlib.Data.List.Nodup
import Mathlib.Data.Set.Function
import Mathlib.Order.Interval.Set.Defs
import ReducedSpace.Permutation

/-!
# Tables that are permutations

Reading a table of old indices succeeds exactly when the table is a bijection: its entries are in
range and none is repeated. That every index then occurs is the pigeonhole principle.
-/

namespace ReducedSpace.Permutation

/-- The entries of a table of old indices are what the permutation does to the positions. -/
theorem getElem?_olds (p : Permutation) (i : Nat) :
    p.olds[i]? = if i < p.size then some (p.old i) else none := by
  rw [size, old]
  by_cases h : i < p.olds.size <;> simp [h]

theorem getElem?_news (p : Permutation) (j : Nat) :
    p.news[j]? = if j < p.size then some (p.new j) else none := by
  have hs := p.size_news
  rw [size, new]
  by_cases h : j < p.olds.size
  · have h' : j < p.news.size := hs ▸ h
    simp [h, h']
  · have h' : ¬j < p.news.size := hs ▸ h
    simp [h, h']

theorem lt_of_mem_olds {p : Permutation} {j : Nat} (h : j ∈ p.olds) : j < p.size := by
  obtain ⟨i, hi⟩ := Array.mem_iff_getElem?.1 h
  rw [getElem?_olds] at hi
  split at hi
  · rename_i hlt
    cases hi
    exact p.old_lt_iff.2 hlt
  · cases hi

theorem lt_of_mem_news {p : Permutation} {i : Nat} (h : i ∈ p.news) : i < p.size := by
  obtain ⟨j, hj⟩ := Array.mem_iff_getElem?.1 h
  rw [getElem?_news] at hj
  split at hj
  · rename_i hlt
    cases hj
    exact p.new_lt_iff.2 hlt
  · cases hj

theorem old_injective (p : Permutation) {i j : Nat} (h : p.old i = p.old j) : i = j := by
  have := congrArg p.new h
  simpa using this

/-- A permutation is a bijection of the indices below its size. -/
theorem bijOn_old (p : Permutation) : Set.BijOn p.old (Set.Iio p.size) (Set.Iio p.size) := by
  refine ⟨fun i hi => p.old_lt_iff.2 hi, fun i _ j _ h => p.old_injective h, fun j hj => ?_⟩
  exact ⟨p.new j, p.new_lt_iff.2 hj, p.old_new j⟩

private theorem positions_prefix (p : Permutation) {k : Nat} (hk : k ≤ p.size) :
    let table := (List.range k).foldl (fun table i => table.setIfInBounds (p.olds.getD i 0) i)
      (Array.replicate p.olds.size 0)
    table.size = p.size ∧ ∀ i, i < k → table[p.old i]? = some i := by
  induction k with
  | zero => exact ⟨by simp [size], fun i hi => absurd hi (Nat.not_lt_zero i)⟩
  | succ k ih =>
    obtain ⟨hsize, hfound⟩ := ih (by omega)
    have hold : p.olds.getD k 0 = p.old k := by
      rw [Array.getD_eq_getD_getElem?, getElem?_olds, if_pos (by omega), Option.getD_some]
    have hlt : p.old k < p.size := p.old_lt_iff.2 (by omega)
    rw [List.range_succ, List.foldl_append, List.foldl_cons, List.foldl_nil, hold]
    refine ⟨by rw [Array.size_setIfInBounds, hsize], fun i hi => ?_⟩
    by_cases hik : i = k
    · subst hik
      rw [Array.getElem?_setIfInBounds_self, if_pos (hsize ▸ hlt)]
    · rw [Array.getElem?_setIfInBounds_ne fun h => hik (p.old_injective h).symm]
      exact hfound i (by omega)

/-- The table of positions that is computed from the old indices is the inverse table. -/
theorem positions_olds (p : Permutation) : positions p.olds = p.news := by
  obtain ⟨hsize, hfound⟩ := p.positions_prefix (Nat.le_refl p.size)
  apply Array.ext_getElem?
  intro j
  rw [getElem?_news]
  by_cases hj : j < p.size
  · have hnew : p.new j < p.size := p.new_lt_iff.2 hj
    have := hfound (p.new j) hnew
    rw [p.old_new] at this
    rw [if_pos hj]
    exact this
  · rw [if_neg hj]
    exact Array.getElem?_eq_none (Nat.not_lt.1 (hsize ▸ hj))

/-- Reading a table answers the permutation with that table, whenever there is one. -/
theorem ofMap?_eq_some_iff {map : Array Nat} {p : Permutation} :
    ofMap? map = some p ↔ p.olds = map := by
  constructor
  · intro h
    unfold ofMap? at h
    dsimp only at h
    split at h
    · cases h
      rfl
    · cases h
  · rintro rfl
    unfold ofMap?
    dsimp only
    rw [dif_pos]
    · exact congrArg some (ext_olds rfl)
    · have htable := p.positions_olds
      refine ⟨htable ▸ p.size_news, fun i => ?_, fun j => ?_⟩
      · rw [htable]
        exact (p.olds_iff_news _ _).1 (Array.getElem?_eq_getElem i.isLt)
      · refine (p.olds_iff_news _ _).2 ?_
        rw [← htable]
        exact Array.getElem?_eq_getElem j.isLt

/-- The old indices are all indices in some order. -/
theorem olds_perm (p : Permutation) : p.olds.toList.Perm (List.range p.size) := by
  have hnodup : p.olds.toList.Nodup := by
    rw [List.nodup_iff_getElem?_ne_getElem?]
    intro i j hij hj heq
    rw [Array.getElem?_toList, Array.getElem?_toList, getElem?_olds, getElem?_olds] at heq
    have hj' : j < p.size := by simpa [size] using hj
    rw [if_pos hj', if_pos (by omega)] at heq
    have := p.old_injective (Option.some.inj heq)
    omega
  have hsub : p.olds.toList ⊆ List.range p.size := fun j hj =>
    List.mem_range.2 (lt_of_mem_olds (Array.mem_toList_iff.1 hj))
  exact (hnodup.subperm hsub).perm_of_length_le (by simp [size])

/-- A table is a permutation exactly when its entries are in range and none is repeated. -/
theorem exists_olds_eq_iff {map : Array Nat} :
    (∃ p : Permutation, p.olds = map) ↔ map.toList.Nodup ∧ ∀ j ∈ map.toList, j < map.size := by
  constructor
  · rintro ⟨p, rfl⟩
    refine ⟨p.olds_perm.nodup_iff.2 List.nodup_range, fun j hj => ?_⟩
    exact List.mem_range.1 (p.olds_perm.mem_iff.1 hj)
  · rintro ⟨hnodup, hlt⟩
    have hperm : map.toList.Perm (List.range map.size) := by
      have hsub : map.toList ⊆ List.range map.size := fun j hj => List.mem_range.2 (hlt j hj)
      exact (hnodup.subperm hsub).perm_of_length_le (by simp)
    have hget : ∀ k (hk : k < map.toList.length), map.getD k 0 = map.toList[k] := by
      intro k hk
      have hk' : k < map.size := by simpa using hk
      simp [hk']
    refine ⟨ofInverses map.size (fun i => map.getD i 0) (fun j => map.toList.idxOf j) ?_ ?_,
      tabulate_getD map 0⟩
    · intro i hi
      rw [hget i (by simpa using hi)]
      exact ⟨hlt _ (List.getElem_mem _), hnodup.idxOf_getElem i _⟩
    · intro j hj
      have hmem : j ∈ map.toList := hperm.mem_iff.2 (List.mem_range.2 hj)
      have hidx : map.toList.idxOf j < map.toList.length := List.idxOf_lt_length_iff.2 hmem
      rw [hget _ hidx]
      exact ⟨by simpa using hidx, List.getElem_idxOf hidx⟩

/-- Two permutations of the same indices that agree from position `r` on. In front of it they hold
the same indices, in any order. -/
structure AgreeFrom (p q : Permutation) (r : Nat) : Prop where
  size_eq : p.size = q.size
  old_eq : ∀ k, r ≤ k → p.old k = q.old k

section AgreeFrom

variable {p q : Permutation} {r i : Nat}

theorem AgreeFrom.symm (h : p.AgreeFrom q r) : q.AgreeFrom p r :=
  ⟨h.size_eq.symm, fun k hk => (h.old_eq k hk).symm⟩

theorem AgreeFrom.new_eq (h : p.AgreeFrom q r) (hi : r ≤ p.new i) : q.new i = p.new i := by
  have hold : q.old (p.new i) = i := by
    rw [← h.old_eq _ hi, old_new]
  calc q.new i = q.new (q.old (p.new i)) := by rw [hold]
    _ = p.new i := q.new_old _

theorem AgreeFrom.new_lt_iff (h : p.AgreeFrom q r) : p.new i < r ↔ q.new i < r := by
  constructor
  · intro hi
    by_contra hq
    have := h.symm.new_eq (Nat.not_lt.1 hq)
    omega
  · intro hi
    by_contra hp
    have := h.new_eq (Nat.not_lt.1 hp)
    omega

end AgreeFrom

end ReducedSpace.Permutation
