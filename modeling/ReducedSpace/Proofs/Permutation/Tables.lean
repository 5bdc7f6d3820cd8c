import ReducedSpace.Proofs.Permutation

/-!
# Tables that are written one at a time

The two tables of a permutation are written separately: one of them is given or gathered, the other
one is filled by a loop over it, and an extension appends to each. Here every operation is stated on
bare tables, with nothing that ties the two together. `Written` collects the pairs of tables that
any sequence of operations leads to, and these are exactly the tables of the permutations, so the
two never drift apart.
-/

namespace ReducedSpace.Permutation

/-- One step of filling the table of positions: position `i` is entered at the old index there,
unless that is out of range or is taken already. A place that is not taken holds `free`. -/
def enterPosition (free : Nat) (map table : Array Nat) (i : Nat) : Option (Array Nat) :=
  let old := map.getD i 0
  if map.size ≤ old ∨ table.getD old free ≠ free then none else some (table.setIfInBounds old i)

/-- The table of positions of a table of old indices, filled entry by entry. -/
def fillPositions (free : Nat) (map : Array Nat) : Option (Array Nat) :=
  (List.range map.size).foldlM (enterPosition free map) (Array.replicate map.size free)

section Filling

variable {free k : Nat} {map table next : Array Nat}

theorem enterPosition_eq_some_iff :
    enterPosition free map table k = some next ↔ map.getD k 0 < map.size ∧
      table.getD (map.getD k 0) free = free ∧ table.setIfInBounds (map.getD k 0) k = next := by
  unfold enterPosition
  generalize map.getD k 0 = old
  by_cases h : map.size ≤ old ∨ table.getD old free ≠ free
  · simp only [if_pos h]
    constructor
    · intro h
      cases h
    · rintro ⟨hlt, hfree, -⟩
      exact (h.elim (fun h => absurd hlt (Nat.not_lt.2 h)) fun h => h hfree).elim
  · simp only [if_neg h, Option.some.injEq]
    obtain ⟨hlt, hfree⟩ := not_or.1 h
    rw [Nat.not_le] at hlt
    exact ⟨fun heq => ⟨hlt, Decidable.not_not.1 hfree, heq⟩, fun heq => heq.2.2⟩

/-- The first `k` positions stand where the table of old indices has them. -/
structure Placed (map : Array Nat) (k : Nat) (table : Array Nat) : Prop where
  size_eq : table.size = map.size
  old_lt : ∀ i, i < k → map.getD i 0 < map.size
  position : ∀ i, i < k → table[map.getD i 0]? = some i

/-- A position that is entered displaces none of those before it. -/
theorem Placed.enterPosition (hfree : map.size ≤ free) (hk : k < map.size)
    (h : Placed map k table) (hnext : Permutation.enterPosition free map table k = some next) :
    Placed map (k + 1) next := by
  obtain ⟨hlt, hunused, rfl⟩ := enterPosition_eq_some_iff.1 hnext
  refine ⟨by rw [Array.size_setIfInBounds, h.size_eq], fun i hi => ?_, fun i hi => ?_⟩
  · obtain hi | rfl := Nat.lt_succ_iff_lt_or_eq.1 hi
    · exact h.old_lt i hi
    · exact hlt
  · obtain hi | rfl := Nat.lt_succ_iff_lt_or_eq.1 hi
    · have hposition := h.position i hi
      have hne : map.getD k 0 ≠ map.getD i 0 := by
        intro heq
        rw [heq, Array.getD_eq_getD_getElem?, hposition, Option.getD_some] at hunused
        omega
      rw [Array.getElem?_setIfInBounds_ne hne, hposition]
    · rw [Array.getElem?_setIfInBounds_self, if_pos (h.size_eq.symm ▸ hlt)]

/-- So the positions are placed as long as the loop goes on. -/
theorem placed_of_foldlM (hfree : map.size ≤ free) (hk : k ≤ map.size)
    (h : (List.range k).foldlM (enterPosition free map) (Array.replicate map.size free) =
      some table) : Placed map k table := by
  induction k generalizing table with
  | zero =>
    cases h
    exact ⟨Array.size_replicate, fun i hi => absurd hi (Nat.not_lt_zero i),
      fun i hi => absurd hi (Nat.not_lt_zero i)⟩
  | succ k ih =>
    rw [List.range_succ, List.foldlM_append] at h
    obtain ⟨before, hbefore, hstep⟩ := Option.bind_eq_some_iff.1 h
    rw [List.foldlM_cons] at hstep
    obtain ⟨after, hafter, hend⟩ := Option.bind_eq_some_iff.1 hstep
    cases hend
    exact (ih (by omega) hbefore).enterPosition hfree (by omega) hafter

/-- A loop that reaches the end has seen the table of a permutation. -/
theorem exists_olds_of_fillPositions (hfree : map.size ≤ free)
    (h : fillPositions free map = some table) : ∃ p : Permutation, p.olds = map := by
  have hplaced : Placed map map.size table := placed_of_foldlM hfree (Nat.le_refl _) h
  have hget (i : Nat) (hi : i < map.size) : map.getD i 0 = map[i] := by simp [hi]
  refine exists_olds_eq_iff.2 ⟨List.nodup_iff_getElem?_ne_getElem?.2 fun i j hij hj heq => ?_, ?_⟩
  · rw [Array.length_toList] at hj
    have hi : i < map.size := by omega
    rw [Array.getElem?_toList, Array.getElem?_toList, Array.getElem?_eq_getElem hi,
      Array.getElem?_eq_getElem hj, ← hget i hi, ← hget j hj] at heq
    have hposition := hplaced.position i hi
    rw [Option.some.inj heq, hplaced.position j hj] at hposition
    have := Option.some.inj hposition
    omega
  · intro old hold
    obtain ⟨i, hi, rfl⟩ := Array.mem_iff_getElem.1 (Array.mem_toList_iff.1 hold)
    rw [← hget i hi]
    exact hplaced.old_lt i hi

/-- Over the table of a permutation the loop goes on, and the places that are left are free. -/
theorem exists_foldlM_olds (p : Permutation) (free : Nat) (hk : k ≤ p.size) :
    ∃ table, (List.range k).foldlM (enterPosition free p.olds) (Array.replicate p.size free) =
      some table ∧ table.size = p.size ∧
        ∀ i, i < p.size → table[p.old i]? = some (if i < k then i else free) := by
  induction k with
  | zero =>
    refine ⟨Array.replicate p.size free, rfl, Array.size_replicate, fun i hi => ?_⟩
    rw [Array.getElem?_replicate, if_pos (p.old_lt_iff.2 hi), if_neg (Nat.not_lt_zero i)]
  | succ k ih =>
    obtain ⟨table, htable, hsize, hentries⟩ := ih (by omega)
    have hlt : p.old k < p.size := p.old_lt_iff.2 (by omega)
    have hold : p.olds.getD k 0 = p.old k := by
      rw [Array.getD_eq_getD_getElem?, getElem?_olds, if_pos (by omega), Option.getD_some]
    have hunused : table.getD (p.old k) free = free := by
      rw [Array.getD_eq_getD_getElem?, hentries k (by omega), if_neg (Nat.lt_irrefl k),
        Option.getD_some]
    have hstep : enterPosition free p.olds table k = some (table.setIfInBounds (p.old k) k) :=
      enterPosition_eq_some_iff.2 (hold.symm ▸ ⟨hlt, hunused, rfl⟩)
    refine ⟨table.setIfInBounds (p.old k) k, ?_, by rw [Array.size_setIfInBounds, hsize],
      fun i hi => ?_⟩
    · rw [List.range_succ, List.foldlM_append, htable]
      show ([k].foldlM (enterPosition free p.olds) table) = _
      rw [List.foldlM_cons, hstep]
      rfl
    · by_cases hik : i = k
      · subst hik
        rw [Array.getElem?_setIfInBounds_self, if_pos (hsize.symm ▸ hlt),
          if_pos (Nat.lt_succ_self i)]
      · rw [Array.getElem?_setIfInBounds_ne fun h => hik (p.old_injective h).symm, hentries i hi]
        simp only [show i < k + 1 ↔ i < k by omega]

/-- The loop fills the table of positions of a permutation. -/
theorem fillPositions_olds (p : Permutation) (free : Nat) :
    fillPositions free p.olds = some p.news := by
  obtain ⟨table, htable, hsize, hentries⟩ := p.exists_foldlM_olds free (Nat.le_refl p.size)
  refine htable.trans (congrArg some (Array.ext_getElem? fun j => ?_))
  rw [getElem?_news]
  by_cases hj : j < p.size
  · have hnew : p.new j < p.size := p.new_lt_iff.2 hj
    have hentry := hentries (p.new j) hnew
    rw [p.old_new, if_pos hnew] at hentry
    rw [if_pos hj, hentry]
  · rw [if_neg hj]
    exact Array.getElem?_eq_none (hsize.symm ▸ Nat.not_lt.1 hj)

/-- Reading a table gives up exactly where the loop does, and otherwise the loop finds the table of
positions. -/
theorem fillPositions_eq (hfree : map.size ≤ free) :
    fillPositions free map = (ofMap? map).map fun p => p.news := by
  cases hread : ofMap? map with
  | some p =>
    obtain rfl := ofMap?_eq_some_iff.1 hread
    exact p.fillPositions_olds free
  | none =>
    cases hfill : fillPositions free map with
    | none => rfl
    | some table =>
      obtain ⟨p, hp⟩ := exists_olds_of_fillPositions hfree hfill
      rw [ofMap?_eq_some_iff.2 hp] at hread
      cases hread

end Filling

/-- Reading a table succeeds exactly if it is a bijection of the indices below its size. -/
theorem isSome_ofMap?_iff {map : Array Nat} : (ofMap? map).isSome = true ↔
    Set.BijOn (fun i => map.getD i 0) (Set.Iio map.size) (Set.Iio map.size) := by
  rw [Option.isSome_iff_exists]
  simp only [ofMap?_eq_some_iff]
  constructor
  · rintro ⟨p, rfl⟩
    refine p.bijOn_old.congr fun i hi => ?_
    have hi : i < p.olds.size := hi
    rw [old]
    simp [hi]
  · intro h
    have hget (i : Nat) (hi : i < map.size) : map.getD i 0 = map[i] := by simp [hi]
    refine exists_olds_eq_iff.2 ⟨?_, fun old hold => ?_⟩
    · refine List.nodup_iff_injective_getElem.2 fun i j hij => Fin.ext ?_
      have hi : i.1 < map.size := by simp
      have hj : j.1 < map.size := by simp
      refine h.injOn hi hj ?_
      show map.getD i 0 = map.getD j 0
      rw [hget i hi, hget j hj]
      simpa using hij
    · obtain ⟨i, hi, rfl⟩ := Array.mem_iff_getElem.1 (Array.mem_toList_iff.1 hold)
      have hlt : map.getD i 0 < map.size := h.mapsTo hi
      rwa [hget i hi] at hlt

section Operations

theorem olds_identity (n : Nat) : (identity n).olds = Array.range n := by
  refine Array.ext_getElem? fun i => ?_
  rw [getElem?_olds, size_identity, old_identity, Array.getElem?_range]

theorem news_identity (n : Nat) : (identity n).news = Array.range n := by
  refine Array.ext_getElem? fun i => ?_
  rw [getElem?_news, size_identity, new_identity, Array.getElem?_range]

/-- A composite gathers the old indices of the outer permutation. -/
theorem olds_after {outer inner : Permutation} (h : outer.size = inner.size) :
    (outer.after inner h).olds = inner.olds.map fun i => outer.olds.getD i 0 := by
  refine Array.ext_getElem? fun i => ?_
  rw [getElem?_olds, size_after, old_after, Array.getElem?_map, getElem?_olds]
  by_cases hi : i < inner.size
  · have hold : inner.old i < outer.size := h ▸ inner.old_lt_iff.2 hi
    rw [if_pos hi, if_pos hi, Option.map_some, Array.getD_eq_getD_getElem?, getElem?_olds,
      if_pos hold, Option.getD_some]
  · rw [if_neg hi, if_neg hi, Option.map_none]

private theorem getElem?_append_range' {table : Array Nat} {f : Nat → Nat} {k n : Nat}
    (hk : k ≤ n) (htable : ∀ i, table[i]? = if i < k then some (f i) else none)
    (hf : ∀ i, k ≤ i → f i = i) (i : Nat) :
    (table ++ Array.range' k (n - k))[i]? = if i < n then some (f i) else none := by
  have hsize : table.size = k := by
    have hlast := htable k
    have hbefore (i : Nat) (hi : i < k) : i < table.size := by
      have := htable i
      rw [if_pos hi] at this
      exact (Array.getElem?_eq_some_iff.1 this).1
    rw [if_neg (Nat.lt_irrefl k), Array.getElem?_eq_none_iff] at hlast
    by_contra hne
    exact absurd (hbefore table.size (by omega)) (Nat.lt_irrefl _)
  rw [Array.getElem?_append, hsize]
  by_cases hik : i < k
  · rw [if_pos hik, htable, if_pos hik, if_pos (by omega)]
  · rw [if_neg hik, hf i (by omega), Array.getElem?_range']
    by_cases hin : i < n
    · rw [if_pos hin, if_pos (by omega)]
      congr 1
      omega
    · rw [if_neg hin, if_neg (by omega)]

/-- An extension appends the new indices to both tables. -/
theorem olds_extend (p : Permutation) {n : Nat} (h : p.size ≤ n) :
    (p.extend n h).olds = p.olds ++ Array.range' p.size (n - p.size) := by
  refine Array.ext_getElem? fun i => ?_
  rw [getElem?_append_range' h p.getElem?_olds (fun i => p.old_of_size_le), getElem?_olds,
    size_extend, old_extend]

theorem news_extend (p : Permutation) {n : Nat} (h : p.size ≤ n) :
    (p.extend n h).news = p.news ++ Array.range' p.size (n - p.size) := by
  refine Array.ext_getElem? fun i => ?_
  rw [getElem?_append_range' h p.getElem?_news (fun i => p.new_of_size_le), getElem?_news,
    size_extend, new_extend]

end Operations

/-- The pairs of tables that the operations on permutations write, in any combination. -/
inductive Written : Array Nat → Array Nat → Prop
  /-- A table that is given, with the positions that the loop enters. -/
  | read (free : Nat) {map table : Array Nat} (size_le : map.size ≤ free)
      (filled : fillPositions free map = some table) : Written map table
  | identity (n : Nat) : Written (Array.range n) (Array.range n)
  /-- The inverse exchanges the tables. -/
  | inverse {olds news : Array Nat} (h : Written olds news) : Written news olds
  /-- A composite gathers old indices and enters their positions, without looking at the tables of
  positions that are there. -/
  | compose {outer outerNews inner innerNews : Array Nat} (ho : Written outer outerNews)
      (hi : Written inner innerNews) (size_eq : outer.size = inner.size) :
      Written (inner.map fun i => outer.getD i 0)
        (positions (inner.map fun i => outer.getD i 0))
  /-- An extension appends to each table. -/
  | extend {olds news : Array Nat} (n : Nat) (h : Written olds news) (size_le : olds.size ≤ n) :
      Written (olds ++ Array.range' olds.size (n - olds.size))
        (news ++ Array.range' olds.size (n - olds.size))

/-- What is written are the tables of a permutation, and those of every permutation are. -/
theorem written_iff {olds news : Array Nat} :
    Written olds news ↔ ∃ p : Permutation, p.olds = olds ∧ p.news = news := by
  constructor
  · intro h
    induction h with
    | read free size_le filled =>
      rw [fillPositions_eq size_le] at filled
      obtain ⟨p, hp, rfl⟩ := Option.map_eq_some_iff.1 filled
      exact ⟨p, ofMap?_eq_some_iff.1 hp, rfl⟩
    | identity n => exact ⟨Permutation.identity n, olds_identity n, news_identity n⟩
    | inverse h ih =>
      obtain ⟨p, rfl, rfl⟩ := ih
      exact ⟨p.inverse, rfl, rfl⟩
    | compose ho hi size_eq iho ihi =>
      obtain ⟨p, rfl, rfl⟩ := iho
      obtain ⟨q, rfl, rfl⟩ := ihi
      exact ⟨p.after q size_eq, olds_after size_eq, olds_after size_eq ▸ (positions_olds _).symm⟩
    | extend n h size_le ih =>
      obtain ⟨p, rfl, rfl⟩ := ih
      exact ⟨p.extend n size_le, p.olds_extend size_le, p.news_extend size_le⟩
  · rintro ⟨p, rfl, rfl⟩
    exact .read p.size (Nat.le_refl p.size) (p.fillPositions_olds p.size)

/-- Two tables that undo each other, in both orders. -/
structure InverseTables (olds news : Array Nat) : Prop where
  size_eq : news.size = olds.size
  new_of_old : ∀ i, i < olds.size → ∃ j, j < olds.size ∧ olds[i]? = some j ∧ news[j]? = some i
  old_of_new : ∀ j, j < olds.size → ∃ i, i < olds.size ∧ news[j]? = some i ∧ olds[i]? = some j

theorem inverseTables (p : Permutation) : InverseTables p.olds p.news := by
  have hold (i : Nat) (hi : i < p.size) : p.olds[i]? = some (p.old i) := by
    rw [getElem?_olds, if_pos hi]
  have hnew (j : Nat) (hj : j < p.size) : p.news[j]? = some (p.new j) := by
    rw [getElem?_news, if_pos hj]
  refine ⟨p.size_news, fun i hi => ?_, fun j hj => ?_⟩
  · exact ⟨p.old i, p.old_lt_iff.2 hi, hold i hi, (p.olds_iff_news _ _).1 (hold i hi)⟩
  · exact ⟨p.new j, p.new_lt_iff.2 hj, hnew j hj, (p.olds_iff_news _ _).2 (hnew j hj)⟩

/-- Whatever operations wrote them, the tables undo each other. -/
theorem Written.inverseTables {olds news : Array Nat} (h : Written olds news) :
    InverseTables olds news := by
  obtain ⟨p, rfl, rfl⟩ := written_iff.1 h
  exact p.inverseTables

end ReducedSpace.Permutation
