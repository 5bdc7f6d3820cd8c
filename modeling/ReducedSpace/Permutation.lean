import ReducedSpace.Vec

/-!
# Permutations

A permutation of `0 .. n - 1` is stored as two tables, one from the new position to the old index
and one from the old index to the new position. Both directions are part of the type, so the tables
of a permutation are inverse to each other by construction and taking the inverse swaps them.

As functions on the naturals `old` and `new` leave everything from `n` on in place. Applying the
permutation to a vector gathers: entry `i` of the result is entry `old i` of the argument.
-/

namespace ReducedSpace

/-- A bijection of `0 .. n - 1` with its inverse. -/
structure Permutation where
  /-- The old index at each new position. -/
  olds : Array Nat
  /-- The new position of each old index. -/
  news : Array Nat
  size_news : news.size = olds.size
  olds_iff_news : ∀ i j : Nat, olds[i]? = some j ↔ news[j]? = some i

namespace Permutation

/-- The table of the old positions determines a permutation; the other table is its inverse. -/
theorem ext_olds {p q : Permutation} (h : p.olds = q.olds) : p = q := by
  have hn : p.news = q.news := by
    apply Array.ext_getElem?
    intro j
    apply Option.ext
    intro i
    rw [← p.olds_iff_news, ← q.olds_iff_news, h]
  cases p
  cases q
  simp_all

instance : DecidableEq Permutation := fun p q =>
  if h : p.olds = q.olds then .isTrue (ext_olds h) else .isFalse fun hpq => h (hpq ▸ rfl)

/-- The number of indices that are permuted. -/
def size (p : Permutation) : Nat := p.olds.size

/-- The old index at position `i`. -/
def old (p : Permutation) (i : Nat) : Nat := p.olds.getD i i

/-- The position of the old index `i`. -/
def new (p : Permutation) (i : Nat) : Nat := p.news.getD i i

/-- Whether every index stays in place. -/
def isIdentity (p : Permutation) : Bool := (List.range p.size).all fun i => p.old i == i

/-- Positions in range are taken from positions in range, and no others are. -/
theorem old_lt_iff (p : Permutation) {i : Nat} : p.old i < p.size ↔ i < p.size := by
  rw [old, size]
  rw [Array.getD_eq_getD_getElem?]
  by_cases h : i < p.olds.size
  · have h' := (p.olds_iff_news i p.olds[i]).1 (by simp [h])
    have := (Array.getElem?_eq_some_iff.1 h').1
    have hs := p.size_news
    simp [h]
    omega
  · simp [h]

/-- Positions in range move to positions in range, and no others do. -/
theorem new_lt_iff (p : Permutation) {i : Nat} : p.new i < p.size ↔ i < p.size := by
  rw [new, size]
  rw [Array.getD_eq_getD_getElem?]
  have hs := p.size_news
  by_cases h : i < p.news.size
  · have h' := (p.olds_iff_news p.news[i] i).2 (by simp [h])
    have := (Array.getElem?_eq_some_iff.1 h').1
    simp [h]
    omega
  · simp [h]

/-- Positions beyond the tables stay where they are. -/
theorem old_of_size_le (p : Permutation) {i : Nat} (h : p.size ≤ i) : p.old i = i := by
  rw [size] at h
  rw [old]
  simp [h]

/-- So they do for the inverse table. -/
theorem new_of_size_le (p : Permutation) {i : Nat} (h : p.size ≤ i) : p.new i = i := by
  rw [size] at h
  rw [← p.size_news] at h
  rw [new]
  simp [h]

@[simp] theorem new_old (p : Permutation) (i : Nat) : p.new (p.old i) = i := by
  rw [new, old]
  rw [Array.getD_eq_getD_getElem?, Array.getD_eq_getD_getElem?]
  by_cases h : i < p.olds.size
  · have h' := (p.olds_iff_news i p.olds[i]).1 (by simp [h])
    simp [h, h']
  · have : ¬ i < p.news.size := by rw [p.size_news]; exact h
    simp [h, this]

@[simp] theorem old_new (p : Permutation) (i : Nat) : p.old (p.new i) = i := by
  rw [new, old]
  rw [Array.getD_eq_getD_getElem?, Array.getD_eq_getD_getElem?]
  by_cases h : i < p.news.size
  · have h' := (p.olds_iff_news p.news[i] i).2 (by simp [h])
    simp [h, h']
  · have : ¬ i < p.olds.size := by rw [← p.size_news]; exact h
    simp [h, this]

/-- The permutation with the given tables, from the two functions that they list. -/
def ofInverses (n : Nat) (f g : Nat → Nat) (hf : ∀ i, i < n → f i < n ∧ g (f i) = i)
    (hg : ∀ i, i < n → g i < n ∧ f (g i) = i) : Permutation where
  olds := tabulate n f
  news := tabulate n g
  size_news := by simp
  olds_iff_news i j := by
    rw [getElem?_tabulate, getElem?_tabulate]
    constructor
    · intro h
      split at h
      · rename_i hi
        cases h
        simp [hf i hi]
      · cases h
    · intro h
      split at h
      · rename_i hj
        cases h
        simp [hg j hj]
      · cases h

section Tables

variable {n : Nat} {f g : Nat → Nat} {hf : ∀ i, i < n → f i < n ∧ g (f i) = i}
  {hg : ∀ i, i < n → g i < n ∧ f (g i) = i}

/-- The tables have the requested length. -/
@[simp] theorem size_ofInverses : (ofInverses n f g hf hg).size = n := by
  simp [ofInverses, size]

/-- The old positions are those of `f` as far as the tables reach. -/
theorem old_ofInverses (i : Nat) : (ofInverses n f g hf hg).old i = if i < n then f i else i :=
  getD_tabulate n f i i

/-- The new positions are those of `g` as far as the tables reach. -/
theorem new_ofInverses (i : Nat) : (ofInverses n f g hf hg).new i = if i < n then g i else i :=
  getD_tabulate n g i i

end Tables

/-- A permutation is determined by its size and by what it does to every index. -/
theorem ext_old {p q : Permutation} (hs : p.size = q.size) (h : ∀ i, p.old i = q.old i) :
    p = q := by
  apply ext_olds
  apply Array.ext hs
  intro i hp hq
  have := h i
  unfold old at this
  simpa [hp, hq] using this

/-- The permutation that moves nothing. -/
def identity (n : Nat) : Permutation :=
  ofInverses n id id (fun _ h => ⟨h, rfl⟩) (fun _ h => ⟨h, rfl⟩)

/-- The table of positions of a map without repeats: later positions overwrite earlier ones. -/
def positions (map : Array Nat) : Array Nat :=
  (List.range map.size).foldl (fun table i => table.setIfInBounds (map.getD i 0) i)
    (Array.replicate map.size 0)

/-- The permutation with the given table of old indices, if the table is a bijection. -/
def ofMap? (map : Array Nat) : Option Permutation :=
  let table := positions map
  if h : table.size = map.size ∧ (∀ i : Fin map.size, table[map[i]]? = some i.val) ∧
      ∀ j : Fin table.size, map[table[j]]? = some j.val then
    some {
      olds := map
      news := table
      size_news := h.1
      olds_iff_news := fun i j => by
        constructor
        · intro hi
          obtain ⟨hlt, rfl⟩ := Array.getElem?_eq_some_iff.1 hi
          exact h.2.1 ⟨i, hlt⟩
        · intro hj
          obtain ⟨hlt, rfl⟩ := Array.getElem?_eq_some_iff.1 hj
          exact h.2.2 ⟨j, hlt⟩ }
  else none

/-- The permutation with the roles of old and new exchanged. -/
def inverse (p : Permutation) : Permutation where
  olds := p.news
  news := p.olds
  size_news := p.size_news.symm
  olds_iff_news i j := (p.olds_iff_news j i).symm

/-- First `outer`, then `inner` in the order that `outer` produced. -/
def after (outer inner : Permutation) (h : outer.size = inner.size) : Permutation :=
  ofInverses inner.size (fun i => outer.old (inner.old i)) (fun i => inner.new (outer.new i))
    (fun _ hi => ⟨h ▸ outer.old_lt_iff.2 (h ▸ inner.old_lt_iff.2 hi), by simp⟩)
    (fun _ hi => ⟨inner.new_lt_iff.2 (h ▸ outer.new_lt_iff.2 (h ▸ hi)), by simp⟩)

@[simp] theorem size_identity (n : Nat) : (identity n).size = n := by simp [identity]

@[simp] theorem old_identity (n i : Nat) : (identity n).old i = i := by
  simp [identity, old_ofInverses]

@[simp] theorem new_identity (n i : Nat) : (identity n).new i = i := by
  simp [identity, new_ofInverses]

@[simp] theorem size_inverse (p : Permutation) : p.inverse.size = p.size := p.size_news

@[simp] theorem old_inverse (p : Permutation) (i : Nat) : p.inverse.old i = p.new i := rfl

@[simp] theorem new_inverse (p : Permutation) (i : Nat) : p.inverse.new i = p.old i := rfl

/-- A composition is as long as its parts. -/
@[simp] theorem size_after {outer inner : Permutation} (h : outer.size = inner.size) :
    (outer.after inner h).size = inner.size := by
  simp [after]

/-- The old position in a composition: first through the inner permutation, then the outer one. -/
@[simp] theorem old_after {outer inner : Permutation} (h : outer.size = inner.size) (i : Nat) :
    (outer.after inner h).old i = outer.old (inner.old i) := by
  rw [after]
  rw [old_ofInverses]
  split
  · rfl
  · rw [inner.old_of_size_le (by omega), outer.old_of_size_le (by omega)]

/-- The new position in a composition is found in the opposite order. -/
@[simp] theorem new_after {outer inner : Permutation} (h : outer.size = inner.size) (i : Nat) :
    (outer.after inner h).new i = inner.new (outer.new i) := by
  rw [after]
  rw [new_ofInverses]
  split
  · rfl
  · rw [outer.new_of_size_le (by omega), inner.new_of_size_le (by omega)]

/-- The composite of two permutations of equal size, the outer one first. -/
def compose (outer inner : Permutation) : Checked Permutation :=
  if h : outer.size = inner.size then .ok (outer.after inner h) else .error .length

/-- A bound on positions that covers the tables is kept by the old positions. -/
theorem old_lt_of_lt (p : Permutation) {n i : Nat} (h : p.size ≤ n) (hi : i < n) :
    p.old i < n := by
  by_cases hp : i < p.size
  · exact Nat.lt_of_lt_of_le (p.old_lt_iff.2 hp) h
  · rw [p.old_of_size_le (by omega)]
    exact hi

/-- And by the new ones. -/
theorem new_lt_of_lt (p : Permutation) {n i : Nat} (h : p.size ≤ n) (hi : i < n) :
    p.new i < n := by
  by_cases hp : i < p.size
  · exact Nat.lt_of_lt_of_le (p.new_lt_iff.2 hp) h
  · rw [p.new_of_size_le (by omega)]
    exact hi

/-- The permutation of `0 .. n - 1` that leaves the indices from `p.size` on in place. -/
def extend (p : Permutation) (n : Nat) (h : p.size ≤ n) : Permutation :=
  ofInverses n p.old p.new (fun _ hi => ⟨p.old_lt_of_lt h hi, by simp⟩)
    (fun _ hi => ⟨p.new_lt_of_lt h hi, by simp⟩)

@[simp] theorem size_extend (p : Permutation) (n : Nat) (h : p.size ≤ n) :
    (p.extend n h).size = n := by
  simp [extend]

/-- An extension moves what it extends in the same way and leaves the positions behind it alone. -/
@[simp] theorem old_extend (p : Permutation) (n : Nat) (h : p.size ≤ n) (i : Nat) :
    (p.extend n h).old i = p.old i := by
  rw [extend]
  rw [old_ofInverses]
  split
  · rfl
  · rw [p.old_of_size_le (by omega)]

/-- The inverse of an extension extends the inverse. -/
@[simp] theorem new_extend (p : Permutation) (n : Nat) (h : p.size ≤ n) (i : Nat) :
    (p.extend n h).new i = p.new i := by
  rw [extend]
  rw [new_ofInverses]
  split
  · rfl
  · rw [p.new_of_size_le (by omega)]

/-- Extends a permutation to `n` indices, which must not be fewer than it has. -/
def extendIdentity (p : Permutation) (n : Nat) : Checked Permutation :=
  if h : p.size ≤ n then .ok (p.extend n h) else .error .length

/-- The function that exchanges two naturals. -/
def exchange (i j k : Nat) : Nat := if k = i then j else if k = j then i else k

/-- Exchanging two positions twice changes nothing. -/
@[simp] theorem exchange_exchange (i j k : Nat) : exchange i j (exchange i j k) = k := by
  unfold exchange
  grind

/-- The permutation that exchanges positions `i` and `j`; indices out of range exchange nothing. -/
def transposition (n i j : Nat) : Permutation :=
  if h : i < n ∧ j < n then
    have hlt : ∀ k, k < n → exchange i j k < n ∧ exchange i j (exchange i j k) = k := fun k hk => by
      refine ⟨?_, by simp⟩
      rw [exchange]
      grind
    ofInverses n (exchange i j) (exchange i j) hlt hlt
  else identity n

@[simp] theorem size_transposition (n i j : Nat) : (transposition n i j).size = n := by
  rw [transposition]
  split <;> simp

/-- A transposition of two positions in range is the exchange of them. -/
theorem old_transposition {n i j : Nat} (hi : i < n) (hj : j < n) (k : Nat) :
    (transposition n i j).old k = exchange i j k := by
  rw [transposition]
  rw [dif_pos ⟨hi, hj⟩, old_ofInverses]
  split
  · rfl
  · rw [exchange]
    rw [if_neg (by omega), if_neg (by omega)]

/-- The permutation with the old indices at positions `i` and `j` exchanged. -/
def swap (p : Permutation) (i j : Nat) : Permutation :=
  p.after (transposition p.size i j) (by simp)

@[simp] theorem size_swap (p : Permutation) (i j : Nat) : (p.swap i j).size = p.size := by
  simp [swap]

/-- A swap exchanges two entries of the table of old positions. -/
theorem old_swap (p : Permutation) {i j : Nat} (hi : i < p.size) (hj : j < p.size) (k : Nat) :
    (p.swap i j).old k = p.old (exchange i j k) := by
  simp [swap, old_transposition hi hj]

/-- The old index at position `i`, which must be in range. -/
def oldIndex (p : Permutation) (i : Nat) : Checked Nat :=
  if i < p.size then .ok (p.old i) else .error .index

/-- The position of the old index `i`, which must be in range. -/
def newIndex (p : Permutation) (i : Nat) : Checked Nat :=
  if i < p.size then .ok (p.new i) else .error .index

section Vectors

variable {α : Type} [Scalar α]

/-- The vector whose entry `i` is entry `old i` of `x`. -/
def gather (p : Permutation) (x : Array α) : Array α := tabulate p.size fun i => x.getD (p.old i) 0

/-- The vector whose entry `old i` is entry `i` of `y`. -/
def scatter (p : Permutation) (y : Array α) : Array α := tabulate p.size fun i => y.getD (p.new i) 0

/-- Permute a vector, which must have the size of the permutation. -/
def apply (p : Permutation) (x : Array α) : Checked (Array α) := do
  Checked.sameLength p.size x.size
  return p.gather x

/-- Undo the permutation of a vector, which must have the size of the permutation. -/
def applyInverse (p : Permutation) (y : Array α) : Checked (Array α) := do
  Checked.sameLength p.size y.size
  return p.scatter y

@[simp] theorem size_gather (p : Permutation) (x : Array α) : (p.gather x).size = p.size := by
  simp [gather]

/-- An entry of a gathered vector comes from its old position. -/
theorem getD_gather (p : Permutation) (x : Array α) (i : Nat) :
    (p.gather x).getD i 0 = if i < p.size then x.getD (p.old i) 0 else 0 :=
  getD_tabulate _ _ _ _

@[simp] theorem size_scatter (p : Permutation) (y : Array α) : (p.scatter y).size = p.size := by
  simp [scatter]

/-- An entry of a scattered vector comes from its new position. -/
theorem getD_scatter (p : Permutation) (y : Array α) (i : Nat) :
    (p.scatter y).getD i 0 = if i < p.size then y.getD (p.new i) 0 else 0 :=
  getD_tabulate _ _ _ _

end Vectors

end Permutation

end ReducedSpace
