import ReducedSpace.Fault

/-!
# Sparse vectors

A sparse vector is a list of entries `(index, value)` in strictly increasing order of the index; the
order is part of the type. A stored value may be zero. Two sparse vectors are equal when they store
the same value at every index. An index set is a sparse vector that stores nothing but the indices.
-/

namespace ReducedSpace

/-- Entries in strictly increasing order of their indices. -/
structure SparseVec (β : Type) where
  entries : List (Nat × β)
  sorted : entries.Pairwise fun a b => a.1 < b.1

namespace SparseVec

variable {β γ : Type}

/-- A sparse vector is its list of entries. -/
theorem ext_entries {v w : SparseVec β} (h : v.entries = w.entries) : v = w := by
  cases v
  cases w
  simp_all

instance [DecidableEq β] : DecidableEq (SparseVec β) := fun v w =>
  if h : v.entries = w.entries then .isTrue (ext_entries h) else .isFalse fun hvw => h (hvw ▸ rfl)

/-- The vector without entries. -/
def empty : SparseVec β := ⟨[], .nil⟩

/-- The number of stored entries. -/
def size (v : SparseVec β) : Nat := v.entries.length

/-- Whether nothing is stored. -/
def isEmpty (v : SparseVec β) : Bool := v.entries.isEmpty

/-- The stored indices in increasing order. -/
def indices (v : SparseVec β) : List Nat := v.entries.map (·.1)

/-- The value stored at an index of a list of entries. -/
def lookup (i : Nat) : List (Nat × β) → Option β
  | [] => none
  | (k, w) :: rest => if k = i then some w else lookup i rest

/-- The value stored at an index. -/
def find? (v : SparseVec β) (i : Nat) : Option β := lookup i v.entries

/-- Whether a value is stored at an index. -/
def contains (v : SparseVec β) (i : Nat) : Bool := (v.find? i).isSome

/-- Stores `f` of the present value at index `i`, keeping the order. -/
def upsert (i : Nat) (f : Option β → β) : List (Nat × β) → List (Nat × β)
  | [] => [(i, f none)]
  | (k, w) :: rest =>
    if i < k then (i, f none) :: (k, w) :: rest
    else if i = k then (k, f (some w)) :: rest
    else (k, w) :: upsert i f rest

/-- The indices after an update are the one that is updated and those before. -/
theorem index_mem_upsert {i : Nat} {f : Option β → β} {l : List (Nat × β)} {e : Nat × β}
    (he : e ∈ upsert i f l) : e.1 = i ∨ ∃ e' ∈ l, e'.1 = e.1 := by
  induction l with
  | nil => simp_all [upsert]
  | cons head rest ih =>
    obtain ⟨k, w⟩ := head
    rw [upsert] at he
    split at he
    · rcases List.mem_cons.1 he with rfl | he
      · exact .inl rfl
      · exact .inr ⟨e, he, rfl⟩
    · split at he
      · rcases List.mem_cons.1 he with rfl | he
        · exact .inr ⟨(k, w), by simp, rfl⟩
        · exact .inr ⟨e, by simp [he], rfl⟩
      · rcases List.mem_cons.1 he with rfl | he
        · exact .inr ⟨_, by simp, rfl⟩
        · rcases ih he with h | ⟨e', he', h⟩
          · exact .inl h
          · exact .inr ⟨e', by simp [he'], h⟩

/-- An update keeps the entries sorted. -/
theorem upsert_sorted (i : Nat) (f : Option β → β) {l : List (Nat × β)}
    (h : l.Pairwise fun a b => a.1 < b.1) : (upsert i f l).Pairwise fun a b => a.1 < b.1 := by
  induction l with
  | nil => simp [upsert]
  | cons head rest ih =>
    obtain ⟨k, w⟩ := head
    obtain ⟨hk, hrest⟩ := List.pairwise_cons.1 h
    rw [upsert]
    split
    · rename_i hik
      refine List.pairwise_cons.2 ⟨fun e he => ?_, h⟩
      rcases List.mem_cons.1 he with rfl | he
      · exact hik
      · exact Nat.lt_trans hik (hk e he)
    · split
      · exact List.pairwise_cons.2 ⟨hk, hrest⟩
      · refine List.pairwise_cons.2 ⟨fun e he => ?_, ih hrest⟩
        rcases index_mem_upsert he with hei | ⟨e', he', hei⟩
        · show k < e.1
          omega
        · exact hei ▸ hk e' he'

/-- Stores `f` of the present value at an index. -/
def alter (v : SparseVec β) (i : Nat) (f : Option β → β) : SparseVec β :=
  ⟨upsert i f v.entries, upsert_sorted i f v.sorted⟩

/-- Stores a value at an index. -/
def insert (v : SparseVec β) (i : Nat) (w : β) : SparseVec β := v.alter i fun _ => w

/-- Keeps the entries that satisfy a condition. -/
def filter (v : SparseVec β) (keep : Nat × β → Bool) : SparseVec β :=
  ⟨v.entries.filter keep, v.sorted.filter _⟩

/-- Removes the entry at an index, if there is one. -/
def erase (v : SparseVec β) (i : Nat) : SparseVec β := v.filter fun e => e.1 != i

/-- The vector of length `n` that stores at each index what `f` gives. -/
def ofFn (n : Nat) (f : Nat → Option β) : SparseVec β where
  entries := (List.range n).filterMap fun i => (f i).map (i, ·)
  sorted := by
    refine List.Pairwise.filterMap _ (R := fun a b => a < b) ?_ List.pairwise_lt_range
    intro a a' haa b hb b' hb'
    simp only [Option.map_eq_some_iff] at hb hb'
    obtain ⟨_, _, rfl⟩ := hb
    obtain ⟨_, _, rfl⟩ := hb'
    exact haa

/-- Nothing is found in front of the first entry. -/
theorem lookup_eq_none_of_lt {i : Nat} {l : List (Nat × β)} (h : ∀ e ∈ l, i < e.1) :
    lookup i l = none := by
  induction l with
  | nil => rfl
  | cons e rest ih =>
    have := h e (by simp)
    have hne : ¬ e.1 = i := by omega
    simp only [lookup, hne, if_false]
    exact ih fun e he => h e (by simp [he])

/-- After an update the new value is found at its index and the others as before. -/
theorem lookup_upsert (i j : Nat) (f : Option β → β) {l : List (Nat × β)}
    (h : l.Pairwise fun a b => a.1 < b.1) :
    lookup j (upsert i f l) = if j = i then some (f (lookup i l)) else lookup j l := by
  induction l with
  | nil => grind [upsert, lookup]
  | cons head rest ih =>
    obtain ⟨k, w⟩ := head
    obtain ⟨hk, hrest⟩ := List.pairwise_cons.1 h
    have hbelow : i < k → lookup i ((k, w) :: rest) = none := fun hik =>
      lookup_eq_none_of_lt fun e he => by
        rcases List.mem_cons.1 he with rfl | he
        · exact hik
        · exact Nat.lt_trans hik (hk e he)
    have := ih hrest
    grind [upsert, lookup]

/-- After an index is filtered out, nothing is found there. -/
theorem lookup_filter_ne (i j : Nat) (l : List (Nat × β)) :
    lookup j (l.filter fun e => e.1 != i) = if j = i then none else lookup j l := by
  induction l with
  | nil => simp [lookup]
  | cons head rest ih => grind [lookup]

/-- In a sorted list the entries are what is found. -/
theorem mem_iff_lookup {i : Nat} {w : β} {l : List (Nat × β)}
    (h : l.Pairwise fun a b => a.1 < b.1) : (i, w) ∈ l ↔ lookup i l = some w := by
  induction l with
  | nil => simp [lookup]
  | cons head rest ih =>
    obtain ⟨k, x⟩ := head
    obtain ⟨hk, hrest⟩ := List.pairwise_cons.1 h
    have := ih hrest
    have := hk (i, w)
    grind [lookup]

/-- An altered entry depends on what was stored there; no other changes. -/
@[simp] theorem find?_alter (v : SparseVec β) (i j : Nat) (f : Option β → β) :
    (v.alter i f).find? j = if j = i then some (f (v.find? i)) else v.find? j :=
  lookup_upsert i j f v.sorted

@[simp] theorem find?_insert (v : SparseVec β) (i j : Nat) (w : β) :
    (v.insert i w).find? j = if j = i then some w else v.find? j := by
  simp [insert]

@[simp] theorem find?_erase (v : SparseVec β) (i j : Nat) :
    (v.erase i).find? j = if j = i then none else v.find? j :=
  lookup_filter_ne i j v.entries

@[simp] theorem find?_empty (j : Nat) : (empty : SparseVec β).find? j = none := rfl

/-- The entries of a vector are what is found in it. -/
theorem mem_entries_iff (v : SparseVec β) (i : Nat) (w : β) :
    (i, w) ∈ v.entries ↔ v.find? i = some w :=
  mem_iff_lookup v.sorted

/-- A vector that is built by a rule stores what the rule says, in range. -/
@[simp] theorem find?_ofFn (n : Nat) (f : Nat → Option β) (j : Nat) :
    (ofFn n f).find? j = if j < n then f j else none := by
  apply Option.ext
  intro w
  rw [← mem_entries_iff]
  simp only [ofFn, List.mem_filterMap, List.mem_range, Option.map_eq_some_iff, Prod.mk.injEq]
  split
  · constructor
    · rintro ⟨a, _, b, hb, rfl, rfl⟩
      exact hb
    · intro h
      exact ⟨j, by assumption, w, h, rfl, rfl⟩
  · constructor
    · rintro ⟨a, _, b, hb, rfl, rfl⟩
      contradiction
    · intro h
      cases h

/-- Two sparse vectors that store the same value at every index are equal. -/
theorem ext_find? {v w : SparseVec β} (h : ∀ i, v.find? i = w.find? i) : v = w := by
  apply ext_entries
  have hmem : ∀ e, e ∈ v.entries ↔ e ∈ w.entries := fun ⟨i, x⟩ => by
    rw [mem_entries_iff, mem_entries_iff, h]
  have hnd : ∀ u : SparseVec β, u.entries.Nodup := fun u => by
    refine u.sorted.imp ?_
    rintro a b hab rfl
    exact Nat.lt_irrefl _ hab
  refine List.Perm.eq_of_pairwise ?_ v.sorted w.sorted
    ((List.perm_ext_iff_of_nodup (hnd v) (hnd w)).2 hmem)
  intro a b _ _ hab hba
  omega

end SparseVec

/-- A finite set of naturals. -/
abbrev IndexSet : Type := SparseVec Unit

namespace IndexSet

/-- Puts an index into the set. -/
def add (s : IndexSet) (i : Nat) : IndexSet := s.insert i ()

end IndexSet

end ReducedSpace
