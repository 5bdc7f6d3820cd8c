import Mathlib.Data.List.Nodup
import Mathlib.Data.List.Perm.Basic
import ReducedSpace.Proofs.Outcome
import ReducedSpace.Sparse.Matrix

/-!
# Triplets

The triplets of a matrix stand at different positions, so that the matrix is built again from any
reordering of them. An operation that moves the stored entries, each to a place of its own, is
therefore known by the moved triplets alone: `relocated` moves them by two partial maps of the
indices, and a matrix that stores exactly them is built from them. Explicit zeros are entries like
any other.
-/

namespace ReducedSpace.SparseMatrix

variable {α : Type}

/-- Where a triplet stands. -/
def position (t : Nat × Nat × α) : Nat × Nat := (t.1, t.2.1)

/-- No position is listed twice. -/
theorem nodup_position_toTriplets (a : SparseMatrix α) : (a.toTriplets.map position).Nodup := by
  rw [toTriplets, List.map_flatMap, List.nodup_flatMap]
  constructor
  · intro j _
    rw [List.map_map]
    refine List.pairwise_map.2 ((a.column j).sorted.imp fun {e e'} hlt heq => ?_)
    have hindex : e.1 = e'.1 := congrArg (fun t : Nat × Nat => t.1) heq
    omega
  · refine List.pairwise_lt_range.imp fun {j j'} hlt => ?_
    change List.Disjoint (List.map position _) (List.map position _)
    rw [List.map_map, List.map_map, List.disjoint_left]
    intro t ht ht'
    obtain ⟨e, -, rfl⟩ := List.mem_map.1 ht
    obtain ⟨e', -, heq⟩ := List.mem_map.1 ht'
    have hcol : j' = j := congrArg (fun t : Nat × Nat => t.2) heq
    omega

theorem nodup_toTriplets (a : SparseMatrix α) : a.toTriplets.Nodup :=
  List.Nodup.of_map _ a.nodup_position_toTriplets

/-- The triplets of a matrix in any order are all its entries, none of them twice. -/
theorem perm_toTriplets_iff {a : SparseMatrix α} {triplets : List (Nat × Nat × α)} :
    triplets.Perm a.toTriplets ↔ (triplets.map position).Nodup ∧
      ∀ t, t ∈ triplets ↔ a.find? t.1 t.2.1 = some t.2.2 := by
  constructor
  · intro h
    exact ⟨(h.map position).nodup_iff.2 a.nodup_position_toTriplets,
      fun t => h.mem_iff.trans mem_toTriplets_iff⟩
  · rintro ⟨hnodup, hmem⟩
    exact (List.perm_ext_iff_of_nodup (List.Nodup.of_map _ hnodup) a.nodup_toTriplets).2
      fun t => (hmem t).trans mem_toTriplets_iff.symm

section Building

variable [Add α]

/-- Entries added at positions of their own, where nothing is stored, are stored as they are. -/
theorem find?_foldl_addEntry {triplets : List (Nat × Nat × α)} {a : SparseMatrix α}
    (hnodup : (triplets.map position).Nodup)
    (hlt : ∀ t ∈ triplets, t.1 < a.rows ∧ t.2.1 < a.cols)
    (hfree : ∀ t ∈ triplets, a.find? t.1 t.2.1 = none) (i j : Nat) (v : α) :
    (triplets.foldl (fun a t => a.addEntry t.1 t.2.1 t.2.2) a).find? i j = some v ↔
      (i, j, v) ∈ triplets ∨ a.find? i j = some v := by
  induction triplets generalizing a with
  | nil => simp
  | cons t triplets ih =>
    obtain ⟨hfirst, hnodup⟩ := List.nodup_cons.1 hnodup
    obtain ⟨hrow, hcol⟩ := hlt t List.mem_cons_self
    have hne (t') (ht' : t' ∈ triplets) : ¬(t'.1 = t.1 ∧ t'.2.1 = t.2.1) := fun h =>
      hfirst (List.mem_map.2 ⟨t', ht', Prod.ext h.1 h.2⟩)
    have hadd (i' j' : Nat) : (a.addEntry t.1 t.2.1 t.2.2).find? i' j' =
        if i' = t.1 ∧ j' = t.2.1 then some t.2.2 else a.find? i' j' := by
      rw [find?_addEntry hrow hcol, hfree t List.mem_cons_self]
    rw [List.foldl_cons, ih hnodup, hadd, List.mem_cons]
    · by_cases h : i = t.1 ∧ j = t.2.1
      · obtain ⟨rfl, rfl⟩ := h
        rw [if_pos ⟨rfl, rfl⟩, hfree t List.mem_cons_self]
        constructor
        · rintro (hmem | heq)
          · exact .inl (.inr hmem)
          · exact .inl (.inl (by rw [← Option.some.inj heq]))
        · rintro ((heq | hmem) | h)
          · exact .inr (by rw [← heq])
          · exact .inl hmem
          · cases h
      · rw [if_neg h]
        have hnet : (i, j, v) ≠ t := by
          rintro rfl
          exact h ⟨rfl, rfl⟩
        rw [or_iff_right hnet]
    · intro t' ht'
      rw [rows_addEntry, cols_addEntry]
      exact hlt t' (List.mem_cons_of_mem _ ht')
    · intro t' ht'
      rw [hadd, if_neg (hne t' ht')]
      exact hfree t' (List.mem_cons_of_mem _ ht')

theorem size_foldl_addEntry (triplets : List (Nat × Nat × α)) (a : SparseMatrix α) :
    (triplets.foldl (fun a t => a.addEntry t.1 t.2.1 t.2.2) a).rows = a.rows ∧
      (triplets.foldl (fun a t => a.addEntry t.1 t.2.1 t.2.2) a).cols = a.cols := by
  induction triplets generalizing a with
  | nil => exact ⟨rfl, rfl⟩
  | cons t triplets ih =>
    obtain ⟨hrows, hcols⟩ := ih (a.addEntry t.1 t.2.1 t.2.2)
    exact ⟨hrows.trans (rows_addEntry ..), hcols.trans (cols_addEntry ..)⟩

/-- A matrix is built from its triplets in any order. -/
theorem ofTriplets_eq_ok {a : SparseMatrix α} {triplets : List (Nat × Nat × α)}
    (h : triplets.Perm a.toTriplets) : ofTriplets a.rows a.cols triplets = .ok a := by
  obtain ⟨hnodup, hmem⟩ := perm_toTriplets_iff.1 h
  have hlt (t) (ht : t ∈ triplets) : t.1 < a.rows ∧ t.2.1 < a.cols :=
    lt_of_find?_eq_some ((hmem t).1 ht)
  have hall : (triplets.all fun t => decide (t.1 < a.rows) && decide (t.2.1 < a.cols)) = true := by
    simpa [List.all_eq_true] using hlt
  rw [ofTriplets, if_pos hall]
  obtain ⟨hrows, hcols⟩ := size_foldl_addEntry triplets (empty a.rows a.cols)
  refine congrArg Except.ok (ext_find? hrows hcols fun i j => Option.ext fun v => ?_)
  have hstored := find?_foldl_addEntry (a := empty a.rows a.cols) hnodup hlt
    (fun t _ => find?_empty _ _ _ _) i j v
  rw [hstored, find?_empty, hmem]
  simp

end Building

section Relocation

/-- A triplet moved by two partial maps of the indices, if both say where to. -/
def relocate (row col : Nat → Option Nat) (t : Nat × Nat × α) : Option (Nat × Nat × α) :=
  (row t.1).bind fun i => (col t.2.1).map fun j => (i, j, t.2.2)

/-- The stored entries that are moved by two partial maps of the indices. -/
def relocated (a : SparseMatrix α) (row col : Nat → Option Nat) : List (Nat × Nat × α) :=
  a.toTriplets.filterMap (relocate row col)

/-- A map of indices that sends no two of them to one place. -/
def Separates (f : Nat → Option Nat) : Prop := ∀ i i' k, f i = some k → f i' = some k → i = i'

variable {row col : Nat → Option Nat}

theorem relocate_eq_some_iff {t t' : Nat × Nat × α} : relocate row col t = some t' ↔
    row t.1 = some t'.1 ∧ col t.2.1 = some t'.2.1 ∧ t.2.2 = t'.2.2 := by
  obtain ⟨i, j, v⟩ := t'
  rw [relocate, Option.bind_eq_some_iff]
  simp only [Option.map_eq_some_iff, Prod.mk.injEq]
  constructor
  · rintro ⟨i', hi, j', hj, rfl, rfl, hv⟩
    exact ⟨hi, hj, hv⟩
  · rintro ⟨hi, hj, hv⟩
    exact ⟨i, hi, j, hj, rfl, rfl, hv⟩

/-- If no two rows and no two columns go to one place, neither do two entries. The moved entries are
then the triplets of any matrix that stores them. -/
theorem relocated_perm {a b : SparseMatrix α} (hrow : Separates row) (hcol : Separates col)
    (hfind : ∀ i j v, b.find? i j = some v ↔
      ∃ i' j', row i' = some i ∧ col j' = some j ∧ a.find? i' j' = some v) :
    (a.relocated row col).Perm b.toTriplets := by
  have hmoved : (a.toTriplets.filterMap (relocate row col)).Nodup := by
    refine a.nodup_toTriplets.filterMap fun t t' moved ht ht' => ?_
    obtain ⟨hi, hj, hv⟩ := relocate_eq_some_iff.1 ht
    obtain ⟨hi', hj', hv'⟩ := relocate_eq_some_iff.1 ht'
    exact Prod.ext (hrow _ _ _ hi hi') (Prod.ext (hcol _ _ _ hj hj') (hv.trans hv'.symm))
  refine (List.perm_ext_iff_of_nodup hmoved b.nodup_toTriplets).2 fun t => ?_
  rw [mem_toTriplets_iff, hfind, List.mem_filterMap]
  simp only [relocate_eq_some_iff]
  constructor
  · rintro ⟨⟨i', j', v'⟩, hmem, hi, hj, rfl⟩
    exact ⟨i', j', hi, hj, mem_toTriplets_iff.1 hmem⟩
  · rintro ⟨i', j', hi, hj, hv⟩
    exact ⟨(i', j', t.2.2), mem_toTriplets_iff.2 hv, hi, hj, rfl⟩

/-- If every entry is moved, by maps of the indices that can be undone, the moved entries are the
triplets of the matrix that stores at each position what stood at the position it is moved from. -/
theorem map_perm_toTriplets {a b : SparseMatrix α} {row rowBack col colBack : Nat → Nat}
    (hrow : ∀ i, rowBack (row i) = i) (hrowBack : ∀ i, row (rowBack i) = i)
    (hcol : ∀ j, colBack (col j) = j) (hcolBack : ∀ j, col (colBack j) = j)
    (hfind : ∀ i j, b.find? i j = a.find? (rowBack i) (colBack j)) :
    (a.toTriplets.map fun t => (row t.1, col t.2.1, t.2.2)).Perm b.toTriplets := by
  have hinjective : Function.Injective fun t : Nat × Nat × α => (row t.1, col t.2.1, t.2.2) := by
    rintro ⟨i, j, v⟩ ⟨i', j', v'⟩ h
    obtain ⟨hi, hj, rfl⟩ : row i = row i' ∧ col j = col j' ∧ v = v' := by simpa using h
    rw [← hrow i, hi, hrow, ← hcol j, hj, hcol]
  refine (List.perm_ext_iff_of_nodup (a.nodup_toTriplets.map hinjective) b.nodup_toTriplets).2
    fun t => ?_
  rw [mem_toTriplets_iff, hfind, List.mem_map]
  constructor
  · rintro ⟨t, ht, rfl⟩
    dsimp only
    rw [hrow, hcol]
    exact mem_toTriplets_iff.1 ht
  · intro ht
    exact ⟨(rowBack t.1, colBack t.2.1, t.2.2), mem_toTriplets_iff.2 ht, by
      rw [hrowBack, hcolBack]⟩

end Relocation

end ReducedSpace.SparseMatrix
