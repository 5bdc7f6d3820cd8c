import ReducedSpace.Proofs.Permutation.Tables
import ReducedSpace.Proofs.Sparse.Selection
import ReducedSpace.Proofs.Guarded.Access

/-!
# Permutations with guarded accesses

A table of indices is inverted by a loop that enters each position at the index listed there, so
every listed index needs a place. The table of a permutation lists its own indices: it is inverted,
read and composed without leaving the tables.
-/

namespace ReducedSpace.Guarded

variable {α : Type} [Scalar α]

/-- The positions at which the indices below `size` are listed, later ones over earlier ones; `free`
stands for an index that is not listed. -/
def invert (free size : Nat) (indices : Array Nat) : Checked (Array Nat) :=
  (List.range indices.size).foldlM (fun table k => do write table (← read indices k) k)
    (Array.replicate size free)

/-- Demands that the position that a table has for an old index leads back to it. -/
def leadsBack (olds news : Array Nat) (i : Nat) : Checked Unit := do
  let position ← read news i
  let back ← read olds position
  Checked.require (back == i) .index

/-- The permutation with a table of old indices. The table is inverted, and every old index must be
found again at its position. -/
def bijection (olds : Array Nat) : Checked Permutation := do
  let news ← invert 0 olds.size olds
  (List.range news.size).foldlM (fun _ i => leadsBack olds news i) ()
  match Permutation.ofMap? olds with
  | some p => return p
  | none => .error .index

/-- Exchanges two positions of a permutation, which must be in range. -/
def exchange (p : Permutation) (i j : Nat) : Checked Permutation :=
  if i < p.size ∧ j < p.size then .ok (p.swap i j) else .error .index

/-- The composite of two permutations, whose table is read off the table of the outer one. -/
def compose (outer inner : Permutation) : Checked Permutation := do
  Checked.sameLength outer.size inner.size
  bijection (← pick outer.olds inner.olds)

/-- Undoes the permutation of a vector. -/
def applyInverse (p : Permutation) (y : Array α) : Checked (Array α) := do
  Checked.sameLength p.size y.size
  pick y p.news

/-- A list of positions in range can be inverted. -/
theorem invert_eq (free : Nat) {n : Nat} {indices : Array Nat} (h : ∀ i ∈ indices, i < n) :
    invert free n indices = .ok (SparseMatrix.lastPositions free n indices) := by
  refine foldlM_eq_ok (P := fun table => table.size = n) Array.size_replicate
    fun table htable k hk => ?_
  have hk : k < indices.size := List.mem_range.1 hk
  have hplace : indices.getD k 0 < table.size := by
    have hmem : indices.getD k 0 ∈ indices := by simp [hk]
    exact htable.symm ▸ h _ hmem
  rw [read_eq_ok hk 0, ok_bind]
  exact ⟨write_eq_ok hplace k, Array.size_setIfInBounds.trans htable⟩

/-- The table of a permutation is a bijection, and its inverse leads back to every old index. -/
theorem bijection_eq (p : Permutation) : bijection p.olds = .ok p := by
  have hinvert : invert 0 p.olds.size p.olds = .ok p.news := by
    rw [invert_eq 0 (n := p.olds.size) fun i hi => Permutation.lt_of_mem_olds hi]
    exact congrArg Except.ok p.positions_olds
  have hback : (List.range p.news.size).foldlM (fun _ i => leadsBack p.olds p.news i) () =
      .ok () := by
    refine (foldlM_eq_ok_of_forall (g := fun _ _ => ()) (fun _ i hi => ?_) ()).trans rfl
    have hi : i < p.news.size := List.mem_range.1 hi
    have hposition : p.news.getD i i < p.olds.size :=
      p.new_lt_iff.2 (Nat.lt_of_lt_of_eq hi p.size_news)
    have hold : (p.olds.getD (p.news.getD i i) (p.news.getD i i) == i) = true :=
      beq_iff_eq.2 (p.old_new i)
    rw [leadsBack]
    rw [read_eq_ok hi i, ok_bind, read_eq_ok hposition (p.news.getD i i), ok_bind, hold]
    rfl
  rw [bijection]
  rw [hinvert, ok_bind, hback, ok_bind, Permutation.ofMap?_eq_some_iff.2 rfl]
  rfl

/-- Two positions in range can be exchanged. -/
theorem exchange_eq {p : Permutation} {i j : Nat} (hi : i < p.size) (hj : j < p.size) :
    exchange p i j = .ok (p.swap i j) :=
  if_pos ⟨hi, hj⟩

/-- Permutations of one length are composed within their tables, and others refused. -/
theorem compose_eq (outer inner : Permutation) : compose outer inner = outer.compose inner := by
  rw [compose, Permutation.compose]
  by_cases h : outer.size = inner.size
  · have hlt : ∀ i ∈ inner.olds, i < outer.olds.size := fun i hi =>
      Nat.lt_of_lt_of_eq (Permutation.lt_of_mem_olds hi) h.symm
    rw [dif_pos h, h, Checked.sameLength_self, ok_bind, pick_eq_ok hlt 0, ok_bind,
      ← Permutation.olds_after h, bijection_eq]
  · rw [dif_neg h, Checked.sameLength, decide_eq_false h]
    rfl

/-- So are vectors permuted back. -/
theorem applyInverse_eq (p : Permutation) (y : Array α) :
    applyInverse p y = p.applyInverse y := by
  refine sameLength_bind fun hy => (pick_eq_ok (fun i hi => ?_) 0).trans (congrArg Except.ok ?_)
  · exact hy ▸ Permutation.lt_of_mem_news hi
  · refine Array.ext_getElem? fun i => ?_
    rw [Permutation.scatter, getElem?_tabulate, Array.getElem?_map, p.getElem?_news]
    split <;> rfl

end ReducedSpace.Guarded
