import ReducedSpace.Proofs.Exact.Product

/-!
# Magnitudes

The largest magnitude of the entries of a vector or a matrix is gathered by a fold that starts at
zero. It bounds every entry, it is attained unless it is zero, and it vanishes exactly for zero.
-/

namespace ReducedSpace

variable {K : Type} [ExactScalar K]

section Fold

variable {β : Type} {f : β → K}

/-- A largest magnitude is at least what it starts with. -/
theorem le_foldl_max (l : List β) (f : β → K) (s : K) :
    s ≤ l.foldl (fun acc b => Scalar.max acc (Scalar.abs (f b))) s := by
  induction l generalizing s with
  | nil => exact le_refl s
  | cons b l ih => exact le_trans (le_max_left _ _) (ih _)

/-- And at least every magnitude. -/
theorem abs_le_foldl_max {l : List β} {b : β} (hb : b ∈ l) (s : K) :
    |f b| ≤ l.foldl (fun acc b => Scalar.max acc (Scalar.abs (f b))) s := by
  induction l generalizing s with
  | nil => cases hb
  | cons c l ih =>
    rcases List.mem_cons.1 hb with rfl | hb
    · exact le_trans (le_max_right _ _) (le_foldl_max l f _)
    · exact ih hb _

/-- It is one of them. -/
theorem foldl_max_attained (l : List β) (f : β → K) (s : K) :
    l.foldl (fun acc b => Scalar.max acc (Scalar.abs (f b))) s = s ∨
      ∃ b ∈ l, l.foldl (fun acc b => Scalar.max acc (Scalar.abs (f b))) s = |f b| := by
  induction l generalizing s with
  | nil => exact .inl rfl
  | cons b l ih =>
    rw [List.foldl_cons]
    rcases ih (Scalar.max s (Scalar.abs (f b))) with h | ⟨c, hc, h⟩
    · rcases max_choice s |f b| with hmax | hmax
      · exact .inl (h.trans hmax)
      · exact .inr ⟨b, List.mem_cons_self, h.trans hmax⟩
    · exact .inr ⟨c, List.mem_cons_of_mem _ hc, h⟩

end Fold

theorem normInf_eq_foldl (x : Array K) :
    Vec.normInf x = x.toList.foldl (fun acc v => Scalar.max acc (Scalar.abs v)) 0 := by
  rw [Vec.normInf]
  rw [Array.foldl_toList]

/-- The norm vanishes exactly for the zero vector. -/
theorem normInf_eq_zero_iff {x : Array K} :
    Vec.normInf x = 0 ↔ ∀ i, i < x.size → x.getD i 0 = 0 := by
  rw [normInf_eq_foldl]
  constructor
  · intro h i hi
    have hmem : x.getD i 0 ∈ x.toList := by
      simp [hi]
    have hle := abs_le_foldl_max (f := fun v => v) hmem 0
    rw [h] at hle
    exact abs_eq_zero.1 (le_antisymm hle (abs_nonneg _))
  · intro h
    rcases foldl_max_attained x.toList (fun v => v) 0 with h0 | ⟨v, hv, hval⟩
    · exact h0
    · obtain ⟨i, hi, rfl⟩ := List.mem_iff_getElem.1 hv
      have hi' : i < x.size := by simpa using hi
      have := h i hi'
      rw [hval]
      simpa [hi'] using this

/-- The largest magnitude of a sparse matrix is gathered over its triplets. -/
theorem maxAbs_eq_foldl {α : Type} [Scalar α] (a : SparseMatrix α) :
    a.maxAbs = a.toTriplets.foldl (fun acc t => Scalar.max acc (Scalar.abs t.2.2)) 0 := by
  have hcolumns : a.columns.toList = (List.range a.cols).map a.column := by
    refine List.ext_getElem (by simp [a.size_columns]) fun j hj _ => ?_
    have hj' : j < a.columns.size := by simpa using hj
    simp [SparseMatrix.column, hj']
  rw [SparseMatrix.maxAbs]
  rw [SparseMatrix.toTriplets]
  rw [← Array.foldl_toList, hcolumns, List.foldl_map, List.foldl_flatMap]
  simp only [List.foldl_map]

/-- A largest magnitude is not negative. -/
theorem maxAbs_nonneg (a : SparseMatrix K) : 0 ≤ a.maxAbs := by
  rw [maxAbs_eq_foldl]
  exact le_foldl_max _ _ 0

/-- No stored entry is larger than the largest magnitude. -/
theorem abs_le_maxAbs {a : SparseMatrix K} {i j : ℕ} {v : K} (h : a.find? i j = some v) :
    |v| ≤ a.maxAbs := by
  rw [maxAbs_eq_foldl]
  have hmem : (i, j, v) ∈ a.toTriplets := SparseMatrix.mem_toTriplets_iff.2 h
  exact abs_le_foldl_max (f := fun t : ℕ × ℕ × K => t.2.2) hmem 0

/-- The largest magnitude does not grow if all entries come from another matrix. -/
theorem maxAbs_le_of_find? {a b : SparseMatrix K}
    (h : ∀ i j v, b.find? i j = some v → ∃ i' j', a.find? i' j' = some v) :
    b.maxAbs ≤ a.maxAbs := by
  rcases foldl_max_attained b.toTriplets (fun t => t.2.2) 0 with hzero | ⟨t, ht, hval⟩
  · rw [maxAbs_eq_foldl b, hzero]
    exact maxAbs_nonneg a
  · obtain ⟨i', j', hfind⟩ := h _ _ _ (SparseMatrix.mem_toTriplets_iff.1 ht)
    rw [maxAbs_eq_foldl b, hval]
    exact abs_le_maxAbs hfind

end ReducedSpace
