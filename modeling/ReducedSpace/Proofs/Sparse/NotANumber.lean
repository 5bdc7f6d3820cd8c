import ReducedSpace.Proofs.Machine.SpecialValues
import ReducedSpace.Operator

/-!
# Vectors with components that are no numbers

The largest magnitude of a vector is gathered by a fold that skips every NaN and keeps every
infinity. A product with a sparse matrix, in contrast, hands a NaN on to every entry for which a
value is stored in its row.
-/

namespace ReducedSpace

variable {α : Type} [Scalar α]

namespace Vec

/-- The components that are numbers. -/
def numbers (x : Array α) : Array α := x.filter fun v => !Scalar.isNaN v

/-- No component is a number. -/
def AllNaN (x : Array α) : Prop := ∀ v ∈ x, Scalar.isNaN v = true

/-- An array is full of NaNs if all its entries are. -/
theorem allNaN_of_getD {x : Array α} (h : ∀ i, i < x.size → Scalar.isNaN (x.getD i 0) = true) :
    AllNaN x := by
  intro v hv
  obtain ⟨i, hi, rfl⟩ := Array.mem_iff_getElem.1 hv
  have hnan := h i hi
  rwa [Array.getD_eq_getD_getElem?, Array.getElem?_eq_getElem hi, Option.getD_some] at hnan

/-- And then every entry in range is one. -/
theorem AllNaN.getD {x : Array α} (h : AllNaN x) {i : Nat} (hi : i < x.size) :
    Scalar.isNaN (x.getD i 0) = true := by
  rw [Array.getD_eq_getD_getElem?, Array.getElem?_eq_getElem hi, Option.getD_some]
  exact h _ (Array.getElem_mem hi)

/-- Some component is infinite. -/
def HasInfinite (x : Array α) : Prop :=
  ∃ v ∈ x, Scalar.isFinite v = false ∧ Scalar.isNaN v = false

end Vec

/-- The absolute value of a number. -/
def IsMagnitude (x : α) : Prop := ∃ v : α, Scalar.isNaN v = false ∧ x = Scalar.abs v

section Fold

variable [SpecialValues α] {β : Type}

/-- Zero is a magnitude. -/
theorem isMagnitude_zero : IsMagnitude (0 : α) :=
  ⟨0, SpecialValues.isNaN_zero, SpecialValues.abs_zero.symm⟩

/-- No magnitude is a NaN. -/
theorem IsMagnitude.isNaN {x : α} (h : IsMagnitude x) : Scalar.isNaN x = false := by
  obtain ⟨v, hv, rfl⟩ := h
  rw [SpecialValues.isNaN_abs, hv]

/-- The larger one of two magnitudes is one, even if the second is a NaN, which is skipped. -/
theorem IsMagnitude.max {x : α} (h : IsMagnitude x) (v : α) :
    IsMagnitude (Scalar.max x (Scalar.abs v)) := by
  cases hv : Scalar.isNaN v with
  | true =>
    rw [SpecialValues.max_of_isNaN h.isNaN ((SpecialValues.isNaN_abs v).trans hv)]
    exact h
  | false =>
    rcases SpecialValues.max_choice x (Scalar.abs v) with hmax | hmax <;> rw [hmax]
    · exact h
    · exact ⟨v, hv, rfl⟩

/-- A largest magnitude is a magnitude, also among values that are no numbers. -/
theorem isMagnitude_foldl (l : List β) (f : β → α) {s : α} (hs : IsMagnitude s) :
    IsMagnitude (l.foldl (fun acc b => Scalar.max acc (Scalar.abs (f b))) s) :=
  List.foldlRecOn l _ hs fun _ hacc b _ => hacc.max (f b)

/-- The fold skips what is not a number. -/
theorem foldl_max_filter (l : List α) {s : α} (hs : IsMagnitude s) :
    (l.filter fun v => !Scalar.isNaN v).foldl (fun acc v => Scalar.max acc (Scalar.abs v)) s =
      l.foldl (fun acc v => Scalar.max acc (Scalar.abs v)) s := by
  induction l generalizing s with
  | nil => rfl
  | cons v l ih =>
    cases hv : Scalar.isNaN v with
    | true =>
      rw [List.filter_cons_of_neg (by rw [hv]; decide), List.foldl_cons,
        SpecialValues.max_of_isNaN hs.isNaN ((SpecialValues.isNaN_abs v).trans hv)]
      exact ih hs
    | false =>
      rw [List.filter_cons_of_pos (by rw [hv]; rfl), List.foldl_cons, List.foldl_cons]
      exact ih (hs.max v)

/-- The fold keeps an infinity. -/
theorem foldl_max_infinity (l : List α) :
    l.foldl (fun acc v => Scalar.max acc (Scalar.abs v)) Scalar.infinity = Scalar.infinity :=
  List.foldlRecOn (motive := fun s : α => s = Scalar.infinity) l _ rfl fun s hs v _ => by
    rw [hs]
    exact SpecialValues.infinity_max _

/-- An infinite entry makes the largest magnitude infinite. -/
theorem foldl_max_of_infinite {l : List α} {s : α} (hs : IsMagnitude s)
    (h : ∃ v ∈ l, Scalar.isFinite v = false ∧ Scalar.isNaN v = false) :
    l.foldl (fun acc v => Scalar.max acc (Scalar.abs v)) s = Scalar.infinity := by
  obtain ⟨v, hv, hfinite, hnumber⟩ := h
  obtain ⟨before, later, rfl⟩ := List.append_of_mem hv
  obtain ⟨w, hw, hbefore⟩ := isMagnitude_foldl before (fun v => v) hs
  rw [List.foldl_append, List.foldl_cons, hbefore,
    SpecialValues.abs_of_infinite hfinite hnumber, SpecialValues.max_infinity hw]
  exact foldl_max_infinity later

end Fold

section Norm

variable [SpecialValues α] {x : Array α}

/-- A largest magnitude is a magnitude. -/
theorem isMagnitude_normInf (x : Array α) : IsMagnitude (Vec.normInf x) := by
  rw [Vec.normInf, ← Array.foldl_toList]
  exact isMagnitude_foldl x.toList (fun v => v) isMagnitude_zero

/-- It is that of the numbers alone. -/
theorem normInf_numbers (x : Array α) : Vec.normInf (Vec.numbers x) = Vec.normInf x := by
  rw [Vec.normInf, Vec.normInf, ← Array.foldl_toList, ← Array.foldl_toList, Vec.numbers,
    Array.toList_filter]
  exact foldl_max_filter x.toList isMagnitude_zero

/-- It is infinite if one of the entries is. -/
theorem normInf_of_hasInfinite (h : Vec.HasInfinite x) : Vec.normInf x = Scalar.infinity := by
  rw [Vec.normInf, ← Array.foldl_toList]
  obtain ⟨v, hv, hinfinite⟩ := h
  exact foldl_max_of_infinite isMagnitude_zero ⟨v, Array.mem_toList_iff.2 hv, hinfinite⟩

/-- And zero if none of them is a number. -/
theorem normInf_of_allNaN (h : Vec.AllNaN x) : Vec.normInf x = 0 := by
  have hempty : Vec.numbers x = #[] := by
    refine Array.filter_eq_empty_iff.2 fun v hv => ?_
    rw [h v hv]
    decide
  rw [← normInf_numbers, hempty]
  rfl

end Norm

/-- Adding values at listed positions leaves a NaN where one was and makes one where one is added. -/
theorem isNaN_foldl_modify [SpecialValues α] {β : Type} (l : List β) (position : β → Nat)
    (g : β → α) (y : Array α) {i : Nat} (hi : i < y.size)
    (h : Scalar.isNaN (y.getD i 0) = true ∨
      ∃ t ∈ l, position t = i ∧ Scalar.isNaN (g t) = true) :
    Scalar.isNaN
      ((l.foldl (fun y t => y.modify (position t) fun s => s + g t) y).getD i 0) = true := by
  induction l generalizing y with
  | nil =>
    rcases h with h | ⟨t, ht, -⟩
    · exact h
    · cases ht
  | cons t l ih =>
    refine ih _ (by rwa [Array.size_modify]) ?_
    rw [getD_modify]
    rcases h with h | ⟨t', ht', hposition, hnan⟩
    · left
      by_cases hcond : i = position t ∧ position t < y.size
      · rw [if_pos hcond, ← hcond.1]
        exact SpecialValues.isNaN_add (.inl h)
      · rw [if_neg hcond]
        exact h
    · rcases List.mem_cons.1 ht' with rfl | ht'
      · left
        rw [if_pos ⟨hposition.symm, hposition ▸ hi⟩]
        exact SpecialValues.isNaN_add (.inr hnan)
      · exact .inr ⟨t', ht', hposition, hnan⟩

namespace SparseMatrix

variable [SpecialValues α]

/-- Scaling by one leaves a NaN. -/
theorem isNaN_scaled_one {y : Array α} {i : Nat} (hi : i < y.size)
    (h : Scalar.isNaN (y.getD i 0) = true) : Scalar.isNaN ((scaled 1 y).getD i 0) = true := by
  rw [scaled, SpecialValues.isZero_one, if_neg Bool.false_ne_true]
  by_cases hone : Scalar.eq (1 : α) 1 = true
  · rw [if_pos hone]
    exact h
  · rw [if_neg hone]
    have hmap : (y.map fun v => v * 1).getD i 0 = y.getD i 0 * 1 := by
      rw [Array.getD_eq_getD_getElem?, Array.getElem?_map, Array.getD_eq_getD_getElem?]
      simp [hi]
    rw [hmap]
    exact SpecialValues.isNaN_mul (.inl h)

/-- An entry of a transposed product is a NaN if a value is stored where the argument is one. -/
theorem mulVecTranspose_isNaN {a : SparseMatrix α} {x : Array α} (hx : x.size = a.rows) :
    ∃ y, a.mulVecTranspose 1 x = .ok y ∧ y.size = a.cols ∧ ∀ i j v, a.find? i j = some v →
      Scalar.isNaN (x.getD i 0) = true → Scalar.isNaN (y.getD j 0) = true := by
  let start : Array α := scaled 0 (Vec.zero a.cols)
  have hsize : start.size = a.cols := (size_scaled _ _).trans (Vec.size_zero _)
  refine ⟨a.accumulateTranspose 1 x start, mulAddTranspose_eq_ok hx (Vec.size_zero _) 1 0, ?_,
    fun i j v hfind hnan => ?_⟩
  · rw [size_accumulateTranspose, hsize]
  · obtain ⟨-, hj⟩ := lt_of_find?_eq_some hfind
    rw [accumulateTranspose, SpecialValues.isZero_one]
    exact isNaN_foldl_modify _ _ _ _ (hsize ▸ hj)
      (.inr ⟨(i, j, v), mem_toTriplets_iff.2 hfind, rfl, SpecialValues.isNaN_mul (.inr hnan)⟩)

/-- Adding a product to a vector leaves every NaN of the vector. -/
theorem mulAdd_isNaN {a : SparseMatrix α} {x y : Array α} (hx : x.size = a.cols)
    (hy : y.size = a.rows) :
    ∃ z, a.mulAdd x y 1 1 = .ok z ∧ z.size = a.rows ∧ ∀ i, i < a.rows →
      Scalar.isNaN (y.getD i 0) = true → Scalar.isNaN (z.getD i 0) = true := by
  have hsize : (scaled 1 y).size = a.rows := (size_scaled _ _).trans hy
  refine ⟨a.accumulate 1 x (scaled 1 y), mulAdd_eq_ok hx hy 1 1, ?_, fun i hi hnan => ?_⟩
  · rw [size_accumulate, hsize]
  · rw [accumulate, SpecialValues.isZero_one]
    exact isNaN_foldl_modify _ _ _ _ (hsize ▸ hi) (.inl (isNaN_scaled_one (hy ▸ hi) hnan))

end SparseMatrix

end ReducedSpace
