import ReducedSpace.Proofs.Basis.SparseLu

/-!
# The product of sparse factors

A program may append the multipliers of a column to a list instead of inserting them. It visits the
rows in ascending order, so the lists are the stored factors, and they ascend behind the diagonal.
In exact arithmetic the tolerance only decides whether factors are accepted: without a zero pivot
they are triangles that multiply to the block.
-/

namespace ReducedSpace.SparseLu

section Listed

variable {α : Type}

/-- Factors whose columns and rows are lists of entries, in an order that is not promised. -/
structure Listed (α : Type) where
  lowerCols : Array (List (Nat × α))
  upperRows : Array (List (Nat × α))
  diagonal : Array α
  deriving DecidableEq

/-- The entries of factors as they are stored. -/
def listed (f : SparseLu α) : Listed α :=
  ⟨f.lowerCols.map SparseVec.entries, f.upperRows.map SparseVec.entries, f.diagonal⟩

variable [Scalar α]

/-- Eliminates the value of row `i` in column `k` and puts its multiplier at the end of a list. -/
def appendRow (upper : SparseVec α) (pivot : α) (k : Nat) (s : ActiveMatrix α × List (Nat × α))
    (i : Nat) : ActiveMatrix α × List (Nat × α) :=
  let (a, lower) := s
  let l := a.value i k / pivot
  let a := a.blank i k
  if Scalar.isZero l then (a, lower)
  else
    (upper.entries.foldl (fun a e => update a i e.1 (a.value i e.1 - l * e.2)) a,
      lower ++ [(i, l)])

/-- Eliminates with the pivots from `k` on and lists the multipliers as they come. -/
def listFrom (tol : α) : (steps k : Nat) → ActiveMatrix α → Listed α →
    Except (SolverError α) (Listed α)
  | 0, _, _, f => .ok f
  | steps + 1, k, a, f =>
    let pivot := a.value k k
    let upper := (a.row k).erase k
    if Scalar.lt tol (Scalar.abs pivot) then
      let below := (a.column k).indices.filter fun i => decide (k < i)
      let (a, lower) := below.foldl (appendRow upper pivot k) (a, [])
      listFrom tol steps (k + 1) a
        ⟨f.lowerCols.push lower, f.upperRows.push upper.entries, f.diagonal.push pivot⟩
    else .error (.numericallySingular k (Scalar.abs pivot))

/-- Factors a square block into lists of entries. -/
def listFactors (refactorTol : α) (block : SparseMatrix α) :
    Except (SolverError α) (Listed α) :=
  listFrom (refactorTol * block.maxAbs) block.rows 0 (.ofSparse block) ⟨#[], #[], #[]⟩

omit [Scalar α] in
/-- An entry behind all others is stored at the end. -/
theorem entries_insert_of_lt {v : SparseVec α} {i : Nat} (h : ∀ e ∈ v.entries, e.1 < i) (w : α) :
    (v.insert i w).entries = v.entries ++ [(i, w)] := by
  have hupsert : ∀ l : List (Nat × α), (∀ e ∈ l, e.1 < i) →
      SparseVec.upsert i (fun _ => w) l = l ++ [(i, w)] := by
    intro l hl
    induction l with
    | nil => rfl
    | cons e l ih =>
      obtain ⟨he, hl⟩ := List.forall_mem_cons.1 hl
      rw [SparseVec.upsert, if_neg (by omega), if_neg (by omega), ih hl, List.cons_append]
  exact hupsert v.entries h

/-- Rows that are visited in ascending order append their multipliers. -/
theorem entries_eliminateRows {upper : SparseVec α} {pivot : α} {k : Nat} {is : List Nat}
    (his : is.Pairwise (· < ·)) {a : ActiveMatrix α} {lower : SparseVec α}
    (hlower : ∀ e ∈ lower.entries, ∀ i ∈ is, e.1 < i) :
    is.foldl (appendRow upper pivot k) (a, lower.entries) =
      ((is.foldl (eliminateRow upper pivot k) (a, lower)).1,
        (is.foldl (eliminateRow upper pivot k) (a, lower)).2.entries) := by
  induction is generalizing a lower with
  | nil => rfl
  | cons i is ih =>
    obtain ⟨hi, his⟩ := List.pairwise_cons.1 his
    have hbefore : ∀ e ∈ lower.entries, e.1 < i := fun e he => hlower e he i List.mem_cons_self
    have hafter : ∀ e ∈ lower.entries, ∀ i' ∈ is, e.1 < i' := fun e he i' hi' =>
      hlower e he i' (List.mem_cons_of_mem _ hi')
    rw [List.foldl_cons, List.foldl_cons, appendRow, eliminateRow]
    split
    · exact ih his hafter
    · rw [← entries_insert_of_lt hbefore]
      refine ih his fun e he i' hi' => ?_
      rw [entries_insert_of_lt hbefore, List.mem_append, List.mem_singleton] at he
      rcases he with he | rfl
      · exact hafter e he i' hi'
      · exact hi i' hi'

/-- Appending to lists builds the same factors. -/
theorem listFrom_eq (tol : α) (steps k : Nat) (a : ActiveMatrix α) (f : SparseLu α) :
    listFrom tol steps k a f.listed = (factorFrom tol steps k a f).map listed := by
  induction steps generalizing k a f with
  | zero => rfl
  | succ steps ih =>
    have hascending : ((a.column k).indices.filter fun i => decide (k < i)).Pairwise (· < ·) :=
      (List.pairwise_map.2 (a.column k).sorted).filter _
    have hempty : ∀ e ∈ (SparseVec.empty : SparseVec α).entries,
        ∀ i ∈ (a.column k).indices.filter fun i => decide (k < i), e.1 < i :=
      fun e he => nomatch he
    have hbelow : ((a.column k).indices.filter fun i => decide (k < i)).foldl
        (appendRow ((a.row k).erase k) (a.value k k) k) (a, []) = _ :=
      entries_eliminateRows hascending hempty
    rw [listFrom, factorFrom]
    dsimp only
    split
    · rw [hbelow, ← ih]
      simp only [listed, push, Array.map_push]
    · rfl

/-- A program that appends the multipliers of a column lists the stored factors. -/
theorem listFactors_eq (refactorTol : α) (block : SparseMatrix α) :
    listFactors refactorTol block = (factor refactorTol block).map listed := by
  have hempty : (empty : SparseLu α).listed = ⟨#[], #[], #[]⟩ := by simp [listed, empty]
  rw [listFactors, factor, ← hempty]
  exact listFrom_eq _ _ _ _ empty

/-- The indices of the listed entries ascend, after `k` and below `r`. -/
def AscendsBetween (k r : Nat) (entries : List (Nat × α)) : Prop :=
  (entries.map Prod.fst).Pairwise (· < ·) ∧ ∀ e ∈ entries, k < e.1 ∧ e.1 < r

/-- Listed factors with `r` pivots: there are as many columns of `L` and rows of `U`, and those at
`k` list ascending indices between `k` and `r`. -/
structure Listed.Triangular (f : Listed α) (r : Nat) : Prop where
  size_lowerCols : f.lowerCols.size = r
  size_upperRows : f.upperRows.size = r
  size_diagonal : f.diagonal.size = r
  lower_ascends : ∀ k, k < r → AscendsBetween k r (f.lowerCols.getD k [])
  upper_ascends : ∀ k, k < r → AscendsBetween k r (f.upperRows.getD k [])

omit [Scalar α] in
private theorem ascendsBetween_entries {v : SparseVec α} {k r : Nat}
    (h : ∀ i, v.contains i = true → k < i ∧ i < r) : AscendsBetween k r v.entries :=
  ⟨List.pairwise_map.2 v.sorted,
    fun e he => h e.1 (SparseVec.mem_indices_iff.1 (List.mem_map_of_mem he))⟩

omit [Scalar α] in
/-- The listed factors are triangular as well. -/
theorem Triangular.listed {f : SparseLu α} {r : Nat} (h : f.Triangular r r) :
    f.listed.Triangular r := by
  have hentries (columns : Array (SparseVec α)) (k : Nat) :
      (columns.map SparseVec.entries).getD k [] = (columns.getD k .empty).entries := by
    by_cases hk : k < columns.size
    · simp [hk]
    · simp [hk, SparseVec.empty]
  refine ⟨by simp [SparseLu.listed, h.size_lowerCols], by simp [SparseLu.listed, h.size_upperRows],
    h.size_diagonal, fun k _ => ?_, fun k _ => ?_⟩
  · rw [SparseLu.listed, hentries]
    exact ascendsBetween_entries (h.lower_lt k)
  · rw [SparseLu.listed, hentries]
    exact ascendsBetween_entries (h.upper_lt k)

end Listed

section Tolerance

variable {α : Type} [Scalar α] {tol tol' : α} {a : ActiveMatrix α} {f g : SparseLu α} {k : Nat}

/-- Further steps leave the pivots of the steps so far. -/
theorem diagonal_factorFrom {steps : Nat} (h : factorFrom tol steps k a f = .ok g) {t : Nat}
    (ht : t < f.diagonal.size) : g.diagonal.getD t 0 = f.diagonal.getD t 0 := by
  induction steps generalizing k a f with
  | zero =>
    cases h
    rfl
  | succ steps ih =>
    rw [factorFrom] at h
    dsimp only at h
    split at h
    · rw [ih h (by simp only [push, Array.size_push]; omega)]
      simp only [push, getD_push, if_neg (Nat.ne_of_lt ht)]
    · cases h

/-- The tolerance only decides whether the factors are accepted. -/
theorem factorFrom_of_lt {steps : Nat} (h : factorFrom tol steps k a f = .ok g)
    (hsize : f.diagonal.size = k)
    (habove : ∀ t, t < k + steps → Scalar.lt tol' (Scalar.abs (g.diagonal.getD t 0)) = true) :
    factorFrom tol' steps k a f = .ok g := by
  induction steps generalizing k a f with
  | zero => exact h
  | succ steps ih =>
    have hpivot := habove k (by omega)
    rw [factorFrom] at h ⊢
    dsimp only at h ⊢
    split at h
    · rw [diagonal_factorFrom h (by simp [push, hsize])] at hpivot
      simp only [push, getD_push, hsize, if_true] at hpivot
      rw [if_pos hpivot]
      exact ih h (by simp [push, hsize]) fun t ht => habove t (by omega)
    · cases h

end Tolerance

section Exact

open Finset Elimination

variable {K : Type} [ExactScalar K] {f : SparseLu K} {refactorTol : K} {block : SparseMatrix K}

/-- The unit lower triangle of sparse factors. -/
def lowerEntry (f : SparseLu K) (i t : ℕ) : K := if i = t then 1 else (f.lowerCol t).value i

/-- The upper triangle of sparse factors. -/
def upperEntry (f : SparseLu K) (t j : ℕ) : K :=
  if t = j then f.diagonal.getD t 0 else (f.upperRow t).value j

/-- Factors without a zero pivot are those of a factorization without tolerance. -/
theorem factor_of_diagonal (h : factor refactorTol block = .ok f)
    (hdiagonal : ∀ t, t < block.rows → f.diagonal.getD t 0 ≠ 0) : factor 0 block = .ok f := by
  refine factorFrom_of_lt h rfl fun t ht => ?_
  rw [Nat.zero_add] at ht
  rw [Scalar.lt_iff, zero_mul, Scalar.abs_eq]
  exact abs_pos.2 (hdiagonal t ht)

/-- A tolerance that is not negative accepts no zero pivot. -/
theorem diagonal_ne_zero (htol : 0 ≤ refactorTol) (hsquare : block.cols = block.rows)
    (h : factor refactorTol block = .ok f) {t : ℕ} (ht : t < block.rows) :
    f.diagonal.getD t 0 ≠ 0 := by
  have hrecords := records_factor (rejectsZeros_of_nonneg htol block) hsquare h
  rw [hrecords.diagonal_eq t ht]
  exact hrecords.pivots t ht

/-- With pivots that are not zero they are triangles in the exact sense. -/
theorem Triangular.unitTriangles {r : ℕ} (h : f.Triangular r r)
    (hdiagonal : ∀ t, t < r → f.diagonal.getD t 0 ≠ 0) :
    UnitTriangles f.lowerEntry f.upperEntry r where
  lower_self t := if_pos rfl
  lower_zero i t hit := by
    rw [lowerEntry, if_neg (Nat.ne_of_lt hit)]
    refine value_eq_zero_of_not_contains (Bool.eq_false_iff.2 fun hi => ?_)
    exact absurd (h.lower_lt t i hi).1 (Nat.not_lt.2 (Nat.le_of_lt hit))
  upper_zero t j hjt := by
    rw [upperEntry, if_neg (Nat.ne_of_gt hjt)]
    refine value_eq_zero_of_not_contains (Bool.eq_false_iff.2 fun hj => ?_)
    exact absurd (h.upper_lt t j hj).1 (Nat.not_lt.2 (Nat.le_of_lt hjt))
  upper_self t ht := by
    rw [upperEntry, if_pos rfl]
    exact hdiagonal t ht

/-- Factors record the triangles of the elimination. -/
theorem Records.entries_eq {a : ℕ → ℕ → K} {r : ℕ} (h : f.Records a r r)
    (hf : UnitTriangles f.lowerEntry f.upperEntry r) {t : ℕ} (ht : t < r) :
    (∀ i, i < r → f.lowerEntry i t = lower a i t) ∧
      ∀ j, j < r → f.upperEntry t j = upper a t j := by
  refine ⟨fun i hi => ?_, fun j hj => ?_⟩
  · rcases Nat.lt_trichotomy i t with hlt | rfl | hgt
    · rw [hf.lower_zero i t hlt, lower_eq_zero h.pivots ht hlt]
    · rw [hf.lower_self, lower_self h.pivots ht]
    · rw [lowerEntry, if_neg (Nat.ne_of_gt hgt), h.lower_eq t i ht hgt hi]
  · rcases Nat.lt_trichotomy j t with hlt | rfl | hgt
    · rw [hf.upper_zero t j hlt, upper_eq_zero h.pivots ht hlt]
    · rw [upperEntry, if_pos rfl, h.diagonal_eq j ht]
    · rw [upperEntry, if_neg (Nat.ne_of_lt hgt), h.upper_eq t j ht hgt hj]

/-- Without a zero pivot the factors are triangles that multiply to the block. -/
theorem product_factor (hsquare : block.cols = block.rows) (h : factor refactorTol block = .ok f)
    (hdiagonal : ∀ t, t < block.rows → f.diagonal.getD t 0 ≠ 0) :
    UnitTriangles f.lowerEntry f.upperEntry block.rows ∧
      ∀ i j, i < block.rows → j < block.rows →
        triangleProduct f.lowerEntry f.upperEntry block.rows i j = block.entry i j := by
  have hunit := (triangular_factor hsquare h).unitTriangles hdiagonal
  have hrecords := records_factor (rejectsZeros_of_nonneg le_rfl block) hsquare
    (factor_of_diagonal h hdiagonal)
  refine ⟨hunit, fun i j hi hj => ?_⟩
  rw [triangleProduct, ← sum_factors hrecords.pivots hi j]
  refine sum_congr rfl fun t ht => ?_
  obtain ⟨hlower, hupper⟩ := hrecords.entries_eq hunit (mem_range.1 ht)
  rw [hlower i hi, hupper j hj]

end Exact

end ReducedSpace.SparseLu
