import Mathlib
import ReducedSpace.Proofs.Basis.ActiveElimination
import ReducedSpace.Proofs.Basis.FactorShape
import ReducedSpace.Proofs.Exact.Factors
import ReducedSpace.Proofs.Exact.Substitution
import ReducedSpace.Proofs.Outcome
import ReducedSpace.Basis.SparseLu

/-!
# Sparse factors solve exactly

A factorization in natural order either returns the triangular factors of the block or stops at the
first pivot that the tolerance covers. The patterns that it keeps only grow, so what a column scan
misses is zero. The solves gather their products by columns or by rows; either way they are
substitutions in the factors.
-/

namespace ReducedSpace

open Finset Elimination

variable {K : Type} [ExactScalar K]

namespace SparseLu

open ActiveMatrix (Covered Puts)

section Values

/-- The update of a sparse factorization overwrites one value, so that the lemmas on a step of the
elimination apply to it. -/
theorem puts_update : Puts (update : ActiveMatrix K → ℕ → ℕ → K → ActiveMatrix K) where
  size_rows a i j v := by
    rw [update]
    split <;> simp
  value_eq hi j v i' j' := by
    rw [update]
    split
    · rename_i hzero
      rw [ActiveMatrix.value_blank, Scalar.isZero_iff.1 hzero]
    · exact ActiveMatrix.value_insert hi j v i' j'

/-- Eliminating a row keeps the number of rows. -/
theorem size_rows_eliminateRow (upper : SparseVec K) (pivot : K) (k : ℕ)
    (s : ActiveMatrix K × SparseVec K) (i : ℕ) :
    (eliminateRow upper pivot k s i).1.rows.size = s.1.rows.size := by
  unfold eliminateRow
  dsimp only
  split
  · simp
  · rw [ActiveMatrix.size_rows_foldl_put puts_update, ActiveMatrix.size_rows_blank]

/-- Eliminating a row subtracts a multiple of the pivot row and records the multiplier. -/
theorem value_eliminateRow {upper : SparseVec K} {k : ℕ} (hk : upper.contains k = false) (pivot : K)
    {a : ActiveMatrix K} (lower : SparseVec K) {i : ℕ} (hi : i < a.rows.size) :
    (∀ i' j, (eliminateRow upper pivot k (a, lower) i).1.value i' j =
      if i' = i then
        if j = k then 0 else a.value i j - a.value i k / pivot * upper.value j
      else a.value i' j) ∧
    (lower.value i = 0 → ∀ i', (eliminateRow upper pivot k (a, lower) i).2.value i' =
      if i' = i then a.value i k / pivot else lower.value i') := by
  have hi' : i < (a.blank i k).rows.size := by
    rw [ActiveMatrix.size_rows_blank]
    exact hi
  have huk : upper.value k = 0 := by
    rw [SparseVec.value]
    rw [SparseVec.find?_eq_none_of_not_contains hk]
    rfl
  unfold eliminateRow
  dsimp only
  split
  · rename_i hzero
    have hzero := Scalar.isZero_iff.1 hzero
    refine ⟨fun i' j => ?_, fun hl i' => ?_⟩
    · rw [ActiveMatrix.value_blank, hzero]
      by_cases hii : i' = i <;> by_cases hj : j = k <;> simp [hii, hj]
    · rw [hzero]
      by_cases hii : i' = i
      · rw [if_pos hii, hii, hl]
      · rw [if_neg hii]
  · refine ⟨fun i' j => ?_, fun _ i' => ?_⟩
    · have hlookup : (SparseVec.lookup j upper.entries).getD 0 = upper.value j := rfl
      rw [ActiveMatrix.value_foldl_put puts_update _ upper.sorted hi', hlookup,
        ActiveMatrix.value_blank, ActiveMatrix.value_blank]
      by_cases hii : i' = i <;> by_cases hj : j = k <;> simp [hii, hj, huk]
    · rw [SparseVec.value]
      rw [SparseVec.find?_insert]
      split
      · rfl
      · rfl

/-- After any number of rows, those are reduced and record their multipliers, and the others are as
before. -/
theorem value_eliminateRows {upper : SparseVec K} {k : ℕ} (hk : upper.contains k = false)
    (pivot : K) {is : List ℕ} (hnodup : is.Nodup) {a : ActiveMatrix K} {lower : SparseVec K}
    (his : ∀ i ∈ is, i < a.rows.size) (hlower : ∀ i ∈ is, lower.value i = 0) :
    (∀ i' j, (is.foldl (eliminateRow upper pivot k) (a, lower)).1.value i' j =
      if i' ∈ is then
        if j = k then 0 else a.value i' j - a.value i' k / pivot * upper.value j
      else a.value i' j) ∧
    ∀ i', (is.foldl (eliminateRow upper pivot k) (a, lower)).2.value i' =
      if i' ∈ is then a.value i' k / pivot else lower.value i' := by
  induction is generalizing a lower with
  | nil => simp
  | cons i is ih =>
    obtain ⟨hnot, hnodup⟩ := List.nodup_cons.1 hnodup
    obtain ⟨hi, his⟩ := List.forall_mem_cons.1 his
    obtain ⟨hli, hlower⟩ := List.forall_mem_cons.1 hlower
    obtain ⟨hvalue, hcol⟩ := value_eliminateRow hk pivot lower hi
    have hcol := hcol hli
    have hne : ∀ i' ∈ is, i' ≠ i := fun i' hi' h => hnot (h ▸ hi')
    have his' : ∀ i' ∈ is, i' < (eliminateRow upper pivot k (a, lower) i).1.rows.size := by
      intro i' hi'
      rw [size_rows_eliminateRow]
      exact his i' hi'
    have hlower' : ∀ i' ∈ is, (eliminateRow upper pivot k (a, lower) i).2.value i' = 0 := by
      intro i' hi'
      rw [hcol, if_neg (hne i' hi')]
      exact hlower i' hi'
    obtain ⟨hvalues, hcols⟩ := ih hnodup his' hlower'
    refine ⟨fun i' j => ?_, fun i' => ?_⟩
    · rw [List.foldl_cons, hvalues]
      simp only [hvalue]
      by_cases hii : i' = i
      · subst hii
        simp [hnot]
      · simp [hii]
    · rw [List.foldl_cons, hcols]
      simp only [hvalue, hcol]
      by_cases hii : i' = i
      · subst hii
        simp [hnot]
      · simp [hii]

end Values

section Factor

/-- The factors of the first `k` steps of the elimination of an `r × r` block. -/
structure Records (f : SparseLu K) (a : ℕ → ℕ → K) (r k : ℕ) : Prop where
  size_lowerCols : f.lowerCols.size = k
  size_upperRows : f.upperRows.size = k
  size_diagonal : f.diagonal.size = k
  pivots : NaturalPivots a k
  diagonal_eq : ∀ t, t < k → f.diagonal.getD t 0 = upper a t t
  upper_lt : ∀ t j, (f.upperRow t).contains j = true → t < j ∧ j < r
  lower_lt : ∀ t i, (f.lowerCol t).contains i = true → t < i ∧ i < r
  upper_eq : ∀ t j, t < k → t < j → j < r → (f.upperRow t).value j = upper a t j
  lower_eq : ∀ t i, t < k → t < i → i < r → (f.lowerCol t).value i = lower a i t

/-- What the first `k` steps of the elimination of an `r × r` block leave in its last rows. -/
structure Leaves (b : ActiveMatrix K) (a : ℕ → ℕ → K) (r k : ℕ) : Prop where
  covered : b.Covered r r
  le_col : ∀ i j, k ≤ i → (b.row i).contains j = true → k ≤ j
  value_eq : ∀ i j, k ≤ i → i < r → k ≤ j → j < r → b.value i j = natural a k i j

/-- Factors that record an elimination have triangular shape. -/
theorem Records.triangular {f : SparseLu K} {a : ℕ → ℕ → K} {r k : ℕ} (h : f.Records a r k) :
    f.Triangular k r :=
  ⟨h.size_lowerCols, h.size_upperRows, h.size_diagonal, h.lower_lt, h.upper_lt⟩

/-- What is left of the block lies behind the finished steps. -/
theorem Leaves.leftFrom {b : ActiveMatrix K} {a : ℕ → ℕ → K} {r k : ℕ} (h : Leaves b a r k) :
    LeftFrom b k r :=
  ⟨h.covered, h.le_col⟩

/-- Before the first step there is nothing to record. -/
theorem records_empty (a : ℕ → ℕ → K) (r : ℕ) : (empty : SparseLu K).Records a r 0 where
  size_lowerCols := rfl
  size_upperRows := rfl
  size_diagonal := rfl
  pivots t ht := absurd ht (Nat.not_lt_zero t)
  diagonal_eq t ht := absurd ht (Nat.not_lt_zero t)
  upper_lt := (triangular_empty r).upper_lt
  lower_lt := (triangular_empty r).lower_lt
  upper_eq t _ ht := absurd ht (Nat.not_lt_zero t)
  lower_eq t _ ht := absurd ht (Nat.not_lt_zero t)

/-- And the whole block is left. -/
theorem leaves_ofSparse {block : SparseMatrix K} (hsquare : block.cols = block.rows) :
    Leaves (.ofSparse block) block.entry block.rows 0 where
  covered := (leftFrom_ofSparse hsquare).covered
  le_col := (leftFrom_ofSparse hsquare).le_col
  value_eq i j _ _ _ _ := ActiveMatrix.value_ofSparse block i j

/-- A position without a value counts as zero. -/
theorem value_eq_zero_of_not_contains {v : SparseVec K} {i : ℕ}
    (h : v.contains i = false) : v.value i = 0 := by
  rw [SparseVec.value]
  rw [SparseVec.find?_eq_none_of_not_contains h]
  rfl

variable {a : ℕ → ℕ → K} {r k : ℕ}

private theorem Records.push {f : SparseLu K} (hf : f.Records a r k)
    (hpivot : natural a k k k ≠ 0) {low up : SparseVec K}
    (hup : ∀ j, up.contains j = true → k < j ∧ j < r)
    (hlow : ∀ i, low.contains i = true → k < i ∧ i < r)
    (hupper : ∀ j, k < j → j < r → up.value j = upper a k j)
    (hlower : ∀ i, k < i → i < r → low.value i = lower a i k) :
    (f.push low up (natural a k k k)).Records a r (k + 1) := by
  have htriangular := hf.triangular.push hlow hup (natural a k k k)
  have hdiagonal : ∀ t, (f.push low up (natural a k k k)).diagonal.getD t 0 =
      if t = k then natural a k k k else f.diagonal.getD t 0 :=
    fun t => hf.size_diagonal ▸ getD_push f.diagonal (natural a k k k) t 0
  refine ⟨htriangular.size_lowerCols, htriangular.size_upperRows, htriangular.size_diagonal,
    fun t ht => ?_, fun t ht => ?_, htriangular.upper_lt, htriangular.lower_lt,
    fun t j ht htj hj => ?_, fun t i ht hti hi => ?_⟩
  · rcases Nat.lt_succ_iff_lt_or_eq.1 ht with hlt | rfl
    · exact hf.pivots t hlt
    · exact hpivot
  · rw [hdiagonal]
    rcases Nat.lt_succ_iff_lt_or_eq.1 ht with hlt | rfl
    · rw [if_neg (Nat.ne_of_lt hlt), hf.diagonal_eq t hlt]
    · rw [if_pos rfl, upper]
  · rw [hf.triangular.upperRow_push]
    rcases Nat.lt_succ_iff_lt_or_eq.1 ht with hlt | rfl
    · rw [if_neg (Nat.ne_of_lt hlt), hf.upper_eq t j hlt htj hj]
    · rw [if_pos rfl, hupper j htj hj]
  · rw [hf.triangular.lowerCol_push]
    rcases Nat.lt_succ_iff_lt_or_eq.1 ht with hlt | rfl
    · rw [if_neg (Nat.ne_of_lt hlt), hf.lower_eq t i hlt hti hi]
    · rw [if_pos rfl, hlower i hti hi]

/-- A step with a nonzero pivot extends the factors and leaves the next remainder. -/
private theorem Leaves.step {b : ActiveMatrix K} {f : SparseLu K} (hb : Leaves b a r k)
    (hf : f.Records a r k) (hk : k < r) (hpivot : b.value k k ≠ 0) :
    let below := (b.column k).indices.filter fun i => decide (k < i)
    let next := below.foldl (eliminateRow ((b.row k).erase k) (b.value k k) k) (b, .empty)
    Leaves next.1 a r (k + 1) ∧
      (f.push next.2 ((b.row k).erase k) (b.value k k)).Records a r (k + 1) := by
  intro below next
  have hkk : b.value k k = natural a k k k := hb.value_eq k k (Nat.le_refl k) hk (Nat.le_refl k) hk
  obtain ⟨hleft, hlow⟩ := hb.leftFrom.step (b.value k k)
  have hup : ∀ j, ((b.row k).erase k).contains j = true → k < j ∧ j < r := fun j =>
    hb.leftFrom.upper_lt
  have hupk : ((b.row k).erase k).contains k = false := by simp
  have hupper : ∀ j, k < j → j < r → ((b.row k).erase k).value j = upper a k j := by
    intro j hkj hj
    have hne : j ≠ k := Nat.ne_of_gt hkj
    have hrow : ((b.row k).erase k).value j = b.value k j := by
      rw [SparseVec.value, ActiveMatrix.value]
      rw [SparseVec.find?_erase, if_neg hne]
    rw [hrow, hb.value_eq k j (Nat.le_refl k) hk (Nat.le_of_lt hkj) hj, upper]
  have hmem : ∀ i, i ∈ below ↔ (b.column k).contains i = true ∧ k < i ∧ i < r := fun i =>
    hb.leftFrom.mem_below_iff
  have hnodup : below.Nodup := (SparseVec.nodup_indices _).filter _
  have hsize : ∀ i ∈ below, i < b.rows.size := fun i hi =>
    hb.covered.size_rows.symm ▸ ((hmem i).1 hi).2.2
  have hempty : ∀ i ∈ below, (SparseVec.empty : SparseVec K).value i = 0 := fun _ _ => rfl
  obtain ⟨hvalue, hcol⟩ := value_eliminateRows hupk (b.value k k) hnodup hsize hempty
  have hmissed : ∀ i, k < i → i ∉ below → b.value i k = 0 := by
    intro i hki hi
    by_contra hne
    have hcontains := hb.covered.covered (ActiveMatrix.contains_of_value_ne_zero hne)
    exact hi ((hmem i).2 ⟨hcontains, hki, hb.covered.row_lt hcontains⟩)
  refine ⟨⟨hleft.covered, hleft.le_col, fun i j hki hi hkj hj => ?_⟩, ?_⟩
  · have hij := hb.value_eq i j (by omega) hi (by omega) hj
    have hik := hb.value_eq i k (by omega) hi (Nat.le_refl k) hk
    rw [natural_succ, lower, ← hik, ← hkk, ← hij, ← hupper j hkj hj]
    have hstep := hvalue i j
    by_cases hi' : i ∈ below
    · rw [if_pos hi', if_neg (by omega)] at hstep
      exact hstep
    · rw [if_neg hi'] at hstep
      rw [hmissed i hki hi', zero_div, zero_mul, sub_zero]
      exact hstep
  · have hpivot' : natural a k k k ≠ 0 := hkk ▸ hpivot
    rw [congrArg (f.push next.2 ((b.row k).erase k)) hkk]
    refine hf.push hpivot' hup hlow hupper fun i hki hi => ?_
    have hik := hb.value_eq i k (by omega) hi (Nat.le_refl k) hk
    refine (hcol i).trans ?_
    rw [lower, ← hik, ← hkk]
    by_cases hi' : i ∈ below
    · rw [if_pos hi']
    · rw [if_neg hi', hmissed i hki hi', zero_div]
      rfl

/-- A factorization succeeds or stops at the first pivot that is not above the tolerance, provided
that no pivot above the tolerance is zero. -/
theorem factorFrom_outcome {tol : K}
    (htol : ∀ t, t < r → tol < |natural a t t t| → natural a t t t ≠ 0) {b : ActiveMatrix K}
    {f : SparseLu K} (steps : ℕ) (hsteps : k + steps = r) (hb : Leaves b a r k)
    (hf : f.Records a r k) :
    (∃ g, factorFrom tol steps k b f = .ok g ∧ g.Records a r r) ∨
      ∃ t, t < r ∧ NaturalPivots a t ∧ |natural a t t t| ≤ tol ∧
        factorFrom tol steps k b f = .error (.numericallySingular t |natural a t t t|) := by
  induction steps generalizing k b f with
  | zero =>
    have hk : k = r := hsteps
    exact .inl ⟨f, rfl, hk ▸ hf⟩
  | succ steps ih =>
    have hk : k < r := by omega
    have hkk : b.value k k = natural a k k k :=
      hb.value_eq k k (Nat.le_refl k) hk (Nat.le_refl k) hk
    rw [factorFrom]
    dsimp only
    by_cases habove : tol < |b.value k k|
    · have hne : b.value k k ≠ 0 := by
        rw [hkk] at habove ⊢
        exact htol k hk habove
      obtain ⟨hleaves, hrecords⟩ := hb.step hf hk hne
      rw [if_pos (Scalar.lt_iff.2 (by rwa [Scalar.abs_eq]))]
      exact ih (by omega) hleaves hrecords
    · have hle : |natural a k k k| ≤ tol := hkk ▸ not_lt.1 habove
      refine .inr ⟨k, hk, hf.pivots, hle, ?_⟩
      rw [if_neg (by simpa using habove), Scalar.abs_eq, hkk]

end Factor

section Substitution

variable {v : SparseVec K} {n : ℕ}

/-- Subtracting a multiple keeps the length of a vector. -/
theorem size_subtractMultiple {α : Type} [Scalar α] (v : SparseVec α) (x : α) (y : Array α) :
    (subtractMultiple v x y).size = y.size :=
  size_foldl_modify _ _ (fun (e : ℕ × α) s => s - e.2 * x) _

/-- An entry after a multiple of a sparse vector is subtracted, zeros included. -/
theorem getD_subtractMultiple (hv : ∀ i, v.contains i = true → i < n) (x : K) {y : Array K}
    (hn : n ≤ y.size) {i : ℕ} (hi : i < n) :
    (subtractMultiple v x y).getD i 0 = y.getD i 0 - v.value i * x := by
  have hentries : ∀ e ∈ v.entries, e.1 < n := fun e he =>
    hv e.1 (SparseVec.mem_indices_iff.1 (List.mem_map_of_mem he))
  have hfold : subtractMultiple v x y =
      v.entries.foldl (fun y e => y.modify e.1 fun s => s + e.2 * -x) y := by
    rw [subtractMultiple]
    simp only [mul_neg, sub_eq_add_neg]
  have hterm : ∀ e : ℕ × K,
      (if e.1 = i then e.2 * -x else 0) = e.2 * if e.1 = i then -x else 0 := by
    intro e
    rw [mul_ite, mul_zero]
  rw [hfold, getD_foldl_modify _ _ _ y (by omega)]
  simp only [hterm]
  rw [v.sum_entries hentries fun k => if k = i then -x else 0, sub_eq_add_neg]
  congr 1
  simp [hi]

/-- A gathered difference subtracts the whole scalar product. -/
theorem subtractProducts_eq (hv : ∀ i, v.contains i = true → i < n) (s : K) (y : Array K) :
    subtractProducts v s y = s - ∑ k ∈ range n, v.value k * y.getD k 0 := by
  have hentries : ∀ e ∈ v.entries, e.1 < n := fun e he =>
    hv e.1 (SparseVec.mem_indices_iff.1 (List.mem_map_of_mem he))
  rw [subtractProducts]
  rw [foldl_sub, v.sum_entries hentries fun k => y.getD k 0]

/-- Only the entries after the diagonal count. -/
theorem subtractProducts_eq_after {k : ℕ} (hv : ∀ i, v.contains i = true → k < i ∧ i < n) (s : K)
    (y : Array K) :
    subtractProducts v s y = s - ∑ i ∈ Ico (k + 1) n, v.value i * y.getD i 0 := by
  rw [subtractProducts_eq (fun i hi => (hv i hi).2)]
  congr 1
  refine (sum_subset (fun i hi => mem_range.2 (mem_Ico.1 hi).2) fun i hi hout => ?_).symm
  have hnot : v.contains i = false := by
    by_contra hc
    have := hv i (by simpa using hc)
    exact hout (mem_Ico.2 this)
  rw [value_eq_zero_of_not_contains hnot, zero_mul]

end Substitution

section Solve

variable {f : SparseLu K} {a : ℕ → ℕ → K} {r : ℕ} {b : Array K}

/-- The dimension of complete factors is that of the block. -/
theorem Records.dim_eq (h : f.Records a r r) : f.dim = r := h.size_diagonal

/-- An entry of the forward substitution in terms of the entries before it. -/
theorem Records.getD_solveLower (h : f.Records a r r) (hb : b.size = r) {i : ℕ} (hi : i < r) :
    (f.solveLower b).getD i 0 =
      b.getD i 0 - ∑ k ∈ range i, lower a i k * (f.solveLower b).getD k 0 := by
  have hsolve : f.solveLower b = (List.range r).foldl
      (fun y k => subtractMultiple (f.lowerCol k) (y.getD k 0) y) b := by
    rw [solveLower]
    rw [h.dim_eq]
  have hforward := getD_columns_forward (g := lower a) (d := fun _ => 1) (b := b)
    (s := fun y k => subtractMultiple (f.lowerCol k) (y.getD k 0) y)
    (fun y k => size_subtractMultiple _ _ _) (fun y k i hy hk hi => ?_) hi
  · rw [hsolve, hforward, div_one]
  · rw [getD_subtractMultiple (fun i hi => (h.lower_lt k i hi).2) _ (by omega) hi, div_one]
    rcases Nat.lt_trichotomy k i with hlt | rfl | hgt
    · rw [if_neg (by omega), if_pos hlt, h.lower_eq k i hk hlt hi]
    · have hnot : (f.lowerCol k).contains k = false := by
        by_contra hc
        exact absurd (h.lower_lt k k (by simpa using hc)).1 (Nat.lt_irrefl k)
      rw [if_pos rfl, value_eq_zero_of_not_contains hnot, zero_mul, sub_zero]
    · have hnot : (f.lowerCol k).contains i = false := by
        by_contra hc
        exact absurd (h.lower_lt k i (by simpa using hc)).1 (by omega)
      rw [if_neg (by omega), if_neg (by omega), value_eq_zero_of_not_contains hnot, zero_mul,
        sub_zero]

/-- The forward substitution keeps the length. -/
theorem size_solveLower {α : Type} [Scalar α] (f : SparseLu α) (b : Array α) :
    (f.solveLower b).size = b.size := by
  rw [solveLower]
  refine List.foldlRecOn (motive := fun y : Array α => y.size = b.size) _ _ rfl fun y hy k _ => ?_
  rw [size_subtractMultiple]
  exact hy

/-- An entry of the backward substitution in terms of the entries behind it. -/
theorem Records.getD_solveUpper (h : f.Records a r r) (hb : b.size = r) {i : ℕ} (hi : i < r) :
    (f.solveUpper b).getD i 0 =
      (b.getD i 0 - ∑ k ∈ Ico (i + 1) r, upper a i k * (f.solveUpper b).getD k 0) /
        upper a i i := by
  have hdim := h.dim_eq
  have hbackward := getD_sweep_backward (n := f.dim) (g := upper a) (d := fun i => upper a i i)
    (b := b) (s := fun k x => subtractProducts (f.upperRow k) (x.getD k 0) x /
      f.diagonal.getD k 0) (by omega) (fun i z hi => ?_) (by omega : i < f.dim)
  · rw [hdim] at hbackward
    rw [solveUpper]
    rw [hdim]
    exact hbackward
  · rw [subtractProducts_eq_after (h.upper_lt i), h.diagonal_eq i (by omega), hdim]
    congr 2
    refine sum_congr rfl fun k hk => ?_
    have hk := mem_Ico.1 hk
    rw [h.upper_eq i k (by omega) (by omega) hk.2]

/-- An entry of the transposed substitution with `U` in terms of the entries before it. -/
theorem Records.getD_solveUpperTranspose (h : f.Records a r r) (hb : b.size = r) {k : ℕ}
    (hk : k < r) :
    (f.solveUpperTranspose b).getD k 0 =
      (b.getD k 0 - ∑ i ∈ range k, upper a i k * (f.solveUpperTranspose b).getD i 0) /
        upper a k k := by
  let step : Array K → ℕ → Array K := fun z k =>
    subtractMultiple (f.upperRow k) (z.getD k 0 / f.diagonal.getD k 0)
      (z.setIfInBounds k (z.getD k 0 / f.diagonal.getD k 0))
  have hsolve : f.solveUpperTranspose b = (List.range r).foldl step b := by
    rw [solveUpperTranspose]
    rw [h.dim_eq]
  have hforward := getD_columns_forward (g := fun k i => upper a i k)
    (d := fun k => upper a k k) (b := b) (s := step) (fun y k => ?_)
    (fun y k i hy hk hi => ?_) hk
  · rw [hsolve, hforward]
  · show (subtractMultiple _ _ _).size = _
    rw [size_subtractMultiple, Array.size_setIfInBounds]
  · show (subtractMultiple _ _ _).getD i 0 = _
    have hset : ∀ x : K, (y.setIfInBounds k x).getD i 0 = if i = k then x else y.getD i 0 := by
      intro x
      rw [Array.getD_eq_getD_getElem?, Array.getElem?_setIfInBounds, Array.getD_eq_getD_getElem?]
      by_cases hik : k = i
      · rw [if_pos hik, if_pos (by omega), if_pos hik.symm]
        rfl
      · rw [if_neg hik, if_neg (Ne.symm hik)]
    rw [getD_subtractMultiple (fun i hi => (h.upper_lt k i hi).2) _
      (by rw [Array.size_setIfInBounds]; omega) hi, hset, h.diagonal_eq k hk]
    rcases Nat.lt_trichotomy k i with hlt | rfl | hgt
    · rw [if_neg (by omega), if_neg (by omega), if_pos hlt, h.upper_eq k i hk hlt hi]
    · have hnot : (f.upperRow k).contains k = false := by
        by_contra hc
        exact absurd (h.upper_lt k k (by simpa using hc)).1 (Nat.lt_irrefl k)
      rw [if_pos rfl, if_pos rfl, value_eq_zero_of_not_contains hnot, zero_mul, sub_zero]
    · have hnot : (f.upperRow k).contains i = false := by
        by_contra hc
        exact absurd (h.upper_lt k i (by simpa using hc)).1 (by omega)
      rw [if_neg (by omega), if_neg (by omega), if_neg (by omega),
        value_eq_zero_of_not_contains hnot, zero_mul, sub_zero]

/-- It keeps the length. -/
theorem size_solveUpperTranspose {α : Type} [Scalar α] (f : SparseLu α) (b : Array α) :
    (f.solveUpperTranspose b).size = b.size := by
  rw [solveUpperTranspose]
  refine List.foldlRecOn (motive := fun y : Array α => y.size = b.size) _ _ rfl fun y hy k _ => ?_
  dsimp only
  rw [size_subtractMultiple, Array.size_setIfInBounds]
  exact hy

/-- An entry of the transposed substitution with `L` in terms of the entries behind it. -/
theorem Records.getD_solveLowerTranspose (h : f.Records a r r) (hb : b.size = r) {k : ℕ}
    (hk : k < r) :
    (f.solveLowerTranspose b).getD k 0 =
      b.getD k 0 - ∑ i ∈ Ico (k + 1) r, lower a i k * (f.solveLowerTranspose b).getD i 0 := by
  have hdim := h.dim_eq
  have hbackward := getD_sweep_backward (n := f.dim) (g := fun k i => lower a i k)
    (d := fun _ => 1) (b := b) (s := fun k w => subtractProducts (f.lowerCol k) (w.getD k 0) w)
    (by omega) (fun k z hk => ?_) (by omega : k < f.dim)
  · rw [hdim, div_one] at hbackward
    rw [solveLowerTranspose]
    rw [hdim]
    exact hbackward
  · rw [subtractProducts_eq_after (h.lower_lt k), hdim, div_one]
    congr 1
    refine sum_congr rfl fun i hi => ?_
    have hi := mem_Ico.1 hi
    rw [h.lower_eq k i (by omega) (by omega) hi.2]

/-- Factors of a matrix solve with it. -/
theorem Records.inverts (h : f.Records a r r) : Inverts f.solveIn r a := by
  intro o b hb
  have hle : f.dim ≤ b.size := by
    rw [h.dim_eq, hb]
  cases o with
  | plain =>
    have hlower : (f.solveLower b).size = r := (size_solveLower f b).trans hb
    refine ⟨f.solveUpper (f.solveLower b), ?_, (Vec.size_sweep _ _ _).trans hlower, ?_⟩
    · rw [solveIn]
      rw [Checked.require_decide hle]
      rfl
    · refine ext_getD (by simp [hb]) fun i hi => ?_
      rw [size_product] at hi
      rw [getD_product hi]
      refine sum_of_substitution h.pivots (y := fun i => (f.solveLower b).getD i 0)
        (b := fun i => b.getD i 0) (fun i hi => h.getD_solveLower hb hi) (fun i hi => ?_) hi
      have hne : upper a i i ≠ 0 := h.pivots i hi
      rw [h.getD_solveUpper hlower hi, mul_div_cancel₀ _ hne]
  | transposed =>
    have hupper : (f.solveUpperTranspose b).size = r := (size_solveUpperTranspose f b).trans hb
    refine ⟨f.solveLowerTranspose (f.solveUpperTranspose b), ?_,
      (Vec.size_sweep _ _ _).trans hupper, ?_⟩
    · rw [solveIn]
      rw [Checked.require_decide hle]
      rfl
    · refine ext_getD (by simp [hb]) fun j hj => ?_
      rw [size_product] at hj
      rw [getD_product hj]
      refine sum_of_substitution_transpose h.pivots
        (z := fun k => (f.solveUpperTranspose b).getD k 0) (b := fun k => b.getD k 0)
        (fun k hk => ?_) (fun k hk => h.getD_solveLowerTranspose hupper hk) hj
      have hne : upper a k k ≠ 0 := h.pivots k hk
      rw [h.getD_solveUpperTranspose hb hk, mul_div_cancel₀ _ hne]

end Solve

section Block

variable {refactorTol : K} {block : SparseMatrix K}

/-- No zero pivot of the block is above the tolerance. -/
def RejectsZeros (refactorTol : K) (block : SparseMatrix K) : Prop :=
  ∀ t, t < block.rows → refactorTol * block.maxAbs < |natural block.entry t t t| →
    natural block.entry t t t ≠ 0

/-- With a tolerance that is not negative no zero pivot is accepted. -/
theorem rejectsZeros_of_nonneg (h : 0 ≤ refactorTol) (block : SparseMatrix K) :
    RejectsZeros refactorTol block := fun _ _ habove =>
  abs_pos.1 (lt_of_le_of_lt (mul_nonneg h (maxAbs_nonneg block)) habove)

/-- Nor is one if the natural pivots are not zero at all. -/
theorem rejectsZeros_of_pivots (refactorTol : K) (h : NaturalPivots block.entry block.rows) :
    RejectsZeros refactorTol block := fun t ht _ => h t ht

/-- The factorization of a square block succeeds with its factors, or stops at the first pivot that
is not above the tolerance. -/
theorem factor_outcome (htol : RejectsZeros refactorTol block)
    (hsquare : block.cols = block.rows) :
    (∃ f, factor refactorTol block = .ok f ∧ f.Records block.entry block.rows block.rows) ∨
      ∃ t, t < block.rows ∧ NaturalPivots block.entry t ∧
        |natural block.entry t t t| ≤ refactorTol * block.maxAbs ∧
        factor refactorTol block = .error (.numericallySingular t |natural block.entry t t t|) :=
  factorFrom_outcome htol block.rows (Nat.zero_add _) (leaves_ofSparse hsquare)
    (records_empty _ _)

/-- A factorization that succeeds returns factors of the block. -/
theorem records_factor (htol : RejectsZeros refactorTol block) (hsquare : block.cols = block.rows)
    {f : SparseLu K} (h : factor refactorTol block = .ok f) :
    f.Records block.entry block.rows block.rows := by
  rcases factor_outcome htol hsquare with ⟨g, hg, hrecords⟩ | ⟨t, -, -, -, herror⟩
  · rw [hg] at h
    cases h
    exact hrecords
  · rw [herror] at h
    cases h

/-- Nonzero pivots above the tolerance are enough, whatever the sign of the tolerance. -/
theorem exists_factor (refactorTol : K) (hsquare : block.cols = block.rows)
    (hpivots : NaturalPivots block.entry block.rows)
    (habove : ∀ t, t < block.rows → refactorTol * block.maxAbs < |natural block.entry t t t|) :
    ∃ f, factor refactorTol block = .ok f := by
  rcases factor_outcome (rejectsZeros_of_pivots refactorTol hpivots) hsquare with
    ⟨f, hf, -⟩ | ⟨t, ht, -, hle, -⟩
  · exact ⟨f, hf⟩
  · exact absurd (habove t ht) (not_lt.2 hle)

end Block

end SparseLu

end ReducedSpace
