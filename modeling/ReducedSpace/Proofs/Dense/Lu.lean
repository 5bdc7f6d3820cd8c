import ReducedSpace.Proofs.Dense.Elimination
import ReducedSpace.Proofs.Exact.Product
import ReducedSpace.Proofs.Exact.Substitution
import ReducedSpace.Dense.Lu

/-!
# Dense factors solve exactly

The four triangular solves are substitutions in the packed factors, and the row exchanges in front
of them are a permutation that the transposed solve undoes. So factors of a matrix solve with it in
either orientation. A factorization that succeeds returns such factors.
-/

namespace ReducedSpace

open Finset Elimination

variable {K : Type} [ExactScalar K]

namespace DenseLu

section Substitution

variable {f : DenseLu K} {b : Array K}

/-- An entry of the forward substitution in terms of the entries before it. -/
theorem getD_solveLower (hb : f.dim ≤ b.size) {i : ℕ} (hi : i < f.dim) :
    (f.solveLower b).getD i 0 =
      b.getD i 0 - ∑ k ∈ range i, f.packed.entry i k * (f.solveLower b).getD k 0 := by
  have h := getD_sweep_forward (g := f.packed.entry) (d := fun _ => 1) hb (fun i z _ => by
    rw [div_one, ← sum_map_range, ← foldl_sub_nonzero]) hi
  rw [div_one] at h
  exact h

/-- An entry of the backward substitution in terms of the entries behind it. -/
theorem getD_solveUpper (hb : f.dim ≤ b.size) {i : ℕ} (hi : i < f.dim) :
    (f.solveUpper b).getD i 0 =
      (b.getD i 0 - ∑ k ∈ Ico (i + 1) f.dim, f.packed.entry i k * (f.solveUpper b).getD k 0) /
        f.packed.entry i i :=
  getD_sweep_backward (g := f.packed.entry) (d := fun i => f.packed.entry i i) hb (fun i z _ => by
    rw [← sum_map_range', ← List.sum_reverse, ← List.map_reverse, ← foldl_sub_nonzero]) hi

/-- An entry of the transposed substitution with `U` in terms of the entries before it. -/
theorem getD_solveUpperTranspose (hb : f.dim ≤ b.size) {k : ℕ} (hk : k < f.dim) :
    (f.solveUpperTranspose b).getD k 0 =
      (b.getD k 0 - ∑ i ∈ range k, f.packed.entry i k * (f.solveUpperTranspose b).getD i 0) /
        f.packed.entry k k :=
  getD_sweep_forward (g := fun k i => f.packed.entry i k) (d := fun k => f.packed.entry k k) hb
    (fun k z _ => by rw [← sum_map_range, ← foldl_sub]) hk

/-- An entry of the transposed substitution with `L` in terms of the entries behind it. -/
theorem getD_solveLowerTranspose (hb : f.dim ≤ b.size) {k : ℕ} (hk : k < f.dim) :
    (f.solveLowerTranspose b).getD k 0 =
      b.getD k 0 - ∑ i ∈ Ico (k + 1) f.dim,
        f.packed.entry i k * (f.solveLowerTranspose b).getD i 0 := by
  have h := getD_sweep_backward (g := fun k i => f.packed.entry i k) (d := fun _ => 1) hb
    (fun k z _ => by rw [div_one, ← sum_map_range', ← foldl_sub]) hk
  rw [div_one] at h
  exact h

end Substitution

section Exchanges

/-- Where the exchanges, one after the other, take each entry from. -/
def source : List (ℕ × ℕ) → ℕ → ℕ
  | [], i => i
  | e :: es, i => Permutation.exchange e.1 e.2 (source es i)

/-- Exchanges in sequence are traced back from the last one. -/
theorem source_append (es ds : List (ℕ × ℕ)) (i : ℕ) :
    source (es ++ ds) i = source es (source ds i) := by
  induction es with
  | nil => rfl
  | cons e es ih => exact congrArg (Permutation.exchange e.1 e.2) ih

/-- Exchanges in range trace positions in range. -/
theorem source_lt {es : List (ℕ × ℕ)} {n : ℕ} (hes : ∀ e ∈ es, e.1 < n ∧ e.2 < n) {i : ℕ}
    (hi : i < n) : source es i < n := by
  induction es with
  | nil => exact hi
  | cons e es ih =>
    obtain ⟨he, hes⟩ := List.forall_mem_cons.1 hes
    exact Permutation.exchange_lt he.1 he.2 (ih hes)

/-- The reversed exchanges undo the exchanges. -/
theorem source_reverse_source (es : List (ℕ × ℕ)) (i : ℕ) :
    source es.reverse (source es i) = i := by
  induction es with
  | nil => rfl
  | cons e es ih =>
    rw [List.reverse_cons, source_append]
    show source es.reverse (Permutation.exchange e.1 e.2
      (Permutation.exchange e.1 e.2 (source es i))) = i
    rw [Permutation.exchange_exchange, ih]

/-- Undoing all exchanges in the opposite order leads back. -/
theorem source_source_reverse (es : List (ℕ × ℕ)) (i : ℕ) :
    source es (source es.reverse i) = i := by
  have := source_reverse_source es.reverse i
  rwa [List.reverse_reverse] at this

/-- Exchanges of an index with itself do nothing. -/
theorem source_filter (es : List (ℕ × ℕ)) (i : ℕ) :
    source (es.filter fun e => e.1 != e.2) i = source es i := by
  induction es with
  | nil => rfl
  | cons e es ih =>
    by_cases he : e.1 = e.2
    · rw [List.filter_cons_of_neg (by simpa using he), ih]
      show _ = Permutation.exchange e.1 e.2 (source es i)
      rw [Permutation.exchange]
      grind
    · rw [List.filter_cons_of_pos (by simpa using he)]
      exact congrArg (Permutation.exchange e.1 e.2) ih

omit [ExactScalar K] in
/-- Exchanges keep the length. -/
theorem size_exchangeAll (es : List (ℕ × ℕ)) (b : Array K) :
    (exchangeAll es b).size = b.size := by
  rw [exchangeAll]
  induction es generalizing b with
  | nil => rfl
  | cons e es ih =>
    rw [List.foldl_cons, ih]
    simp

/-- An entry after all exchanges comes from where they trace it back to. -/
theorem getD_exchangeAll {es : List (ℕ × ℕ)} {b : Array K}
    (hes : ∀ e ∈ es, e.1 < b.size ∧ e.2 < b.size) (i : ℕ) :
    (exchangeAll es b).getD i 0 = b.getD (source es i) 0 := by
  rw [exchangeAll]
  induction es generalizing b with
  | nil => rfl
  | cons e es ih =>
    obtain ⟨he, hes⟩ := List.forall_mem_cons.1 hes
    have hsize : (b.swapIfInBounds e.1 e.2).size = b.size := by simp
    have hswap : ∀ k, (b.swapIfInBounds e.1 e.2).getD k 0 =
        b.getD (Permutation.exchange e.1 e.2 k) 0 := by
      intro k
      rw [Permutation.exchange]
      rw [Array.getD_eq_getD_getElem?, Array.getD_eq_getD_getElem?]
      simp only [Array.swapIfInBounds_def, he.1, he.2, dif_pos, Array.getElem?_swap]
      grind
    rw [List.foldl_cons, ih fun e' he' => hsize.symm ▸ hes e' he', hswap]
    rfl

end Exchanges

/-- The factors are those of the leading `r` rows and columns of `a`, after the row exchanges. -/
structure FactorsOf (f : DenseLu K) (r : ℕ) (a : ℕ → ℕ → K) : Prop where
  rows_eq : f.packed.rows = r
  cols_eq : f.packed.cols = r
  exchanges_lt : ∀ e ∈ f.exchanges, e.1 < r ∧ e.2 < r
  eliminated : f.packed.Eliminated (fun i j => a (source f.exchanges i) j) r

section Solve

variable {f : DenseLu K} {r : ℕ} {a : ℕ → ℕ → K}

private theorem FactorsOf.checkSolve_eq (h : f.FactorsOf r a) {b : Array K} (hb : b.size = r) :
    f.checkSolve b = .ok () := by
  have hdim : f.dim = r := h.rows_eq
  have hall : (f.exchanges.all fun e => decide (e.1 < f.dim) && decide (e.2 < f.dim)) = true := by
    rw [List.all_eq_true]
    intro e he
    simpa [hdim] using h.exchanges_lt e he
  rw [checkSolve]
  rw [hall, hdim, hb, h.cols_eq, Checked.sameLength_self]
  simp [Checked.require, bind, Except.bind]

private theorem FactorsOf.solve_rows (h : f.FactorsOf r a) {b : Array K} (hb : b.size = r) {i : ℕ}
    (hi : i < r) :
    ∑ j ∈ range r, a (source f.exchanges i) j * (f.solveUpper (f.solveLower b)).getD j 0 =
      b.getD i 0 := by
  have hdim : f.dim = r := h.rows_eq
  have hrows := h.rows_eq
  have hcols := h.cols_eq
  have hsize : (f.solveLower b).size = r := (Vec.size_sweep _ _ _).trans hb
  refine sum_of_substitution h.eliminated.pivots (y := fun i => (f.solveLower b).getD i 0)
    (b := fun i => b.getD i 0) (fun i hi => ?_) (fun i hi => ?_) hi
  · rw [getD_solveLower (by omega) (by omega)]
    congr 1
    refine sum_congr rfl fun k hk => ?_
    have hki := mem_range.1 hk
    rw [h.eliminated.lower_eq i k (by omega) (by omega) (by omega) hki]
  · have hdiag : f.packed.entry i i = upper (fun i j => a (source f.exchanges i) j) i i :=
      h.eliminated.upper_eq i i (by omega) (by omega) hi (Nat.le_refl i)
    have hne : upper (fun i j => a (source f.exchanges i) j) i i ≠ 0 := h.eliminated.pivots i hi
    rw [getD_solveUpper (by omega) (by omega), hdiag, mul_div_cancel₀ _ hne, hdim]
    congr 1
    refine sum_congr rfl fun k hk => ?_
    have hk := mem_Ico.1 hk
    rw [h.eliminated.upper_eq i k (by omega) (by omega) hi (by omega)]

private theorem FactorsOf.solve_cols (h : f.FactorsOf r a) {b : Array K} (hb : b.size = r) {j : ℕ}
    (hj : j < r) :
    ∑ i ∈ range r, a (source f.exchanges i) j *
      (f.solveLowerTranspose (f.solveUpperTranspose b)).getD i 0 = b.getD j 0 := by
  have hdim : f.dim = r := h.rows_eq
  have hrows := h.rows_eq
  have hcols := h.cols_eq
  have hsize : (f.solveUpperTranspose b).size = r := (Vec.size_sweep _ _ _).trans hb
  refine sum_of_substitution_transpose h.eliminated.pivots
    (z := fun k => (f.solveUpperTranspose b).getD k 0) (b := fun k => b.getD k 0)
    (fun k hk => ?_) (fun k hk => ?_) hj
  · have hdiag : f.packed.entry k k = upper (fun i j => a (source f.exchanges i) j) k k :=
      h.eliminated.upper_eq k k (by omega) (by omega) hk (Nat.le_refl k)
    have hne : upper (fun i j => a (source f.exchanges i) j) k k ≠ 0 := h.eliminated.pivots k hk
    rw [getD_solveUpperTranspose (by omega) (by omega), hdiag, mul_div_cancel₀ _ hne]
    congr 1
    refine sum_congr rfl fun i hi => ?_
    have hi := mem_range.1 hi
    rw [h.eliminated.upper_eq i k (by omega) (by omega) (by omega) (Nat.le_of_lt hi)]
  · rw [getD_solveLowerTranspose (by omega) (by omega), hdim]
    congr 1
    refine sum_congr rfl fun i hi => ?_
    have hi := mem_Ico.1 hi
    rw [h.eliminated.lower_eq i k (by omega) (by omega) hk (by omega)]

/-- Factors of a matrix solve with it. -/
theorem FactorsOf.inverts (h : f.FactorsOf r a) : Inverts f.solveIn r a := by
  intro o b hb
  cases o with
  | plain =>
    have hes : ∀ e ∈ f.exchanges, e.1 < b.size ∧ e.2 < b.size := hb.symm ▸ h.exchanges_lt
    have hsize : (exchangeAll f.exchanges b).size = r := (size_exchangeAll _ _).trans hb
    refine ⟨f.solveUpper (f.solveLower (exchangeAll f.exchanges b)), ?_, ?_, ?_⟩
    · show f.solve b = _
      rw [solve]
      rw [h.checkSolve_eq hb]
      rfl
    · exact (Vec.size_sweep _ _ _).trans ((Vec.size_sweep _ _ _).trans hsize)
    · refine ext_getD (by simp [hb]) fun i hi => ?_
      rw [size_product] at hi
      have hrev : ∀ e ∈ f.exchanges.reverse, e.1 < r ∧ e.2 < r := fun e he =>
        h.exchanges_lt e (List.mem_reverse.1 he)
      have hi' : source f.exchanges.reverse i < r := source_lt hrev hi
      have := h.solve_rows hsize hi'
      rw [getD_exchangeAll hes, source_source_reverse] at this
      rw [getD_product hi]
      exact this
  | transposed =>
    let w := f.solveLowerTranspose (f.solveUpperTranspose b)
    have hw : w.size = r := (Vec.size_sweep _ _ _).trans ((Vec.size_sweep _ _ _).trans hb)
    have hrev : ∀ e ∈ f.exchanges.reverse, e.1 < w.size ∧ e.2 < w.size := fun e he =>
      hw.symm ▸ h.exchanges_lt e (List.mem_reverse.1 he)
    refine ⟨exchangeAll f.exchanges.reverse w, ?_, (size_exchangeAll _ _).trans hw, ?_⟩
    · show f.solveTranspose b = _
      rw [solveTranspose]
      rw [h.checkSolve_eq hb]
      rfl
    · refine ext_getD (by simp [hb]) fun j hj => ?_
      rw [size_product] at hj
      rw [getD_product hj, ← h.solve_cols hb hj]
      refine (sum_nbij' (source f.exchanges) (source f.exchanges.reverse) ?_ ?_ ?_ ?_ ?_).symm
      · intro i hi
        exact mem_range.2 (source_lt h.exchanges_lt (mem_range.1 hi))
      · intro i hi
        exact mem_range.2 (source_lt (fun e he => h.exchanges_lt e (List.mem_reverse.1 he))
          (mem_range.1 hi))
      · intro i _
        exact source_reverse_source _ i
      · intro i _
        exact source_source_reverse _ i
      · intro i _
        rw [getD_exchangeAll hrev, source_reverse_source]
        rfl

end Solve

section Factor

/-- All row exchanges of a factorization, also those of a row with itself. -/
def allExchanges (swaps : Array ℕ) : List (ℕ × ℕ) := swaps.toList.zipIdx.map fun e => (e.2, e.1)

omit [ExactScalar K] in
/-- Leaving out the exchanges of a position with itself changes nothing. -/
theorem source_exchanges (f : DenseLu K) (i : ℕ) :
    source f.exchanges i = source (allExchanges f.swaps) i := source_filter _ i

private theorem allExchanges_push (swaps : Array ℕ) (p : ℕ) :
    allExchanges (swaps.push p) = allExchanges swaps ++ [(swaps.size, p)] := by
  unfold allExchanges
  rw [Array.toList_push, List.zipIdx_append, List.map_append]
  simp

/-- The pivot row is not above the diagonal, and its magnitude is reported. -/
theorem pivotRow_spec (a : DenseMatrix K) {k : ℕ} (hk : k < a.rows) :
    k ≤ (pivotRow a k).1 ∧ (pivotRow a k).1 < a.rows ∧
      (pivotRow a k).2 = |a.entry (pivotRow a k).1 k| := by
  rw [pivotRow]
  refine List.foldlRecOn
    (motive := fun best : ℕ × K => k ≤ best.1 ∧ best.1 < a.rows ∧ best.2 = |a.entry best.1 k|)
    _ _ ⟨Nat.le_refl k, hk, rfl⟩ fun best hbest i hi => ?_
  have hi := List.mem_range'_1.1 hi
  dsimp only
  split
  · exact ⟨by omega, by omega, rfl⟩
  · exact hbest

private theorem le_foldl_larger (a : DenseMatrix K) (k : ℕ) (l : List ℕ) (best : ℕ × K) :
    let top := l.foldl (fun best i =>
      let v := Scalar.abs (a.entry i k)
      if Scalar.lt best.2 v then (i, v) else best) best
    best.2 ≤ top.2 ∧ ∀ i ∈ l, |a.entry i k| ≤ top.2 := by
  induction l generalizing best with
  | nil => simp
  | cons i l ih =>
    simp only [List.foldl_cons, List.forall_mem_cons, Scalar.lt_iff, Scalar.abs_eq] at ih ⊢
    split
    · rename_i hlt
      obtain ⟨hle, hall⟩ := ih (i, |a.entry i k|)
      exact ⟨hlt.le.trans hle, hle, hall⟩
    · rename_i hle'
      obtain ⟨hle, hall⟩ := ih best
      exact ⟨hle, (not_lt.1 hle').trans hle, hall⟩

/-- No candidate is larger than the one in the pivot row. -/
theorem abs_le_pivotRow (a : DenseMatrix K) {k i : ℕ} (hki : k ≤ i) (hi : i < a.rows) :
    |a.entry i k| ≤ (pivotRow a k).2 := by
  obtain ⟨hfirst, hrest⟩ := le_foldl_larger a k (List.range' (k + 1) (a.rows - (k + 1)))
    (k, Scalar.abs (a.entry k k))
  rcases Nat.eq_or_lt_of_le hki with rfl | hlt
  · exact hfirst
  · exact hrest i (List.mem_range'_1.2 (by omega))

/-- After exchanges of the first `n` rows `k` pivots are nonzero, and no candidate for the next one
is larger than a bound. -/
structure StopsAt (a : ℕ → ℕ → K) (n k : ℕ) (bound : K) : Prop where
  lt : k < n
  exists_exchanges : ∃ es, (∀ e ∈ es, e.1 < n ∧ e.2 < n) ∧
    NaturalPivots (fun i j => a (source es i) j) k ∧
    ∀ i, k ≤ i → i < n → |natural (fun i j => a (source es i) j) k i k| ≤ bound

private theorem factorFrom_outcome {tol : K} (htol : 0 ≤ tol) {a : ℕ → ℕ → K} (steps k : ℕ)
    (w : DenseMatrix K) (swaps : Array ℕ) (hsquare : w.cols = w.rows) (hsteps : k + steps = w.rows)
    (hswaps : swaps.size = k) (hlt : ∀ e ∈ allExchanges swaps, e.1 < w.rows ∧ e.2 < w.rows)
    (hw : w.Eliminated (fun i j => a (source (allExchanges swaps) i) j) k) :
    (∃ f, factorFrom tol steps k w swaps = .ok f ∧ f.FactorsOf w.rows a) ∨
      ∃ t bound, StopsAt a w.rows t bound ∧ 0 ≤ bound ∧ bound ≤ tol ∧
        factorFrom tol steps k w swaps = .error (.numericallySingular t bound) := by
  induction steps generalizing k w swaps with
  | zero =>
    have hk : k = w.rows := hsteps
    refine .inl ⟨⟨w, swaps⟩, rfl, rfl, hsquare, fun e he => hlt e (List.mem_of_mem_filter he), ?_⟩
    simp only [source_exchanges]
    exact hk ▸ hw
  | succ steps ih =>
    have hk : k < w.rows := by omega
    obtain ⟨hle, hp, hmagnitude⟩ := pivotRow_spec w hk
    rw [factorFrom]
    dsimp only
    split
    · rename_i habove
      have habs : tol < |w.entry (pivotRow w k).1 k| := by
        rw [← hmagnitude]
        exact Scalar.lt_iff.1 habove
      have hne : w.entry (pivotRow w k).1 k ≠ 0 := abs_pos.1 (lt_of_le_of_lt htol habs)
      have hswap := hw.swapRows hle hp
      have hpush := allExchanges_push swaps (pivotRow w k).1
      have hsource : ∀ i, source (allExchanges (swaps.push (pivotRow w k).1)) i =
          source (allExchanges swaps) (Permutation.exchange k (pivotRow w k).1 i) := by
        intro i
        rw [hpush, source_append, hswaps]
        rfl
      have hpivot : natural (fun i j => a (source (allExchanges swaps)
          (Permutation.exchange k (pivotRow w k).1 i)) j) k k k ≠ 0 := by
        have hkk := hswap.rest_eq k k hk (hsquare.symm ▸ hk) (Nat.le_refl k) (Nat.le_refl k)
        rw [← hkk, DenseMatrix.entry_swapRows w hk hp]
        rw [Permutation.exchange]
        rw [if_pos rfl]
        exact hne
      have helim := hswap.eliminate hk (hsquare.symm ▸ hk) hpivot
      have hsize : (swaps.push (pivotRow w k).1).size = k + 1 := by
        rw [Array.size_push, hswaps]
      have hrest : k + 1 + steps = w.rows := by omega
      refine ih (k + 1) ((w.swapRows k (pivotRow w k).1).eliminate k) _ hsquare hrest hsize ?_ ?_
      · intro e he
        rw [hpush, List.mem_append, List.mem_singleton] at he
        rcases he with he | rfl
        · exact hlt e he
        · exact ⟨hswaps.symm ▸ hk, hp⟩
      · simp only [hsource]
        exact helim
    · rename_i hbelow
      have hbound : (pivotRow w k).2 ≤ tol := not_lt.1 fun h => hbelow (Scalar.lt_iff.2 h)
      have hnonneg : 0 ≤ (pivotRow w k).2 := hmagnitude ▸ abs_nonneg _
      refine .inr ⟨k, (pivotRow w k).2, ⟨hk, _, hlt, hw.pivots, fun i hki hi => ?_⟩, hnonneg, hbound,
        rfl⟩
      rw [← hw.rest_eq i k hi (hsquare.symm ▸ hk) hki (Nat.le_refl k)]
      exact abs_le_pivotRow w hki hi

/-- A factorization of a square matrix succeeds with its factors, or stops in the first column in
which no candidate is above the tolerance. -/
theorem factor_outcome {tol : K} (htol : 0 ≤ tol) {a : DenseMatrix K} (hsquare : a.cols = a.rows) :
    (∃ f, factor a tol = .ok f ∧ f.FactorsOf a.rows a.entry) ∨
      ∃ k bound, StopsAt a.entry a.rows k bound ∧ 0 ≤ bound ∧ bound ≤ tol ∧
        factor a tol = .error (.numericallySingular k bound) := by
  rw [factor]
  rw [if_pos hsquare]
  exact factorFrom_outcome htol a.rows 0 a #[] hsquare (Nat.zero_add _) rfl (by simp [allExchanges])
    a.eliminated_zero

/-- A factorization that succeeds returns factors of the matrix. -/
theorem factorsOf_factor {tol : K} (htol : 0 ≤ tol) {a : DenseMatrix K} {f : DenseLu K}
    (h : factor a tol = .ok f) : f.FactorsOf a.rows a.entry := by
  have hsquare : a.cols = a.rows := by
    by_contra hne
    simp [factor, hne] at h
  rcases factor_outcome htol hsquare with ⟨g, hg, hfactors⟩ | ⟨k, bound, -, -, -, herror⟩
  · rw [hg] at h
    cases h
    exact hfactors
  · rw [herror] at h
    cases h

end Factor

end DenseLu

end ReducedSpace
