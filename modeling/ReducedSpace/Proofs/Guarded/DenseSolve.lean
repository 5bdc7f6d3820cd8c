import ReducedSpace.Proofs.Vec
import ReducedSpace.Proofs.Guarded.DenseLu

/-!
# Dense substitution with guarded accesses

A solve with dense factors overwrites the right-hand side. The rows of the vector are exchanged one
pair after the other; then a solve with the packed factors runs column by column and takes the
multiples of an entry off all entries that depend on it as soon as that entry is final, while a
solve with their transposes runs row by row. Between two columns the vector holds what is left of
each equation. So the loops end where the sweeps over the equations end, and with shaped factors
they keep to the factors and to the right-hand side.
-/

namespace ReducedSpace

variable {α : Type} [Scalar α]

namespace DenseLu

/-- What is left of entry `i` of `b` when the multiples of the listed entries of `x` are taken off
in turn. Zeros of `x` are passed over. -/
def leftOver (f : DenseLu α) (x b : Array α) (i : Nat) (ks : List Nat) : α :=
  ks.foldl
    (fun s k => if Scalar.isZero (x.getD k 0) then s else s - f.packed.entry i k * x.getD k 0)
    (b.getD i 0)

variable {f : DenseLu α} {b : Array α} {i k : Nat}

/-- One more entry is subtracted last, unless it is zero. -/
theorem leftOver_append (f : DenseLu α) (x b : Array α) (i k : Nat) (ks : List Nat) :
    f.leftOver x b i (ks ++ [k]) =
      if Scalar.isZero (x.getD k 0) then f.leftOver x b i ks
      else f.leftOver x b i ks - f.packed.entry i k * x.getD k 0 := by
  rw [leftOver, List.foldl_append]
  rfl

private theorem leftOver_congr {x z : Array α} {ks : List Nat}
    (h : ∀ k ∈ ks, z.getD k 0 = x.getD k 0) (hi : z.getD i 0 = b.getD i 0) :
    f.leftOver z z i ks = f.leftOver x b i ks := by
  rw [leftOver, leftOver, hi]
  refine List.foldl_ext _ _ _ fun s k hk => ?_
  rw [h k hk]

/-- An entry of the solution with `L` is what is left of its equation. -/
theorem getD_solveLower_eq_leftOver (hb : f.dim ≤ b.size) (hi : i < f.dim) :
    (f.solveLower b).getD i 0 = f.leftOver (f.solveLower b) b i (List.range i) := by
  obtain ⟨z, hz, hbefore, hafter⟩ := Vec.getD_sweep_ascending hi
    (fun i z => f.leftOver z z i (List.range i)) hb 0
  refine hz.trans (leftOver_congr (fun k hk => ?_) (hafter i (Nat.le_refl i)))
  exact hbefore k (List.mem_range.1 hk)

/-- An entry of the solution with `U` is what is left of its equation, divided by the pivot. -/
theorem getD_solveUpper_eq_leftOver (hb : f.dim ≤ b.size) (hi : i < f.dim) :
    (f.solveUpper b).getD i 0 =
      f.leftOver (f.solveUpper b) b i (List.range' (i + 1) (f.dim - (i + 1))).reverse /
        f.packed.entry i i := by
  obtain ⟨z, hz, hafter, hbefore⟩ := Vec.getD_sweep_descending hi
    (fun i z => f.leftOver z z i (List.range' (i + 1) (f.dim - (i + 1))).reverse /
      f.packed.entry i i) hb 0
  refine hz.trans (congrArg (· / f.packed.entry i i)
    (leftOver_congr (fun k hk => ?_) (hbefore i (Nat.le_refl i))))
  have hk := List.mem_range'_1.1 (List.mem_reverse.1 hk)
  exact hafter k (by omega) (by omega)

end DenseLu

namespace Guarded

section Definitions

/-- Exchanges entries of a vector, one pair after the other. -/
def exchangeEntries (pairs : List (Nat × Nat)) (b : Array α) : Checked (Array α) :=
  pairs.foldlM (fun b e => if e.1 = e.2 then .ok b else swap b e.1 e.2) b

/-- Takes the multiples of column `k` of the packed factors off the entries from `s` up to `e`. -/
def subtractColumn (f : DenseLu α) (k s e : Nat) (x : α) (b : Array α) : Checked (Array α) :=
  if Scalar.isZero x then .ok b
  else (List.range' s (e - s)).foldlM
    (fun b i => do
      let old ← read b i
      let l ← entry f.packed i k
      write b i (old - l * x)) b

/-- Takes the products of column `k` of the packed factors with the listed entries off entry
`k`. -/
def columnResidual (f : DenseLu α) (k : Nat) (is : List Nat) (b : Array α) : Checked α := do
  let s ← read b k
  is.foldlM
    (fun s i => do
      let l ← entry f.packed i k
      let x ← read b i
      return s - l * x) s

/-- Solves `L y = b`, column by column. -/
def solveLowerDense (f : DenseLu α) (b : Array α) : Checked (Array α) :=
  (List.range f.dim).foldlM
    (fun b k => do
      let x ← read b k
      subtractColumn f k (k + 1) f.dim x b) b

/-- Solves `U x = y`, from the last column on. -/
def solveUpperDense (f : DenseLu α) (b : Array α) : Checked (Array α) :=
  (List.range f.dim).reverse.foldlM
    (fun b k => do
      let old ← read b k
      let b ← write b k (old / (← entry f.packed k k))
      let x ← read b k
      subtractColumn f k 0 k x b) b

/-- Solves `Uᵀ z = b`. -/
def solveUpperTransposeDense (f : DenseLu α) (b : Array α) : Checked (Array α) :=
  (List.range f.dim).foldlM
    (fun b k => do
      let s ← columnResidual f k (List.range k) b
      write b k (s / (← entry f.packed k k))) b

/-- Solves `Lᵀ w = z`, from the last row on. -/
def solveLowerTransposeDense (f : DenseLu α) (b : Array α) : Checked (Array α) :=
  (List.range f.dim).reverse.foldlM
    (fun b k => do
      let s ← columnResidual f k (List.range' (k + 1) (f.dim - (k + 1))) b
      write b k s) b

/-- Solves with the factored matrix in a given orientation. -/
def solveDense (f : DenseLu α) (o : Orientation) (b : Array α) : Checked (Array α) := do
  Checked.sameLength f.dim b.size
  match o with
  | .plain =>
    let b ← exchangeEntries (DenseLu.allExchanges f.swaps) b
    let y ← solveLowerDense f b
    solveUpperDense f y
  | .transposed =>
    let z ← solveUpperTransposeDense f b
    let w ← solveLowerTransposeDense f z
    exchangeEntries (DenseLu.allExchanges f.swaps).reverse w

end Definitions

section Exchanges

omit [Scalar α]

/-- Exchanges in range can be carried out. -/
theorem exchangeEntries_eq {pairs : List (Nat × Nat)} {b : Array α}
    (hpairs : ∀ e ∈ pairs, e.1 < b.size ∧ e.2 < b.size) :
    exchangeEntries pairs b =
      .ok (DenseLu.exchangeAll (pairs.filter fun e => e.1 != e.2) b) := by
  rw [DenseLu.exchangeAll, List.foldl_filter]
  refine foldlM_eq_ok (P := fun y => y.size = b.size) rfl fun y hy e he => ?_
  obtain ⟨h₁, h₂⟩ := hpairs e he
  by_cases heq : e.1 = e.2
  · simp [heq, hy]
  · simp [heq, hy, swap_eq_ok, h₁, h₂]

end Exchanges

section Columns

variable {f : DenseLu α} {b : Array α} {k : Nat}

/-- A column of the packed factors is taken off entries that the vector and the column have. -/
theorem subtractColumn_eq {s e : Nat} (x : α) (hk : k < f.packed.cols) (hs : s ≤ e)
    (hrows : e ≤ f.packed.rows) (hb : e ≤ b.size) :
    subtractColumn f k s e x b =
      .ok (overwritten (fun i old => if Scalar.isZero x then old else old - f.packed.entry i k * x)
        0 b s e) := by
  rw [subtractColumn]
  split
  · refine congrArg Except.ok ((tabulate_getD b 0).symm.trans ?_)
    simp [overwritten]
  · refine foldlM_overwrite_eq_ok hs hb fun y hy i _ hi => ?_
    have hsize : i < y.size := by omega
    rw [read_eq_ok hsize 0, ok_bind, entry_eq (by omega) hk, ok_bind]
    exact write_eq_ok hsize _

/-- The vector in the middle of a solve with `L`: from each equation the columns before column `k`
are taken off. -/
private def lowering (f : DenseLu α) (b : Array α) (k : Nat) : Array α :=
  tabulate f.dim fun i => f.leftOver (f.solveLower b) b i (List.range (min i k))

/-- A column of `L` is taken off the equations below it. -/
private theorem subtractColumn_lowering (hcols : f.packed.cols = f.dim) (hb : b.size = f.dim)
    (hk : k < f.dim) :
    subtractColumn f k (k + 1) f.dim ((f.solveLower b).getD k 0) (lowering f b k) =
      .ok (lowering f b (k + 1)) := by
  have hsize : (lowering f b k).size = f.dim := size_tabulate _ _
  have hget {i : Nat} (hi : i < f.dim) : (lowering f b k).getD i 0 =
      f.leftOver (f.solveLower b) b i (List.range (min i k)) := by
    rw [lowering, getD_tabulate, if_pos hi]
  rw [subtractColumn_eq _ (hcols.symm ▸ hk) hk (Nat.le_refl f.dim) hsize.ge]
  refine congrArg Except.ok (overwritten_eq_tabulate hsize (fun i hi h => ?_) fun i hi hki _ => ?_)
  · rw [hget hi, Nat.min_eq_left (by omega), Nat.min_eq_left (by omega)]
  · rw [hget hi, Nat.min_eq_right hki, List.range_succ, DenseLu.leftOver_append,
      Nat.min_eq_right (by omega)]

/-- Column by column the vector becomes the solution with `L`. -/
theorem solveLowerDense_eq (hcols : f.packed.cols = f.dim) (hb : b.size = f.dim) :
    solveLowerDense f b = .ok (f.solveLower b) := by
  have hsize : (f.solveLower b).size = f.dim := (Vec.size_sweep _ _ _).trans hb
  have hfinal {i k : Nat} (hi : i < f.dim) (hik : i ≤ k) :
      f.leftOver (f.solveLower b) b i (List.range (min i k)) = (f.solveLower b).getD i 0 := by
    rw [Nat.min_eq_left hik]
    exact (DenseLu.getD_solveLower_eq_leftOver hb.ge hi).symm
  have hstart : lowering f b 0 = b := tabulate_eq hb 0 fun i _ => by
    rw [Nat.min_zero]
    rfl
  have hlast : lowering f b f.dim = f.solveLower b := tabulate_eq hsize 0 fun i hi =>
    hfinal hi hi.le
  refine foldlM_range_eq_ok (lowering f b) hstart hlast fun k hk => ?_
  have hx : (lowering f b k).getD k 0 = (f.solveLower b).getD k 0 := by
    rw [lowering, getD_tabulate, if_pos hk, hfinal hk (Nat.le_refl k)]
  rw [read_eq_ok ((size_tabulate _ _).symm ▸ hk) 0, ok_bind, hx]
  exact subtractColumn_lowering hcols hb hk

/-- The vector in the middle of a solve with `U`: the entries from entry `k` on are final, and their
columns are taken off the other equations. -/
private def raising (f : DenseLu α) (b : Array α) (k : Nat) : Array α :=
  tabulate f.dim fun i =>
    if k ≤ i then (f.solveUpper b).getD i 0
    else f.leftOver (f.solveUpper b) b i (List.range' k (f.dim - k)).reverse

/-- A column of `U` is taken off the equations above it, once its own entry is final. -/
private theorem subtractColumn_raising (hcols : f.packed.cols = f.dim) (hk : k < f.dim)
    {z : Array α} (hsize : z.size = f.dim) (hget : ∀ i < f.dim, z.getD i 0 =
      if k ≤ i then (f.solveUpper b).getD i 0
      else f.leftOver (f.solveUpper b) b i (List.range' (k + 1) (f.dim - (k + 1))).reverse) :
    subtractColumn f k 0 k ((f.solveUpper b).getD k 0) z = .ok (raising f b k) := by
  have hcolumns : List.range' k (f.dim - k) = k :: List.range' (k + 1) (f.dim - (k + 1)) := by
    rw [show f.dim - k = f.dim - (k + 1) + 1 by omega, List.range'_succ]
  rw [subtractColumn_eq _ (hcols.symm ▸ hk) (Nat.zero_le k) hk.le (hk.le.trans hsize.ge)]
  refine congrArg Except.ok (overwritten_eq_tabulate hsize (fun i hi h => ?_) fun i hi _ hik => ?_)
  · rw [hget i hi, if_pos (by omega), if_pos (by omega)]
  · have hki : ¬k ≤ i := by omega
    rw [hget i hi, if_neg hki, if_neg hki, hcolumns, List.reverse_cons, DenseLu.leftOver_append]

/-- From the last column on the vector becomes the solution with `U`. -/
theorem solveUpperDense_eq (hcols : f.packed.cols = f.dim) (hb : b.size = f.dim) :
    solveUpperDense f b = .ok (f.solveUpper b) := by
  have hsize : (f.solveUpper b).size = f.dim := (Vec.size_sweep _ _ _).trans hb
  have hstart : raising f b f.dim = b := tabulate_eq hb 0 fun i hi => by
    rw [if_neg (by omega), Nat.sub_self]
    rfl
  have hlast : raising f b 0 = f.solveUpper b := tabulate_eq hsize 0 fun i _ => by
    rw [if_pos (Nat.zero_le i)]
  refine foldlM_range_reverse_eq_ok (raising f b) hstart hlast fun k hk => ?_
  have hk' : k < (raising f b (k + 1)).size := (size_tabulate _ _).symm ▸ hk
  have hx : (raising f b (k + 1)).getD k 0 / f.packed.entry k k = (f.solveUpper b).getD k 0 := by
    rw [raising, getD_tabulate, if_pos hk, if_neg (by omega),
      DenseLu.getD_solveUpper_eq_leftOver hb.ge hk]
  have hread : read ((raising f b (k + 1)).setIfInBounds k ((f.solveUpper b).getD k 0)) k =
      .ok ((f.solveUpper b).getD k 0) := by
    rw [read_eq_ok (Array.size_setIfInBounds.symm ▸ hk') 0, getD_setIfInBounds, if_pos ⟨rfl, hk'⟩]
  rw [read_eq_ok hk' 0, ok_bind, entry_eq hk (hcols.symm ▸ hk), ok_bind, hx, write_eq_ok hk',
    ok_bind, hread, ok_bind]
  refine subtractColumn_raising hcols hk (Array.size_setIfInBounds.trans (size_tabulate _ _))
    fun i hi => ?_
  rw [getD_setIfInBounds, raising, size_tabulate, getD_tabulate, if_pos hi]
  by_cases hik : i = k
  · rw [if_pos ⟨hik, hk⟩, if_pos hik.ge, hik]
  · rw [if_neg fun h => hik h.1]
    exact if_congr (by omega) rfl rfl

end Columns

section Rows

variable {f : DenseLu α} {b : Array α} {k : Nat}

/-- The products with a column inside the matrix can be subtracted. -/
theorem columnResidual_eq {is : List Nat} (hk : k < f.packed.cols) (hrow : k < b.size)
    (his : ∀ i ∈ is, i < f.packed.rows ∧ i < b.size) :
    columnResidual f k is b =
      .ok (is.foldl (fun s i => s - f.packed.entry i k * b.getD i 0) (b.getD k 0)) := by
  rw [columnResidual]
  rw [read_eq_ok hrow 0, ok_bind]
  refine foldlM_eq_ok_of_forall (fun s i hi => ?_) _
  rw [entry_eq (his i hi).1 hk, ok_bind, read_eq_ok (his i hi).2 0]
  rfl

/-- The column-oriented transposed substitution with `U` is the plain one. -/
theorem solveUpperTransposeDense_eq (hcols : f.packed.cols = f.dim) (hb : b.size = f.dim) :
    solveUpperTransposeDense f b = .ok (f.solveUpperTranspose b) := by
  refine foldlM_eq_ok (P := fun z => z.size = f.dim) hb fun z hz k hk => ?_
  have hk : k < f.dim := List.mem_range.1 hk
  rw [columnResidual_eq (hcols.symm ▸ hk) (hz.symm ▸ hk) fun i hi => ?_, ok_bind,
    entry_eq hk (hcols.symm ▸ hk), ok_bind]
  · exact ⟨write_eq_ok (hz.symm ▸ hk) _, Array.size_setIfInBounds.trans hz⟩
  · have hi : i < f.dim := Nat.lt_trans (List.mem_range.1 hi) hk
    exact ⟨hi, hz.symm ▸ hi⟩

/-- And so is that with `L`. -/
theorem solveLowerTransposeDense_eq (hcols : f.packed.cols = f.dim) (hb : b.size = f.dim) :
    solveLowerTransposeDense f b = .ok (f.solveLowerTranspose b) := by
  refine foldlM_eq_ok (P := fun w => w.size = f.dim) hb fun w hw k hk => ?_
  have hk : k < f.dim := List.mem_range.1 (List.mem_reverse.1 hk)
  rw [columnResidual_eq (hcols.symm ▸ hk) (hw.symm ▸ hk) fun i hi => ?_, ok_bind]
  · exact ⟨write_eq_ok (hw.symm ▸ hk) _, Array.size_setIfInBounds.trans hw⟩
  · have hi : i < f.dim := by
      have := List.mem_range'_1.1 hi
      omega
    exact ⟨hi, hw.symm ▸ hi⟩

end Rows

section Solving

variable {f : DenseLu α} {r : Nat} {b : Array α}

omit [Scalar α] in
private theorem allExchanges_lt (h : f.Shaped r) :
    ∀ e ∈ DenseLu.allExchanges f.swaps, e.1 < r ∧ e.2 < r := fun e he => by
  obtain ⟨hk, hp⟩ := DenseLu.mem_allExchanges he
  exact ⟨h.size_swaps ▸ hk, h.swaps_lt _ hp⟩

omit [Scalar α] in
/-- Shaped factors accept every right-hand side of their length. -/
private theorem checkSolve_eq (h : f.Shaped r) (hb : b.size = r) : f.checkSolve b = .ok () := by
  have hdim : f.dim = r := h.rows_eq
  have hexchanges : (f.exchanges.all fun e => decide (e.1 < r) && decide (e.2 < r)) = true := by
    rw [List.all_eq_true]
    intro e he
    simpa using allExchanges_lt h e (List.mem_of_mem_filter he)
  rw [DenseLu.checkSolve]
  rw [hdim, hexchanges, hb, h.cols_eq, Checked.sameLength_self]
  simp [Checked.require, bind, Except.bind]

/-- Solving with shaped factors keeps to them and to the right-hand side, and the answer has the
length of the right-hand side. -/
theorem solveDense_eq (h : f.Shaped r) (o : Orientation) (hb : b.size = r) :
    solveDense f o b = f.solveIn o b ∧ ∃ x, f.solveIn o b = .ok x ∧ x.size = r := by
  have hdim : f.dim = r := h.rows_eq
  have hcols : f.packed.cols = f.dim := h.cols_eq.trans hdim.symm
  have hb' : b.size = f.dim := hb.trans hdim.symm
  cases o with
  | plain =>
    have hrows : exchangeEntries (DenseLu.allExchanges f.swaps) b =
        .ok (DenseLu.exchangeAll f.exchanges b) := exchangeEntries_eq (hb ▸ allExchanges_lt h)
    have hsize : (DenseLu.exchangeAll f.exchanges b).size = f.dim :=
      (DenseLu.size_exchangeAll _ _).trans hb'
    have hsize' : (f.solveLower (DenseLu.exchangeAll f.exchanges b)).size = f.dim :=
      (Vec.size_sweep _ _ _).trans hsize
    have hplain : f.solve b = .ok _ := bind_eq_ok_iff.2 ⟨(), checkSolve_eq h hb, rfl⟩
    refine ⟨.trans ?_ hplain.symm, _, hplain, (Vec.size_sweep _ _ _).trans (hsize'.trans hdim)⟩
    rw [solveDense]
    rw [hb', Checked.sameLength_self, ok_bind, hrows, ok_bind, solveLowerDense_eq hcols hsize,
      ok_bind, solveUpperDense_eq hcols hsize']
  | transposed =>
    have hsize : (f.solveUpperTranspose b).size = f.dim := (Vec.size_sweep _ _ _).trans hb'
    have hsize' : (f.solveLowerTranspose (f.solveUpperTranspose b)).size = f.dim :=
      (Vec.size_sweep _ _ _).trans hsize
    have hplain : f.solveTranspose b = .ok _ := bind_eq_ok_iff.2 ⟨(), checkSolve_eq h hb, rfl⟩
    have hlt : ∀ e ∈ (DenseLu.allExchanges f.swaps).reverse, e.1 < f.dim ∧ e.2 < f.dim :=
      fun e he => hdim ▸ allExchanges_lt h e (List.mem_reverse.1 he)
    refine ⟨.trans ?_ hplain.symm, _, hplain,
      (DenseLu.size_exchangeAll _ _).trans (hsize'.trans hdim)⟩
    rw [solveDense]
    rw [hb', Checked.sameLength_self, ok_bind, solveUpperTransposeDense_eq hcols hb', ok_bind,
      solveLowerTransposeDense_eq hcols hsize, ok_bind, exchangeEntries_eq (hsize' ▸ hlt),
      List.filter_reverse]
    rfl

/-- An exchange with a row outside the factors is a fault. -/
example : solveDense (⟨.ofFn 2 2 fun i j => if i = j then 1 else 0, #[0, 2]⟩ : DenseLu Rat) .plain
    #[1, 1] = .error .index := by decide +kernel

end Solving

end Guarded

end ReducedSpace
