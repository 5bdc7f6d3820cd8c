import ReducedSpace.Proofs.Basis.SparseLu
import ReducedSpace.Proofs.Guarded.ActiveMatrix

/-!
# Sparse factors with guarded accesses

The factorization in natural order visits the rows that the pattern of a column names and the
columns of the pivot row, so a square block is never left. The factors it forms are shaped: as many
columns and rows as pivots, and indices inside the block. Solving with shaped factors reads and
changes entries of the right-hand side only.
-/

namespace ReducedSpace

/-- Factors with `d` pivots and with indices below `r`. -/
structure SparseLu.Shaped {α : Type} (f : SparseLu α) (d r : Nat) : Prop where
  size_lowerCols : f.lowerCols.size = d
  size_upperRows : f.upperRows.size = d
  size_diagonal : f.diagonal.size = d
  lower_lt : ∀ v ∈ f.lowerCols, ∀ i, v.contains i = true → i < r
  upper_lt : ∀ v ∈ f.upperRows, ∀ j, v.contains j = true → j < r

namespace SparseLu.Shaped

variable {α : Type} {f : SparseLu α} {d r : Nat}

/-- The columns of `L` are inside the block. -/
theorem lowerCol_lt (h : f.Shaped d r) {k i : Nat} (hi : (f.lowerCol k).contains i = true) :
    i < r := by
  rw [SparseLu.lowerCol, Array.getD_eq_getD_getElem?] at hi
  by_cases hk : k < f.lowerCols.size
  · rw [Array.getElem?_eq_getElem hk, Option.getD_some] at hi
    exact h.lower_lt _ (Array.getElem_mem hk) i hi
  · rw [Array.getElem?_eq_none (Nat.not_lt.1 hk), Option.getD_none] at hi
    simp at hi

/-- And so are the rows of `U`. -/
theorem upperRow_lt (h : f.Shaped d r) {k j : Nat} (hj : (f.upperRow k).contains j = true) :
    j < r := by
  rw [SparseLu.upperRow, Array.getD_eq_getD_getElem?] at hj
  by_cases hk : k < f.upperRows.size
  · rw [Array.getElem?_eq_getElem hk, Option.getD_some] at hj
    exact h.upper_lt _ (Array.getElem_mem hk) j hj
  · rw [Array.getElem?_eq_none (Nat.not_lt.1 hk), Option.getD_none] at hj
    simp at hj

end SparseLu.Shaped

/-- Triangular factors are shaped. -/
theorem SparseLu.Triangular.shaped {α : Type} {f : SparseLu α} {r : Nat} (h : f.Triangular r r) :
    f.Shaped r r where
  size_lowerCols := h.size_lowerCols
  size_upperRows := h.size_upperRows
  size_diagonal := h.size_diagonal
  lower_lt v hv i hi := by
    obtain ⟨t, ht, rfl⟩ := Array.getElem_of_mem hv
    refine (h.lower_lt t i ?_).2
    simpa [SparseLu.lowerCol, ht] using hi
  upper_lt v hv j hj := by
    obtain ⟨t, ht, rfl⟩ := Array.getElem_of_mem hv
    refine (h.upper_lt t j ?_).2
    simpa [SparseLu.upperRow, ht] using hj

namespace Guarded

open ActiveMatrix (Covered)

variable {α : Type} [Scalar α]

section Factorization

/-- Stores an updated value; a zero leaves the pattern of the column as it is. -/
def update (a : ActiveMatrix α) (i j : Nat) (v : α) : Checked (ActiveMatrix α) :=
  if Scalar.isZero v then blank a i j else insert a i j v

/-- Subtracts the multiple `l` of one entry of the pivot row from row `i`. -/
def updateEntry (l : α) (i : Nat) (a : ActiveMatrix α) (e : Nat × α) :
    Checked (ActiveMatrix α) := do
  update a i e.1 ((← value a i e.1) - l * e.2)

/-- Eliminates the value of row `i` in column `k`. -/
def cancelRow (upper : SparseVec α) (pivot : α) (k : Nat) (s : ActiveMatrix α × SparseVec α)
    (i : Nat) : Checked (ActiveMatrix α × SparseVec α) := do
  let l := (← value s.1 i k) / pivot
  let a ← blank s.1 i k
  if Scalar.isZero l then return (a, s.2)
  else
    let a ← upper.entries.foldlM (updateEntry l i) a
    return (a, s.2.insert i l)

/-- Eliminates with the pivots from `k` on; `steps` of them remain. -/
def factorFrom (tol : α) : (steps k : Nat) → ActiveMatrix α → SparseLu α →
    Attempt (SolverError α) (SparseLu α)
  | 0, _, _, f => .ok f
  | steps + 1, k, a, f => do
    let row ← .ofChecked (read a.rows k)
    let pivot := (row.find? k).getD 0
    if Scalar.lt tol (Scalar.abs pivot) then
      let column ← .ofChecked (read a.cols k)
      let below := column.indices.filter fun i => decide (k < i)
      let s ← .ofChecked (below.foldlM (cancelRow (row.erase k) pivot k) (a, .empty))
      factorFrom tol steps (k + 1) s.1 (f.push s.2 (row.erase k) pivot)
    else Attempt.fail (.numericallySingular k (Scalar.abs pivot))

/-- Factors a square block. -/
def factor (refactorTol : α) (block : SparseMatrix α) : Attempt (SolverError α) (SparseLu α) := do
  let active ← .ofChecked (ofSparse block)
  factorFrom (refactorTol * block.maxAbs) block.rows 0 active .empty

variable {a : ActiveMatrix α} {r k i : Nat}

omit [Scalar α] in
private theorem lt_of_mem_entries {v : SparseVec α} (hv : ∀ j, v.contains j = true → j < r)
    {e : Nat × α} (he : e ∈ v.entries) : e.1 < r :=
  hv e.1 (SparseVec.mem_indices_iff.1 (List.mem_map_of_mem he))

/-- A position inside the matrix can be updated. -/
theorem update_eq (hi : i < a.rows.size) {j : Nat} (hj : j < a.cols.size) (v : α) :
    update a i j v = .ok (SparseLu.update a i j v) := by
  rw [update, SparseLu.update]
  split
  · exact blank_eq hi j
  · exact insert_eq hi hj v

/-- A row inside the block can be eliminated. -/
theorem cancelRow_eq (h : a.Covered r r) {upper : SparseVec α}
    (hupper : ∀ j, upper.contains j = true → j < r) (pivot : α) (k : Nat) (lower : SparseVec α)
    (hi : i < r) :
    cancelRow upper pivot k (a, lower) i =
      .ok (SparseLu.eliminateRow upper pivot k (a, lower) i) := by
  have hsize : i < a.rows.size := h.size_rows.symm ▸ hi
  rw [cancelRow, SparseLu.eliminateRow]
  rw [value_eq hsize, blank_eq hsize]
  dsimp only [bind, Except.bind]
  split
  · rfl
  · have hloop : upper.entries.foldlM (updateEntry (a.value i k / pivot) i) (a.blank i k) =
        .ok (upper.entries.foldl (fun b e => SparseLu.update b i e.1
          (b.value i e.1 - a.value i k / pivot * e.2)) (a.blank i k)) := by
      refine foldlM_eq_ok (P := (Covered · r r)) (h.blank i k) fun b hb e he => ?_
      have hj : e.1 < r := lt_of_mem_entries hupper he
      have hib : i < b.rows.size := hb.size_rows.symm ▸ hi
      rw [updateEntry]
      rw [value_eq hib]
      exact ⟨update_eq hib (hb.size_cols.symm ▸ hj) _, SparseLu.covered_update hb hi hj _⟩
    rw [hloop]
    rfl

omit [Scalar α] in
/-- A step visits columns of its pivot row and rows of its pivot column. -/
private theorem visited_lt (h : a.Covered r r) (k : Nat) :
    (∀ j, ((a.row k).erase k).contains j = true → j < r) ∧
      ∀ i ∈ (a.column k).indices.filter fun i => decide (k < i), i < r := by
  refine ⟨fun j hj => ?_, fun i hi => ?_⟩
  · rw [SparseVec.contains_erase, Bool.and_eq_true] at hj
    exact h.col_lt hj.2
  · exact h.row_lt (SparseVec.mem_indices_iff.1 (List.mem_of_mem_filter hi))

/-- One step reads the row and the column of its pivot and visits the rows below. -/
theorem factorFrom_eq {tol : α} {steps : Nat} {f : SparseLu α} (h : a.Covered r r)
    (hsteps : k + steps = r) :
    factorFrom tol steps k a f = .ofExcept (SparseLu.factorFrom tol steps k a f) := by
  induction steps generalizing k a f with
  | zero => rfl
  | succ steps ih =>
    have hk : k < r := by omega
    obtain ⟨hupper, hbelow⟩ := visited_lt h k
    have hloop : ((a.column k).indices.filter fun i => decide (k < i)).foldlM
        (cancelRow ((a.row k).erase k) (a.value k k) k) (a, .empty) =
        .ok (((a.column k).indices.filter fun i => decide (k < i)).foldl
          (SparseLu.eliminateRow ((a.row k).erase k) (a.value k k) k) (a, .empty)) := by
      refine foldlM_eq_ok (P := fun s => s.1.Covered r r) h ?_
      rintro ⟨b, lower⟩ hb i hi
      exact ⟨cancelRow_eq hb hupper _ k lower (hbelow i hi),
        (SparseLu.covered_eliminateRow hb hupper _ k lower (hbelow i hi)).1⟩
    have hcov := (SparseLu.covered_eliminateRows h hupper (a.value k k) k .empty hbelow).1
    have hrow : read a.rows k = .ok (a.row k) := read_eq_ok (h.size_rows.symm ▸ hk) .empty
    have hcolumn : read a.cols k = .ok (a.column k) := read_eq_ok (h.size_cols.symm ▸ hk) .empty
    rw [factorFrom, SparseLu.factorFrom]
    rw [hrow, hcolumn]
    simp only [Attempt.ofChecked_ok, ok_bind]
    change (if Scalar.lt tol (Scalar.abs (a.value k k)) = true then _ else _) =
      Attempt.ofExcept (if Scalar.lt tol (Scalar.abs (a.value k k)) = true then _ else _)
    split
    · change (Attempt.ofChecked (((a.column k).indices.filter fun i => decide (k < i)).foldlM
        (cancelRow ((a.row k).erase k) (a.value k k) k) (a, .empty)) >>= _) = _
      rw [hloop, Attempt.ofChecked_ok, ok_bind]
      exact ih hcov (by omega)
    · rfl

/-- Every access of a factorization of a square block is in range. -/
theorem factor_eq (refactorTol : α) {block : SparseMatrix α} (hsquare : block.cols = block.rows) :
    factor refactorTol block = .ofExcept (SparseLu.factor refactorTol block) := by
  have h := (ActiveMatrix.ofSparse_aligned block).toCovered
  rw [hsquare] at h
  rw [factor]
  rw [ofSparse_eq, Attempt.ofChecked_ok, ok_bind]
  exact factorFrom_eq h (Nat.zero_add _)

/-- The factors that a factorization in natural order forms are shaped. -/
theorem shaped_factor {refactorTol : α} {block : SparseMatrix α} {f : SparseLu α}
    (hsquare : block.cols = block.rows) (hf : SparseLu.factor refactorTol block = .ok f) :
    f.Shaped block.rows block.rows :=
  (SparseLu.triangular_factor hsquare hf).shaped

end Factorization

section Solves

/-- Subtracts the multiple `x` of a sparse vector from a vector. -/
def subtractMultiple (v : SparseVec α) (x : α) (y : Array α) : Checked (Array α) :=
  v.entries.foldlM (fun y e => change y e.1 fun s => s - e.2 * x) y

/-- Subtracts the products of a sparse vector with the entries of a vector from a number. -/
def subtractProducts (v : SparseVec α) (s : α) (y : Array α) : Checked α :=
  v.entries.foldlM (fun s e => do return s - e.2 * (← read y e.1)) s

/-- Solves `L y = b`. -/
def solveLower (f : SparseLu α) (b : Array α) : Checked (Array α) :=
  (List.range f.dim).foldlM
    (fun y k => do subtractMultiple (← read f.lowerCols k) (← read y k) y) b

/-- Solves `U x = y` from the last row on. -/
def solveUpper (f : SparseLu α) (y : Array α) : Checked (Array α) :=
  (List.range f.dim).reverse.foldlM
    (fun x k => do
      let s ← subtractProducts (← read f.upperRows k) (← read x k) x
      write x k (s / (← read f.diagonal k))) y

/-- Solves `Uᵀ z = b`. -/
def solveUpperTranspose (f : SparseLu α) (b : Array α) : Checked (Array α) :=
  (List.range f.dim).foldlM
    (fun z k => do
      let zk := (← read z k) / (← read f.diagonal k)
      subtractMultiple (← read f.upperRows k) zk (← write z k zk)) b

/-- Solves `Lᵀ w = z` from the last row on. -/
def solveLowerTranspose (f : SparseLu α) (z : Array α) : Checked (Array α) :=
  (List.range f.dim).reverse.foldlM
    (fun w k => do write w k (← subtractProducts (← read f.lowerCols k) (← read w k) w)) z

/-- Solves in a given orientation. -/
def solveIn (f : SparseLu α) : Orientation → Array α → Checked (Array α)
  | .plain, b => do solveUpper f (← solveLower f b)
  | .transposed, b => do solveLowerTranspose f (← solveUpperTranspose f b)

variable {v : SparseVec α} {f : SparseLu α} {r k : Nat} {y : Array α}

/-- A multiple of a vector inside the block can be spread. -/
theorem subtractMultiple_eq (hv : ∀ i, v.contains i = true → i < r) (x : α) (hy : y.size = r) :
    subtractMultiple v x y = .ok (SparseLu.subtractMultiple v x y) := by
  refine foldlM_eq_ok (P := fun y => y.size = r) hy fun y hy e he => ⟨change_eq_ok ?_ _, ?_⟩
  · exact hy.symm ▸ lt_of_mem_entries hv he
  · rw [Array.size_modify]
    exact hy

/-- And its products can be gathered. -/
theorem subtractProducts_eq (hv : ∀ i, v.contains i = true → i < r) (s : α) (hy : y.size = r) :
    subtractProducts v s y = .ok (SparseLu.subtractProducts v s y) := by
  refine foldlM_eq_ok_of_forall (fun s e he => ?_) s
  rw [read_eq_ok (hy.symm ▸ lt_of_mem_entries hv he) 0]
  rfl

variable (h : f.Shaped r r)
include h

/-- Every access of the forward substitution is in range. -/
theorem solveLower_eq (hy : y.size = r) : solveLower f y = .ok (f.solveLower y) := by
  refine foldlM_eq_ok (P := fun y => y.size = r) hy fun y hy k hk => ?_
  have hk : k < r := h.size_diagonal ▸ List.mem_range.1 hk
  rw [read_eq_ok (h.size_lowerCols.symm ▸ hk) .empty, read_eq_ok (hy.symm ▸ hk) 0]
  exact ⟨subtractMultiple_eq (fun _ => h.lowerCol_lt) _ hy,
    (SparseLu.size_subtractMultiple _ _ _).trans hy⟩

/-- Of the backward substitution. -/
theorem solveUpper_eq (hy : y.size = r) : solveUpper f y = .ok (f.solveUpper y) := by
  refine foldlM_eq_ok (P := fun y => y.size = r) hy fun y hy k hk => ?_
  have hk : k < r := h.size_diagonal ▸ List.mem_range.1 (List.mem_reverse.1 hk)
  have hs := subtractProducts_eq (v := f.upperRow k) (fun _ => h.upperRow_lt) (y.getD k 0) hy
  rw [read_eq_ok (h.size_upperRows.symm ▸ hk) .empty, read_eq_ok (hy.symm ▸ hk) 0,
    read_eq_ok (h.size_diagonal.symm ▸ hk) 0, ok_bind, ok_bind]
  exact ⟨bind_eq_ok_iff.2 ⟨_, hs, write_eq_ok (hy.symm ▸ hk) _⟩, by simpa using hy⟩

/-- Of the transposed substitution with `U`. -/
theorem solveUpperTranspose_eq (hy : y.size = r) :
    solveUpperTranspose f y = .ok (f.solveUpperTranspose y) := by
  refine foldlM_eq_ok (P := fun y => y.size = r) hy fun y hy k hk => ?_
  have hk : k < r := h.size_diagonal ▸ List.mem_range.1 hk
  rw [read_eq_ok (hy.symm ▸ hk) 0, read_eq_ok (h.size_diagonal.symm ▸ hk) 0,
    read_eq_ok (h.size_upperRows.symm ▸ hk) .empty, ok_bind, ok_bind]
  refine ⟨bind_eq_ok_iff.2 ⟨_, rfl, bind_eq_ok_iff.2 ⟨_, write_eq_ok (hy.symm ▸ hk) _, ?_⟩⟩, ?_⟩
  · exact subtractMultiple_eq (fun _ => h.upperRow_lt) _ (by simpa using hy)
  · rw [SparseLu.size_subtractMultiple]
    simpa using hy

/-- And of that with `L`. -/
theorem solveLowerTranspose_eq (hy : y.size = r) :
    solveLowerTranspose f y = .ok (f.solveLowerTranspose y) := by
  refine foldlM_eq_ok (P := fun y => y.size = r) hy fun y hy k hk => ?_
  have hk : k < r := h.size_diagonal ▸ List.mem_range.1 (List.mem_reverse.1 hk)
  have hs := subtractProducts_eq (v := f.lowerCol k) (fun _ => h.lowerCol_lt) (y.getD k 0) hy
  rw [read_eq_ok (h.size_lowerCols.symm ▸ hk) .empty, read_eq_ok (hy.symm ▸ hk) 0, ok_bind, ok_bind]
  exact ⟨bind_eq_ok_iff.2 ⟨_, hs, write_eq_ok (hy.symm ▸ hk) _⟩, by simpa using hy⟩

/-- A solve with shaped factors keeps to the right-hand side, and its answer has the same length. -/
theorem solveIn_eq (o : Orientation) (hy : y.size = r) :
    solveIn f o y = f.solveIn o y ∧ ∃ x, f.solveIn o y = .ok x ∧ x.size = r := by
  have hdim : Checked.require (decide (f.dim ≤ y.size)) .index = .ok () :=
    Checked.require_decide (Nat.le_of_eq (h.size_diagonal.trans hy.symm)) _
  have hlower : (f.solveLower y).size = r := (SparseLu.size_solveLower f y).trans hy
  have hupper : (f.solveUpperTranspose y).size = r :=
    (SparseLu.size_solveUpperTranspose f y).trans hy
  cases o with
  | plain =>
    have hplain : f.solveIn .plain y = .ok (f.solveUpper (f.solveLower y)) :=
      bind_eq_ok_iff.2 ⟨(), hdim, rfl⟩
    rw [hplain, solveIn, solveLower_eq h hy]
    exact ⟨solveUpper_eq h hlower, _, rfl, (Vec.size_sweep _ _ _).trans hlower⟩
  | transposed =>
    have htransposed : f.solveIn .transposed y =
        .ok (f.solveLowerTranspose (f.solveUpperTranspose y)) :=
      bind_eq_ok_iff.2 ⟨(), hdim, rfl⟩
    rw [htransposed, solveIn, solveUpperTranspose_eq h hy]
    exact ⟨solveLowerTranspose_eq h hupper, _, rfl, (Vec.size_sweep _ _ _).trans hupper⟩

end Solves

end Guarded

end ReducedSpace
