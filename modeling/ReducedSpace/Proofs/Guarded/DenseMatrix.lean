import ReducedSpace.Proofs.Sparse.DenseAgreement
import ReducedSpace.Proofs.Guarded.Access

/-!
# Dense matrices with guarded accesses

The loops over a dense matrix change one entry after the other and read entries that may have been
changed before. Each of these accesses must lie inside the matrix. Between two changes the matrix is
a mixture of what it was and of what it will be. With that, a step of elimination, the conversion of
a sparse matrix, the writing of a column and the sum with the identity keep to the matrix, and the
loops leave what the equations on entries say.
-/

namespace ReducedSpace

variable {α : Type} [Scalar α]

namespace DenseMatrix

/-- The matrix with the entry at a position replaced. -/
def set (a : DenseMatrix α) (i j : Nat) (v : α) : DenseMatrix α :=
  ofFn a.rows a.cols fun i' j' => if i' = i ∧ j' = j then v else a.entry i' j'

/-- The matrix with the entries at some positions taken from another one of its size. -/
def mixed (a b : DenseMatrix α) (done : Nat → Nat → Prop) [∀ i j, Decidable (done i j)] :
    DenseMatrix α :=
  ofFn a.rows a.cols fun i j => if done i j then b.entry i j else a.entry i j

section Mixed

variable {a b : DenseMatrix α} {done done' : Nat → Nat → Prop} [∀ i j, Decidable (done i j)]
  [∀ i j, Decidable (done' i j)] {i j : Nat}

/-- An entry of a matrix that is done in part. -/
theorem entry_mixed (hi : i < a.rows) (hj : j < a.cols) :
    (mixed a b done).entry i j = if done i j then b.entry i j else a.entry i j := by
  rw [mixed, entry_ofFn, if_pos ⟨hi, hj⟩]

/-- Where the two matrices agree it does not matter which one an entry is taken from. -/
theorem mixed_congr (h : ∀ i j, i < a.rows → j < a.cols →
    (done i j ↔ done' i j) ∨ b.entry i j = a.entry i j) : mixed a b done = mixed a b done' := by
  refine ext_entry rfl rfl fun i j hi hj => ?_
  rw [entry_mixed (a := a) hi hj, entry_mixed (a := a) hi hj]
  have hij := h i j hi hj
  grind

/-- Nothing is changed yet. -/
theorem mixed_eq_left (h : ∀ i j, i < a.rows → j < a.cols → done i j → b.entry i j = a.entry i j) :
    mixed a b done = a := by
  refine ext_entry rfl rfl fun i j hi hj => ?_
  rw [entry_mixed (a := a) hi hj]
  have hij := h i j hi hj
  grind

/-- All is changed. -/
theorem mixed_eq_right (hrows : b.rows = a.rows) (hcols : b.cols = a.cols)
    (h : ∀ i j, i < a.rows → j < a.cols → ¬done i j → b.entry i j = a.entry i j) :
    mixed a b done = b := by
  refine ext_entry hrows.symm hcols.symm fun i j hi hj => ?_
  rw [entry_mixed (a := a) hi hj]
  have hij := h i j hi hj
  grind

/-- One more entry is changed. -/
theorem set_mixed (h : ∀ i' j', done' i' j' ↔ done i' j' ∨ i' = i ∧ j' = j) :
    (mixed a b done).set i j (b.entry i j) = mixed a b done' := by
  refine ext_entry rfl rfl fun i' j' hi hj => ?_
  rw [set, entry_ofFn, if_pos ⟨hi, hj⟩, entry_mixed (a := a) hi hj, entry_mixed (a := a) hi hj]
  have hij := h i' j'
  grind

/-- Two sets of positions are changed, one after the other. -/
theorem mixed_mixed {p : Nat → Nat → Prop} [∀ i j, Decidable (p i j)]
    (h : ∀ i j, p i j ↔ done i j ∨ done' i j) :
    mixed (mixed a b done) b done' = mixed a b p := by
  refine ext_entry rfl rfl fun i j hi hj => ?_
  rw [entry_mixed (a := mixed a b done) hi hj, entry_mixed (a := a) hi hj,
    entry_mixed (a := a) hi hj]
  have hij := h i j
  grind

end Mixed

end DenseMatrix

namespace Guarded

open DenseMatrix (mixed entry_mixed)

section Access

/-- The entry at a position, which must be inside the matrix. -/
def entry (a : DenseMatrix α) (i j : Nat) : Checked α :=
  if i < a.rows ∧ j < a.cols then .ok (a.entry i j) else .error .index

/-- Replaces the entry at a position, which must be inside the matrix. -/
def put (a : DenseMatrix α) (i j : Nat) (v : α) : Checked (DenseMatrix α) :=
  if i < a.rows ∧ j < a.cols then .ok (a.set i j v) else .error .index

/-- Exchanges two rows, which must be inside the matrix. -/
def swapRows (a : DenseMatrix α) (k p : Nat) : Checked (DenseMatrix α) :=
  if k < a.rows ∧ p < a.rows then .ok (a.swapRows k p) else .error .index

/-- Exchanges two columns, which must be inside the matrix. -/
def swapCols (a : DenseMatrix α) (k q : Nat) : Checked (DenseMatrix α) :=
  if k < a.cols ∧ q < a.cols then .ok (a.swapCols k q) else .error .index

variable {a b : DenseMatrix α} {i j : Nat}

/-- An entry inside the matrix can be read. -/
theorem entry_eq (hi : i < a.rows) (hj : j < a.cols) : entry a i j = .ok (a.entry i j) :=
  if_pos ⟨hi, hj⟩

/-- And overwritten. -/
theorem put_eq (hi : i < a.rows) (hj : j < a.cols) (v : α) : put a i j v = .ok (a.set i j v) :=
  if_pos ⟨hi, hj⟩

variable {done done' : Nat → Nat → Prop} [∀ i j, Decidable (done i j)]
  [∀ i j, Decidable (done' i j)]

/-- An entry that is not changed yet, or never, is read as it was. -/
theorem entry_mixed_eq (hi : i < a.rows) (hj : j < a.cols)
    (h : done i j → b.entry i j = a.entry i j) :
    entry (mixed a b done) i j = .ok (a.entry i j) := by
  rw [entry_eq (a := mixed a b done) hi hj, entry_mixed (a := a) hi hj]
  grind

/-- One more entry is changed. -/
theorem put_mixed_eq (hi : i < a.rows) (hj : j < a.cols) {v : α} (hv : v = b.entry i j)
    (h : ∀ i' j', done' i' j' ↔ done i' j' ∨ i' = i ∧ j' = j) :
    put (mixed a b done) i j v = .ok (mixed a b done') := by
  rw [hv, ← DenseMatrix.set_mixed h]
  exact put_eq (a := mixed a b done) hi hj _

end Access

section Elimination

/-- Takes the multiple `l` of the pivot row `k` off row `i`, to the right of the pivot. -/
def subtractRow (a : DenseMatrix α) (k i : Nat) (l : α) : Checked (DenseMatrix α) :=
  (List.range' (k + 1) (a.cols - (k + 1))).foldlM
    (fun a j => do
      let v ← entry a k j
      let old ← entry a i j
      put a i j (old - l * v)) a

/-- Eliminates in row `i`: the multiplier replaces the entry below the pivot, and unless it is zero
the row loses its multiple of the pivot row. -/
def reduceRow (k : Nat) (pivot : α) (a : DenseMatrix α) (i : Nat) : Checked (DenseMatrix α) := do
  let l := (← entry a i k) / pivot
  let a ← put a i k l
  if Scalar.isZero l then return a else subtractRow a k i l

/-- One step of elimination below the pivot `(k, k)`, row by row. -/
def reduce (a : DenseMatrix α) (k : Nat) : Checked (DenseMatrix α) := do
  let pivot ← entry a k k
  (List.range' (k + 1) (a.rows - (k + 1))).foldlM (reduceRow k pivot) a

/-- A matrix in the middle of a step of elimination: the rows before row `b`, and in row `b` the
columns before column `c`, are eliminated. -/
def eliminating (a : DenseMatrix α) (k b c : Nat) : DenseMatrix α :=
  mixed a (a.eliminate k) fun i j => i < b ∨ i = b ∧ j < c

variable {a : DenseMatrix α} {k b : Nat}

/-- The entries of a row are computed from the pivot row, which stays as it is, and from the row as
it was before the step. -/
private theorem subtractRow_eq (hk : k < b) (hb : b < a.rows) (hcols : k < a.cols)
    (hnonzero : ¬Scalar.isZero (a.entry b k / a.entry k k)) :
    subtractRow (eliminating a k b (k + 1)) k b (a.entry b k / a.entry k k) =
      .ok (eliminating a k b a.cols) := by
  refine foldlM_range'_eq_ok (eliminating a k b) hcols rfl rfl fun j hj hj' => ?_
  have hk' : k < a.rows := Nat.lt_trans hk hb
  have hpivotRow : entry (eliminating a k b j) k j = .ok (a.entry k j) :=
    entry_mixed_eq hk' hj' fun _ => by
      rw [DenseMatrix.entry_eliminate a k hk' hj', if_pos (.inl (Nat.le_refl k))]
  have hold : entry (eliminating a k b j) b j = .ok (a.entry b j) :=
    entry_mixed_eq hb hj' fun h => by omega
  rw [hpivotRow, ok_bind, hold, ok_bind]
  refine put_mixed_eq hb hj' ?_ fun i' j' => by omega
  rw [DenseMatrix.entry_eliminate a k hb hj']
  grind

private theorem reduceRow_eq (hk : k < b) (hb : b < a.rows) (hcols : k < a.cols) :
    reduceRow k (a.entry k k) (eliminating a k b 0) b = .ok (eliminating a k (b + 1) 0) := by
  have hstart : eliminating a k b 0 = eliminating a k b k := DenseMatrix.mixed_congr
    fun i j hi hj => by
      rw [DenseMatrix.entry_eliminate a k hi hj]
      grind
  have hold : entry (eliminating a k b k) b k = .ok (a.entry b k) :=
    entry_mixed_eq hb hcols fun h => by omega
  have hmultiplier : put (eliminating a k b k) b k (a.entry b k / a.entry k k) =
      .ok (eliminating a k b (k + 1)) := by
    refine put_mixed_eq hb hcols ?_ fun i' j' => by omega
    rw [DenseMatrix.entry_eliminate a k hb hcols]
    grind
  rw [hstart, reduceRow]
  rw [hold, ok_bind]
  dsimp only
  rw [hmultiplier, ok_bind]
  split
  · refine congrArg Except.ok (DenseMatrix.mixed_congr fun i j hi hj => ?_)
    rw [DenseMatrix.entry_eliminate a k hi hj]
    grind
  · rename_i hnonzero
    rw [subtractRow_eq hk hb hcols hnonzero]
    exact congrArg Except.ok (DenseMatrix.mixed_congr fun i j hi hj => .inl (by omega))

/-- A step of elimination keeps to the matrix. -/
theorem reduce_eq (hrows : k < a.rows) (hcols : k < a.cols) :
    reduce a k = .ok (a.eliminate k) := by
  have hstart : eliminating a k (k + 1) 0 = a := DenseMatrix.mixed_eq_left fun i j hi hj h => by
    rw [DenseMatrix.entry_eliminate a k hi hj, if_pos (.inl (by omega))]
  have hlast : eliminating a k a.rows 0 = a.eliminate k :=
    DenseMatrix.mixed_eq_right rfl rfl fun i j hi _ h => absurd (.inl hi) h
  rw [reduce]
  rw [entry_eq hrows hcols, ok_bind]
  exact foldlM_range'_eq_ok (fun b => eliminating a k b 0) hrows hstart hlast
    fun b hb hb' => reduceRow_eq hb hb' hcols

end Elimination

section Filling

/-- The dense matrix with the values of a sparse one, added one after the other to zeros. -/
def toDense (a : SparseMatrix α) : Checked (DenseMatrix α) :=
  a.toTriplets.foldlM
    (fun d t => do
      let old ← entry d t.1 t.2.1
      put d t.1 t.2.1 (old + t.2.2))
    (.zero a.rows a.cols)

/-- Writes a vector into column `j`. -/
def putColumn (a : DenseMatrix α) (j : Nat) (v : Array α) : Checked (DenseMatrix α) :=
  (List.range v.size).foldlM (fun a i => do put a i j (← read v i)) a

/-- Adds one to each entry of the diagonal. -/
def addIdentity (a : DenseMatrix α) : Checked (DenseMatrix α) :=
  (List.range a.rows).foldlM
    (fun a i => do
      let old ← entry a i i
      put a i i (old + 1)) a

/-- The triplets of a sparse matrix lie inside the dense one. -/
theorem toDense_eq (a : SparseMatrix α) : toDense a = .ok a.toDense := by
  rw [← a.toDenseByTriplets_eq]
  refine foldlM_eq_ok (P := fun d : DenseMatrix α => d.rows = a.rows ∧ d.cols = a.cols)
    ⟨rfl, rfl⟩ fun d hd t ht => ⟨?_, hd⟩
  obtain ⟨hi, hj⟩ := SparseMatrix.lt_of_find?_eq_some (SparseMatrix.mem_toTriplets_iff.1 ht)
  have hi' : t.1 < d.rows := Nat.lt_of_lt_of_eq hi hd.1.symm
  have hj' : t.2.1 < d.cols := Nat.lt_of_lt_of_eq hj hd.2.symm
  rw [entry_eq hi' hj', ok_bind]
  exact put_eq hi' hj' _

/-- A vector that is as long as a column replaces it. -/
theorem putColumn_eq {a b : DenseMatrix α} {j : Nat} {v : Array α} (hj : j < a.cols)
    (hv : v.size = a.rows) (hb : ∀ i < a.rows, v.getD i 0 = b.entry i j) :
    putColumn a j v = .ok (mixed a b fun _ j' => j' = j) := by
  have hstart : mixed a b (fun i j' => i < 0 ∧ j' = j) = a :=
    DenseMatrix.mixed_eq_left fun i j' _ _ h => by omega
  have hlast : mixed a b (fun i j' => i < v.size ∧ j' = j) = mixed a b fun _ j' => j' = j :=
    DenseMatrix.mixed_congr fun i j' hi _ => .inl (by omega)
  refine foldlM_range_eq_ok (fun t => mixed a b fun i j' => i < t ∧ j' = j) hstart hlast
    fun i hi => ?_
  rw [read_eq_ok hi 0, ok_bind]
  exact put_mixed_eq (hv ▸ hi) hj (hb i (hv ▸ hi)) fun i' j' => by omega

/-- The diagonal of a square matrix lies inside it. -/
theorem addIdentity_eq {a : DenseMatrix α} (hsquare : a.rows = a.cols) :
    addIdentity a = .ok a.addIdentity := by
  have hentry {i j : Nat} (hi : i < a.rows) (hj : j < a.cols) :
      a.addIdentity.entry i j = if i = j then a.entry i j + 1 else a.entry i j := by
    rw [DenseMatrix.addIdentity, DenseMatrix.entry_ofFn, if_pos ⟨hi, hj⟩]
  have hstart : mixed a a.addIdentity (fun i j => i < 0 ∧ i = j) = a :=
    DenseMatrix.mixed_eq_left fun i j _ _ h => by omega
  have hlast : mixed a a.addIdentity (fun i j => i < a.rows ∧ i = j) = a.addIdentity :=
    DenseMatrix.mixed_eq_right rfl rfl fun i j hi hj h => by
      rw [hentry hi hj, if_neg fun hij => h ⟨hi, hij⟩]
  refine foldlM_range_eq_ok (fun t => mixed a a.addIdentity fun i j => i < t ∧ i = j) hstart hlast
    fun i hi => ?_
  have hi' : i < a.cols := hsquare ▸ hi
  rw [entry_mixed_eq hi hi' fun h => by omega, ok_bind]
  refine put_mixed_eq hi hi' ?_ fun i' j' => by omega
  rw [hentry hi hi', if_pos rfl]

end Filling

end Guarded

end ReducedSpace
