import ReducedSpace.Proofs.Basis.ActiveMatrix
import ReducedSpace.Basis.SparseLu

/-!
# No zero is stored

An active matrix starts with the nonzero entries of a matrix, and an update that vanishes removes
the entry. So neither the search nor the factorization ever stores a zero, whatever cancels. In exact
arithmetic, what is stored at a position can then be read off its value.
-/

namespace ReducedSpace

variable {α : Type} [Scalar α]

namespace SparseVec

/-- No stored value is zero. -/
def ZeroFree (v : SparseVec α) : Prop := ∀ i w, v.find? i = some w → Scalar.isZero w = false

variable {v : SparseVec α}

/-- The empty vector stores no zero. -/
theorem zeroFree_empty : (empty : SparseVec α).ZeroFree := by
  intro i w h
  cases h

/-- Nor does a vector with an entry erased. -/
theorem ZeroFree.erase (h : v.ZeroFree) (i : Nat) : (v.erase i).ZeroFree := by
  intro j w hw
  rw [find?_erase] at hw
  split at hw
  · cases hw
  · exact h j w hw

/-- Nor one with another value inserted that is not zero. -/
theorem ZeroFree.insert (h : v.ZeroFree) (i : Nat) {w : α} (hw : Scalar.isZero w = false) :
    (v.insert i w).ZeroFree := by
  intro j x hx
  rw [find?_insert] at hx
  split at hx
  · cases hx
    exact hw
  · exact h j x hx

end SparseVec

namespace ActiveMatrix

/-- No row stores a zero. -/
def ZeroFree (a : ActiveMatrix α) : Prop := ∀ i, (a.row i).ZeroFree

variable {a : ActiveMatrix α}

/-- The working copy of a matrix takes over values that are not zero only. -/
theorem zeroFree_ofSparse (a : SparseMatrix α) : (ofSparse a).ZeroFree := by
  intro i j v hv
  rw [find?_row_ofSparse] at hv
  simpa using (Option.filter_eq_some_iff.1 hv).2

/-- Changing one row so that it stores no zero. -/
private theorem ZeroFree.modify (h : a.ZeroFree) (i : Nat) {f : SparseVec α → SparseVec α}
    (hf : (f (a.row i)).ZeroFree) (cols : Array IndexSet) :
    ZeroFree ⟨a.rows.modify i f, cols⟩ := by
  intro i'
  unfold row
  rw [getD_modify]
  split
  · exact hf
  · exact h i'

/-- Erasing an entry stores nothing. -/
theorem ZeroFree.erase (h : a.ZeroFree) (i j : Nat) : (a.erase i j).ZeroFree :=
  h.modify i ((h i).erase j) _

/-- Nor does blanking one. -/
theorem ZeroFree.blank (h : a.ZeroFree) (i j : Nat) : (a.blank i j).ZeroFree :=
  h.modify i ((h i).erase j) _

/-- Inserting a value that is not zero stores no zero. -/
theorem ZeroFree.insert (h : a.ZeroFree) (i j : Nat) {v : α} (hv : Scalar.isZero v = false) :
    (a.insert i j v).ZeroFree :=
  h.modify i ((h i).insert j hv) _

/-- Storing drops zeros. -/
theorem ZeroFree.store (h : a.ZeroFree) (i j : Nat) (v : α) : (a.store i j v).ZeroFree := by
  rw [ActiveMatrix.store]
  split
  · exact h.erase i j
  · rename_i hv
    exact h.insert i j (by simpa using hv)

/-- Clearing a row erases entries only. -/
theorem ZeroFree.clearRow (h : a.ZeroFree) (i : Nat) : (a.clearRow i).ZeroFree := by
  rw [ActiveMatrix.clearRow]
  exact List.foldlRecOn (motive := ZeroFree) _ _ h fun b hb j _ => hb.erase i j

/-- Eliminating a row blanks one entry and stores the others. -/
theorem ZeroFree.eliminateRow (h : a.ZeroFree) (pivotRow : SparseVec α) (pivot : α) (q i : Nat) :
    (ActiveMatrix.eliminateRow pivotRow pivot q a i).ZeroFree := by
  unfold ActiveMatrix.eliminateRow
  dsimp only
  split
  · exact h.erase i q
  · refine List.foldlRecOn (motive := ZeroFree) _ _ (h.erase i q) fun b hb e _ => ?_
    split
    · exact hb
    · exact hb.store i e.1 _

/-- Elimination with any pivot stores no zero. -/
theorem ZeroFree.eliminate (h : a.ZeroFree) (p q : Nat) : (a.eliminate p q).ZeroFree := by
  unfold ActiveMatrix.eliminate
  dsimp only
  exact List.foldlRecOn (motive := ZeroFree) _ _ (h.clearRow p) fun b hb i _ =>
    hb.eliminateRow _ _ q i

end ActiveMatrix

namespace SparseLu

open ActiveMatrix (ZeroFree)

/-- Neither factor stores a zero off its diagonal. -/
structure StoresNoZero (f : SparseLu α) : Prop where
  lowerCol : ∀ k, (f.lowerCol k).ZeroFree
  upperRow : ∀ k, (f.upperRow k).ZeroFree

/-- Factors without any row store no zero. -/
theorem storesNoZero_empty : (empty : SparseLu α).StoresNoZero where
  lowerCol _ := SparseVec.zeroFree_empty
  upperRow _ := SparseVec.zeroFree_empty

/-- Rows and columns without stored zeros may be appended. -/
theorem StoresNoZero.push {f : SparseLu α} (h : f.StoresNoZero) {lower upper : SparseVec α}
    (hlower : lower.ZeroFree) (hupper : upper.ZeroFree) (pivot : α) :
    (f.push lower upper pivot).StoresNoZero := by
  refine ⟨fun k => ?_, fun k => ?_⟩
  · unfold SparseLu.push SparseLu.lowerCol
    rw [getD_push]
    split
    · exact hlower
    · exact h.lowerCol k
  · unfold SparseLu.push SparseLu.upperRow
    rw [getD_push]
    split
    · exact hupper
    · exact h.upperRow k

/-- The update of a sparse factorization drops zeros as well. -/
theorem zeroFree_update {a : ActiveMatrix α} (h : a.ZeroFree) (i j : Nat) (v : α) :
    (update a i j v).ZeroFree := by
  rw [update]
  split
  · exact h.blank i j
  · rename_i hv
    exact h.insert i j (by simpa using hv)

/-- A row keeps no update that vanishes, and a column of `L` no multiplier that does. -/
theorem zeroFree_eliminateRow {s : ActiveMatrix α × SparseVec α}
    (h : s.1.ZeroFree ∧ s.2.ZeroFree) (upper : SparseVec α) (pivot : α) (k i : Nat) :
    (eliminateRow upper pivot k s i).1.ZeroFree ∧ (eliminateRow upper pivot k s i).2.ZeroFree := by
  unfold eliminateRow
  dsimp only
  split
  · exact ⟨h.1.blank i k, h.2⟩
  · rename_i hl
    refine ⟨?_, h.2.insert i (by simpa using hl)⟩
    exact List.foldlRecOn (motive := ZeroFree) _ _ (h.1.blank i k) fun b hb e _ =>
      zeroFree_update hb i e.1 _

/-- A factorization that succeeds stores no zero. -/
theorem storesNoZero_factorFrom {tol : α} {steps k : Nat} {a : ActiveMatrix α} {f g : SparseLu α}
    (ha : a.ZeroFree) (hf : f.StoresNoZero) (h : factorFrom tol steps k a f = .ok g) :
    g.StoresNoZero := by
  induction steps generalizing k a f with
  | zero =>
    cases h
    exact hf
  | succ steps ih =>
    rw [factorFrom] at h
    dsimp only at h
    split at h
    · have hnext := List.foldlRecOn
        (motive := fun s : ActiveMatrix α × SparseVec α => s.1.ZeroFree ∧ s.2.ZeroFree)
        ((a.column k).indices.filter fun i => decide (k < i))
        (eliminateRow ((a.row k).erase k) (a.value k k) k) (b := (a, .empty))
        ⟨ha, SparseVec.zeroFree_empty⟩ fun s hs i _ => zeroFree_eliminateRow hs _ _ k i
      exact ih hnext.1 (hf.push hnext.2 ((ha k).erase k) _) h
    · cases h

/-- So complete factors store no zero. -/
theorem storesNoZero_factor {refactorTol : α} {block : SparseMatrix α} {f : SparseLu α}
    (h : factor refactorTol block = .ok f) : f.StoresNoZero :=
  storesNoZero_factorFrom (ActiveMatrix.zeroFree_ofSparse block) storesNoZero_empty h

end SparseLu

end ReducedSpace
