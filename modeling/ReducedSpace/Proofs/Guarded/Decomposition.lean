import ReducedSpace.Proofs.Decomposer.Publication
import ReducedSpace.Proofs.Guarded.Views

/-!
# Preparing a decomposition with guarded accesses

The blocks of the gradients are cut out of the orders of the partition, the columns of `D` are
solved for in a buffer and written into the matrix, and `I + Dᵀ D` must be square before it is
factored. With factors that can be solved with and gradients of the size of the partition nothing
of this can go wrong, and what is built has the sizes that the self-test relies on.
-/

namespace ReducedSpace

variable {α S N : Type} [Scalar α] [Factorization S N α] [GuardedFactorization S N α]

namespace Guarded

section Building

omit [Factorization S N α]

/-- The dependent rows and decomposed columns. -/
def basisBlock (p : Partition) (gc : SparseMatrix α) : Checked (SparseMatrix α) := do
  select gc (← slice p.varPerm.olds 0 p.rank) (← slice p.equPerm.olds 0 p.rank)

/-- The independent rows and decomposed columns. -/
def nonbasisBlock (p : Partition) (gc : SparseMatrix α) : Checked (SparseMatrix α) := do
  select gc (← slice p.varPerm.olds p.rank p.n) (← slice p.equPerm.olds 0 p.rank)

/-- All rows in the order of the partition, and the undecomposed columns. -/
def undecomposedBlock (p : Partition) (gc : SparseMatrix α) : Checked (SparseMatrix α) := do
  select gc p.varPerm.olds (← slice p.equPerm.olds p.rank p.m)

/-- Forms column `j` of `D`. The entries of the column of `N` are written into a buffer of zeros, and
unless all of them are zero the negative solution is written into the matrix. -/
def formColumn (basis : BasisMatrix S N) (n : SparseMatrix α) (d : DenseMatrix α) (j : Nat) :
    Checked (DenseMatrix α) := do
  let column ← read n.columns j
  let rhs ← column.entries.foldlM (fun y e => write y e.1 e.2) (Vec.zero n.rows)
  if Scalar.isZero (Vec.normInf rhs) then return d
  else
    let solution ← solve basis .transposed rhs
    putColumn d j (Vec.neg solution)

/-- The matrix `D`, column by column. -/
def formSensitivity (basis : BasisMatrix S N) (n : SparseMatrix α) : Checked (DenseMatrix α) :=
  (List.range n.cols).foldlM (formColumn basis n) (.zero n.rows n.cols)

/-- The factors of `I + Dᵀ D`, which is a product of matrices that fit and square. -/
def factorGram (rank : Nat) (d : DenseMatrix α) :
    Attempt (DecompError α) (Option (Cholesky α)) := do
  if d.cols = 0 then return none
  else
    .ofChecked (Checked.sameLength d.transpose.cols d.rows)
    let gram ← .ofChecked (addIdentity (d.transpose.mul d))
    .ofChecked (Checked.sameLength gram.rows gram.cols)
    match Cholesky.factor? gram with
    | some gram => return some gram
    | none => Attempt.fail (.numericallySingular rank d.maxAbs)

/-- `D` in the form that the settings ask for. -/
def storeSensitivity (settings : Settings α) (rank : Nat) (basis : BasisMatrix S N)
    (n : SparseMatrix α) : Attempt (DecompError α) (StoredSensitivity α) :=
  match settings.kind, settings.sensitivity with
  | .coordinate, .implicit => return .implicit
  | .coordinate, .explicit => return .explicit (← .ofChecked (formSensitivity basis n))
  | .orthogonal, _ => do
    let d ← .ofChecked (formSensitivity basis n)
    return .orthogonal d (← factorGram rank d)

/-- The decomposition of a matrix of gradients for a partition and the factors of its basis. -/
def build (partition : Partition) (basis : BasisMatrix S N) (gc : SparseMatrix α)
    (settings : Settings α) (generation : Nat) :
    Attempt (DecompError α) (Decomposition α S N) := do
  if basis.dim ≠ partition.rank then
    Attempt.fail (.dimensionMismatch "basis factorization" partition.rank basis.dim)
  else
    let block ← .ofChecked (basisBlock partition gc)
    let other ← .ofChecked (nonbasisBlock partition gc)
    let nonbasis ← .ofChecked (transpose other)
    let undecomposed ←
      if partition.rank < partition.m then
        (Attempt.ofChecked (undecomposedBlock partition gc)).map some
      else pure none
    let sensitivity ← storeSensitivity settings partition.rank basis nonbasis
    return ⟨partition, generation, basis, block, nonbasis, sensitivity, undecomposed⟩

end Building

/-- A decomposition that is ready to be published: built and, if the settings ask for it, tested. -/
def prepare (settings : Settings α) (partition : Partition) (basis : BasisMatrix S N)
    (gc : SparseMatrix α) (generation : Nat) : Attempt (DecompError α) (Decomposition α S N) := do
  let dec ← build partition basis gc settings generation
  if settings.testDecomposition then
    let _ ← verify dec gc settings.testTol
    return dec
  else return dec

section Blocks

variable {p : Partition} {gc b : SparseMatrix α}

omit [Scalar α] in
private theorem slice_decompEqus (p : Partition) :
    slice p.equPerm.olds 0 p.rank = .ok p.decompEqus :=
  slice_eq_ok (Nat.zero_le _) p.rank_le_m

/-- Where the basis block can be taken, all accesses are in range. -/
theorem basisBlock_eq (h : p.basisBlock gc = .ok b) : basisBlock p gc = .ok b := by
  have hdep : slice p.varPerm.olds 0 p.rank = .ok p.depVars :=
    slice_eq_ok (Nat.zero_le _) p.rank_le_n
  rw [basisBlock]
  rw [hdep, slice_decompEqus]
  exact select_eq h

/-- And so for the block `N`. -/
theorem nonbasisBlock_eq (h : p.nonbasisBlock gc = .ok b) : nonbasisBlock p gc = .ok b := by
  have hindep : slice p.varPerm.olds p.rank p.n = .ok p.indepVars :=
    slice_eq_ok p.rank_le_n (Nat.le_refl _)
  rw [nonbasisBlock]
  rw [hindep, slice_decompEqus]
  exact select_eq h

/-- And for the undecomposed block. -/
theorem undecomposedBlock_eq (h : p.undecomposedBlock gc = .ok b) :
    undecomposedBlock p gc = .ok b := by
  have hundecomp : slice p.equPerm.olds p.rank p.m = .ok p.undecompEqus :=
    slice_eq_ok p.rank_le_m (Nat.le_refl _)
  rw [undecomposedBlock]
  rw [hundecomp]
  exact select_eq h

end Blocks

section Sensitivity

omit [Factorization S N α] [GuardedFactorization S N α] in
/-- Entries at different indices are written next to each other. -/
private theorem write_entries {entries : List (Nat × α)} {y : Array α}
    (hsorted : entries.Pairwise fun a b => a.1 < b.1) (hlt : ∀ e ∈ entries, e.1 < y.size) :
    ∃ z, entries.foldlM (fun y e => write y e.1 e.2) y = .ok z ∧ z.size = y.size ∧
      ∀ i, z.getD i 0 = (SparseVec.lookup i entries).getD (y.getD i 0) := by
  induction entries generalizing y with
  | nil => exact ⟨y, rfl, rfl, fun i => rfl⟩
  | cons e entries ih =>
    obtain ⟨k, v⟩ := e
    obtain ⟨hfirst, hsorted⟩ := List.pairwise_cons.1 hsorted
    have hk : k < y.size := hlt _ List.mem_cons_self
    obtain ⟨z, hz, hsize, hget⟩ := ih (y := y.setIfInBounds k v) hsorted fun e he => by
      rw [Array.size_setIfInBounds]
      exact hlt e (List.mem_cons_of_mem _ he)
    refine ⟨z, ?_, hsize.trans Array.size_setIfInBounds, fun i => ?_⟩
    · rw [List.foldlM_cons, write_eq_ok hk]
      exact hz
    · rw [hget, SparseVec.lookup]
      by_cases hi : k = i
      · subst hi
        rw [if_pos rfl, SparseVec.lookup_eq_none_of_lt hfirst]
        simp [hk]
      · rw [if_neg hi]
        simp [Array.getD_eq_getD_getElem?, Array.getElem?_setIfInBounds_ne hi]

omit [Factorization S N α] [GuardedFactorization S N α] in
/-- Writing the entries of a column into zeros gives the column. -/
private theorem write_column (n : SparseMatrix α) (j : Nat) :
    (n.column j).entries.foldlM (fun y e => write y e.1 e.2) (Vec.zero n.rows) =
      .ok (tabulate n.rows fun i => n.entry i j) := by
  obtain ⟨z, hz, hsize, hget⟩ := write_entries (y := Vec.zero n.rows) (n.column j).sorted
    fun e he => by
      rw [Vec.size_zero]
      exact (SparseMatrix.lt_of_find?_eq_some ((SparseVec.mem_entries_iff _ e.1 e.2).1 he)).1
  rw [Vec.size_zero] at hsize
  refine hz.trans (congrArg Except.ok ?_)
  refine (tabulate_getD z 0).symm.trans (Array.ext_getElem? fun i => ?_)
  rw [getElem?_tabulate, getElem?_tabulate, hsize, hget, Vec.getD_zero]
  rfl

variable {basis : BasisMatrix S N} {n : SparseMatrix α}

/-- A column of `D` is found, and it is written over a column of zeros. -/
private theorem exists_column (h : basis.Solvable) (hdim : basis.dim = n.rows) {j : Nat}
    (hj : j < n.cols) :
    ∃ v, Decomposition.sensitivityColumn basis n j = .ok v ∧
      ∀ a b : DenseMatrix α, a.rows = n.rows → j < a.cols → (∀ i < a.rows, a.entry i j = 0) →
        (∀ i < a.rows, v.getD i 0 = b.entry i j) →
        formColumn basis n a j = .ok (a.mixed b fun _ j' => j' = j) := by
  have hread : read n.columns j = .ok (n.column j) := read_eq_ok (n.size_columns.symm ▸ hj) .empty
  obtain ⟨x, hguarded, hplain, hx⟩ := h.exists_eq .transposed
    (x := tabulate n.rows fun i => n.entry i j) ((size_tabulate _ _).trans hdim.symm)
  have hneg : (Vec.neg x).size = n.rows := by
    rw [Vec.size_neg, hx, hdim]
  unfold formColumn Decomposition.sensitivityColumn
  simp only [hread, ok_bind, write_column, hguarded, hplain]
  split
  · refine ⟨_, rfl, fun a b _ _ hzero hb => congrArg Except.ok (DenseMatrix.mixed_eq_left ?_).symm⟩
    rintro i _ hi _ rfl
    rw [hzero i hi, ← hb i hi, Vec.getD_zero]
  · exact ⟨_, rfl, fun a b hrows hj _ hb => putColumn_eq hj (hneg.trans hrows.symm) hb⟩

omit [Factorization S N α] in
/-- Columns that are written over zeros, one after the other, form the matrix. -/
private theorem formSensitivity_eq {d : DenseMatrix α} (hrows : d.rows = n.rows)
    (hcols : d.cols = n.cols) (hform : ∀ j < n.cols, ∀ a : DenseMatrix α, a.rows = n.rows →
      j < a.cols → (∀ i < a.rows, a.entry i j = 0) →
        formColumn basis n a j = .ok (a.mixed d fun _ j' => j' = j)) :
    formSensitivity basis n = .ok d := by
  have hstart : (DenseMatrix.zero n.rows n.cols).mixed d (fun _ j => j < 0) =
      .zero n.rows n.cols := DenseMatrix.mixed_eq_left fun i j _ _ h => by omega
  have hlast : (DenseMatrix.zero n.rows n.cols).mixed d (fun _ j => j < n.cols) = d :=
    DenseMatrix.mixed_eq_right hrows hcols fun i j _ hj h => absurd hj h
  refine foldlM_range_eq_ok (fun t => (DenseMatrix.zero n.rows n.cols).mixed d fun _ j => j < t)
    hstart hlast fun t ht => ?_
  rw [hform t ht _ rfl ht fun i hi => ?_,
    DenseMatrix.mixed_mixed (p := fun _ j => j < t + 1) fun i j => by omega]
  rw [DenseMatrix.entry_mixed (a := .zero n.rows n.cols) hi ht, if_neg (Nat.lt_irrefl t),
    DenseMatrix.zero, DenseMatrix.entry_ofFn, if_pos ⟨hi, ht⟩]

/-- `D` is formed, and it has the size of `N`. -/
theorem exists_formSensitivity (h : basis.Solvable) (hdim : basis.dim = n.rows) :
    ∃ d, formSensitivity basis n = .ok d ∧ Decomposition.formSensitivity basis n = .ok d ∧
      d.rows = n.rows ∧ d.cols = n.cols := by
  choose! v hplain hform using fun j (hj : j < n.cols) => exists_column h hdim hj
  have hcolumns := mapM_eq_ok (l := List.range n.cols) fun j hj => hplain j (List.mem_range.1 hj)
  have hcols : ((List.range n.cols).map v).toArray.size = n.cols := by
    rw [List.size_toArray, List.length_map, List.length_range]
  have hentry {i j : Nat} (hi : i < n.rows) (hj : j < n.cols) : (v j).getD i 0 =
      (DenseMatrix.ofColumns n.rows ((List.range n.cols).map v).toArray).entry i j := by
    unfold DenseMatrix.ofColumns
    rw [DenseMatrix.entry_ofFn, if_pos ⟨hi, hcols.symm ▸ hj⟩]
    simp [hj]
  exact ⟨_, formSensitivity_eq rfl hcols fun j hj a ha hja hzero =>
    hform j hj a _ ha hja hzero fun i hi => hentry (ha ▸ hi) hj,
    bind_eq_ok_iff.2 ⟨_, hcolumns, rfl⟩, rfl, hcols⟩

omit [Factorization S N α] [GuardedFactorization S N α] in
/-- Forming and factoring `I + Dᵀ D` accesses entries in range only. -/
theorem faithful_factorGram (rank : Nat) (d : DenseMatrix α) :
    Faithful (factorGram rank d) (.ofExcept (Decomposition.factorGram rank d)) := by
  refine ⟨?_, noFault_ofExcept _⟩
  rw [factorGram, Decomposition.factorGram]
  split
  · rfl
  · have hfit : Checked.sameLength d.transpose.cols d.rows = .ok () := Checked.sameLength_self _
    have hsquare : Checked.sameLength (d.transpose.mul d).addIdentity.rows
        (d.transpose.mul d).addIdentity.cols = .ok () := Checked.sameLength_self _
    have hgram : addIdentity (d.transpose.mul d) = .ok (d.transpose.mul d).addIdentity :=
      addIdentity_eq rfl
    rw [hfit, Attempt.ofChecked_ok, ok_bind, hgram, Attempt.ofChecked_ok, ok_bind, hsquare,
      Attempt.ofChecked_ok, ok_bind]
    cases Cholesky.factor? (d.transpose.mul d).addIdentity <;> rfl

/-- So does storing `D` in any form. -/
theorem faithful_storeSensitivity (settings : Settings α) (rank : Nat) (h : basis.Solvable)
    (hdim : basis.dim = n.rows) :
    Faithful (storeSensitivity settings rank basis n)
      (Decomposition.storeSensitivity settings rank basis n) := by
  obtain ⟨d, hguarded, hplain, -⟩ := exists_formSensitivity h hdim
  have hform := faithful_ofChecked (ε := DecompError α) hguarded hplain
  unfold storeSensitivity Decomposition.storeSensitivity
  cases settings.kind with
  | coordinate => cases settings.sensitivity with
    | implicit => exact faithful_self (noFault_ok _)
    | explicit => exact hform.bind fun _ _ => faithful_self (noFault_ok _)
  | orthogonal =>
    refine hform.bind fun d _ => ?_
    exact (faithful_factorGram rank d).bind fun _ _ => faithful_self (noFault_ok _)

/-- What is stored has the size of `N`. -/
theorem size_formed {settings : Settings α} {rank : Nat} (h : basis.Solvable)
    (hdim : basis.dim = n.rows) {dec : Decomposition α S N}
    (hdec : Decomposition.storeSensitivity settings rank basis n = .ok dec.sensitivity)
    {d : DenseMatrix α} (hd : dec.formed? = some d) : d.rows = n.rows ∧ d.cols = n.cols := by
  obtain ⟨d', -, hplain, hsize⟩ := exists_formSensitivity h hdim
  unfold Decomposition.formed? at hd
  rcases Decomposition.storeSensitivity_cases hplain hdec with hs | hs | ⟨gram, hs⟩
  · rw [hs] at hd
    cases hd
  · rw [hs] at hd
    cases hd
    exact hsize
  · rw [hs] at hd
    cases hd
    exact hsize

end Sensitivity

section Preparation

variable {settings : Settings α} {p : Partition} {basis : BasisMatrix S N} {gc : SparseMatrix α}

/-- What is built has the sizes of the partition. -/
theorem sized_of_builtFrom (h : basis.Solvable) {generation : Nat} {dec : Decomposition α S N}
    (hbuilt : dec.BuiltFrom p basis gc settings generation) : dec.Sized := by
  have hrank : dec.rank = p.rank := congrArg Partition.rank hbuilt.partition_eq
  obtain ⟨hrows, hcols, -⟩ := Partition.basisBlock_spec hbuilt.basisBlock_eq
  obtain ⟨hnrows, hncols⟩ := hbuilt.size_nonbasis
  have hn : dec.partition.n = p.n := congrArg Partition.n hbuilt.partition_eq
  have hformed : ∀ d, dec.formed? = some d → d.rows = _ ∧ d.cols = _ := fun d hd =>
    size_formed h (hbuilt.dim_eq.trans hnrows.symm) hbuilt.sensitivity_eq hd
  refine ⟨hbuilt.basis_eq ▸ h, ?_, ?_, ?_, ?_, ?_, fun d hd => ?_, fun d hd => ?_⟩
  · rw [hbuilt.basis_eq, hbuilt.dim_eq, hrank]
  · rw [hrows, hrank]
  · rw [hcols, hrank]
  · rw [hnrows, hrank]
  · rw [hncols, hn, hrank]
  · rw [(hformed d hd).1, hnrows, hrank]
  · rw [(hformed d hd).2, hncols, hn, hrank]

/-- And so does building a whole decomposition. -/
theorem faithful_build (h : basis.Solvable) (hrows : gc.rows = p.n) (hcols : gc.cols = p.m)
    (settings : Settings α) (generation : Nat) :
    Faithful (build p basis gc settings generation)
      (Decomposition.build p basis gc settings generation) := by
  obtain ⟨⟨block, hblock⟩, ⟨other, hother⟩, ⟨rest, hrest⟩⟩ := p.exists_blocks hrows hcols
  rw [build, Decomposition.build]
  split
  · exact faithful_self (noFault_fail _)
  · rename_i hdim
    have hstore := faithful_storeSensitivity settings p.rank (n := other.transpose) h
      ((not_not.1 hdim).trans (Partition.nonbasisBlock_spec hother).2.1.symm)
    refine (faithful_ofChecked (basisBlock_eq hblock) hblock).bind fun _ _ => ?_
    refine (faithful_ofChecked (nonbasisBlock_eq hother) hother).bind fun n hn => ?_
    cases hother.symm.trans (Attempt.ofChecked_eq_ok_iff.1 hn)
    rw [transpose_eq, Attempt.ofChecked_ok, ok_bind]
    dsimp only
    split
    · rw [undecomposedBlock_eq hrest, hrest]
      exact (faithful_self (noFault_ok _)).bind fun _ _ =>
        hstore.bind fun _ _ => faithful_self (noFault_ok _)
    · exact (faithful_self (noFault_ok _)).bind fun _ _ =>
        hstore.bind fun _ _ => faithful_self (noFault_ok _)

/-- Preparing may report an error of the domain, but it does not fault. -/
theorem faithful_prepare (h : basis.Solvable) (hrows : gc.rows = p.n) (hcols : gc.cols = p.m)
    (settings : Settings α) (generation : Nat) :
    Faithful (prepare settings p basis gc generation)
      (Decomposer.prepare settings p basis gc generation) := by
  refine (faithful_build h hrows hcols settings generation).bind fun dec hdec => ?_
  have hbuilt := Decomposition.build_eq_ok_iff.1 hdec
  split
  · refine Faithful.bind (faithful_verify (sized_of_builtFrom h hbuilt) ?_ ?_ _) fun _ _ =>
      faithful_self (noFault_ok dec)
    · rw [hbuilt.partition_eq, hrows]
    · rw [hbuilt.partition_eq, hcols]
  · exact faithful_self (noFault_ok dec)

end Preparation

end Guarded

end ReducedSpace
