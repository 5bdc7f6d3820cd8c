import ReducedSpace.Proofs.Partition
import ReducedSpace.Proofs.Guarded.Permutation
import ReducedSpace.Proofs.Guarded.Products
import ReducedSpace.Proofs.Guarded.Solver
import ReducedSpace.Decomposition.SelfTest

/-!
# Products of a decomposition with guarded buffers

A product with a matrix of a decomposition is written into a buffer of given length. Here every
product checks the length of its buffer as well as that of its argument: a stacked basis splits its
buffer, a solve copies its right-hand side into it. In a decomposition whose parts have the sizes
that its partition asks for, all these lengths agree. So the self-test, which runs through all the
products, neither faults nor leaves a buffer.
-/

namespace ReducedSpace

variable {α S N : Type} [Scalar α] [Factorization S N α] [GuardedFactorization S N α]

/-- The parts of a decomposition have the sizes that its partition asks for, and its factors can be
solved with. -/
structure Decomposition.Sized (dec : Decomposition α S N) : Prop where
  solvable : dec.basis.Solvable
  dim_eq : dec.basis.dim = dec.rank
  rows_basisBlock : dec.basisBlock.rows = dec.rank
  cols_basisBlock : dec.basisBlock.cols = dec.rank
  rows_nonbasis : dec.nonbasis.rows = dec.rank
  cols_nonbasis : dec.nonbasis.cols = dec.partition.n - dec.rank
  rows_formed : ∀ d, dec.formed? = some d → d.rows = dec.rank
  cols_formed : ∀ d, dec.formed? = some d → d.cols = dec.partition.n - dec.rank

namespace Guarded

/-- The guarded product and the plain one are the same vector, which fills a buffer of length
`k`. -/
def Fills (k : Nat) (guarded plain : Checked (Array α)) : Prop :=
  ∃ y, guarded = .ok y ∧ plain = .ok y ∧ y.size = k

section Products

variable (dec : Decomposition α S N)

/-- The product with `C`, in a buffer of length `k`. -/
def applyC (k : Nat) (x : Array α) : Checked (Array α) :=
  mulAddTranspose dec.basisBlock x (Vec.zero k) 1 0

/-- The solution with `C`; the buffer takes a copy of the right-hand side. -/
def solveC (k : Nat) (x : Array α) : Checked (Array α) := do
  Checked.sameLength k x.size
  solve dec.basis .transposed x

/-- The product with `D`. -/
def applyD (k : Nat) (x : Array α) : Checked (Array α) :=
  match dec.formed? with
  | some d => mulVecDense d k x
  | none => do
    let t ← mulAdd dec.nonbasis x (Vec.zero dec.nonbasis.rows) (-1) 0
    solveC dec k t

/-- The product with `Z`; the buffer is split below the rows of `D`. -/
def applyZ (k : Nat) (x : Array α) : Checked (Array α) := do
  let rest ← minus k dec.d.rows
  let dep ← applyD dec dec.d.rows x
  Checked.sameLength rest x.size
  return dep ++ x

/-- The product with `Y`; the buffer is split below the columns of `Y`. -/
def applyY (k : Nat) (x : Array α) : Checked (Array α) :=
  match dec.sensitivity with
  | .orthogonal d _ => do
    let rest ← minus k d.rows
    Checked.sameLength d.rows x.size
    let indep ← mulVecTransposeDense d rest x
    return x ++ Vec.neg indep
  | _ => do
    let rest ← minus k dec.rank
    Checked.sameLength dec.rank x.size
    return x ++ Vec.zero rest

/-- The product with `R`. For the orthogonal kind the product with `I + D Dᵀ`, which demands the
shapes of its factors itself, is made first. -/
def applyR (k : Nat) (x : Array α) : Checked (Array α) :=
  match dec.woodbury? with
  | none => applyC dec k x
  | some w => do
    let t ← w.apply x
    applyC dec k t

/-- The decomposed entries of `Gcᵀ w`, for `w` in the order of the partition. -/
def gradientProduct (gc : SparseMatrix α) (w : Array α) : Checked (Array α) := do
  let w ← applyInverse dec.partition.varPerm w
  let g ← mulAddTranspose gc w (Vec.zero dec.partition.m) 1 0
  pick g (← slice dec.partition.equPerm.olds 0 dec.rank)

/-- The relative residuals of the identities for the gradients of the decomposition. -/
def selfTest (gc : SparseMatrix α) : Attempt (DecompError α) (SelfTest α) := do
  .ofExcept (dec.partition.checkGradients gc)
  let n := dec.partition.n
  let r := dec.rank
  let scale := 1 + gc.maxAbs
  let x := SelfTest.probe (← .ofChecked (minus n r))
  let dx ← .ofChecked (applyD dec r x)
  let cdx ← .ofChecked (applyC dec r dx)
  let cdx ← .ofChecked (mulAdd dec.nonbasis x cdx 1 1)
  let zx ← .ofChecked (applyZ dec n x)
  let gz ← .ofChecked (gradientProduct dec gc zx)
  let x := SelfTest.probe r
  let yx ← .ofChecked (applyY dec n x)
  let gy ← .ofChecked (gradientProduct dec gc yx)
  let rx ← .ofChecked (applyR dec r x)
  return {
    sensitivity := SelfTest.relative scale cdx dx
    nullSpace := SelfTest.relative scale gz zx
    rangeSpace := SelfTest.relative scale (Vec.sub gy rx) yx }

/-- The self-test as a check. -/
def verify (gc : SparseMatrix α) (tol : α) : Attempt (DecompError α) (SelfTest α) := do
  let t ← selfTest dec gc
  let (name, value) := t.worst
  if Scalar.isNaN value || Scalar.lt tol value then Attempt.fail (.testFailed name value tol)
  else return t

end Products

variable {dec : Decomposition α S N} {x : Array α}

/-- The product with `C` fills a buffer as long as the rank. -/
theorem fills_applyC (h : dec.Sized) (hx : x.size = dec.rank) :
    Fills dec.rank (applyC dec dec.rank x) (dec.c.apply x) := by
  have hzero : (Vec.zero dec.rank : Array α).size = dec.basisBlock.cols := by
    rw [Vec.size_zero, h.cols_basisBlock]
  have happly := SparseMatrix.mulAddTranspose_eq_ok (hx.trans h.rows_basisBlock.symm) hzero 1 0
  refine ⟨_, (mulAddTranspose_eq _ _ _ _ _).trans happly, ?_, ?_⟩
  · show dec.basisBlock.mulAddTranspose x (Vec.zero dec.basisBlock.cols) 1 0 = _
    rw [h.cols_basisBlock]
    exact happly
  · rw [SparseMatrix.size_accumulateTranspose, SparseMatrix.size_scaled, Vec.size_zero]

/-- So does that with `D`, formed or not. -/
theorem fills_applyD (h : dec.Sized) (hx : x.size = dec.partition.n - dec.rank) :
    Fills dec.rank (applyD dec dec.rank x) (dec.d.apply x) := by
  unfold applyD Decomposition.d
  cases hd : dec.formed? with
  | some d =>
    have hproduct : d.mulVec x = .ok (tabulate d.rows (d.mulVecEntry x)) := by
      rw [DenseMatrix.mulVec]
      rw [hx, h.cols_formed d hd, Checked.sameLength_self]
      rfl
    have hrows := h.rows_formed d hd
    exact ⟨_, (congrArg (mulVecDense d · x) hrows.symm).trans ((mulVecDense_eq d x).trans hproduct),
      hproduct, (size_tabulate _ _).trans hrows⟩
  | none =>
    have hn := SparseMatrix.mulAdd_eq_ok (hx.trans h.cols_nonbasis.symm)
      (Vec.size_zero dec.nonbasis.rows) (-1 : α) 0
    have hsize : (dec.nonbasis.accumulate (-1) x (SparseMatrix.scaled 0
        (Vec.zero dec.nonbasis.rows))).size = dec.rank := by
      rw [SparseMatrix.size_accumulate, SparseMatrix.size_scaled, Vec.size_zero, h.rows_nonbasis]
    obtain ⟨y, hguarded, hplain, hy⟩ := h.solvable.exists_eq .transposed (hsize.trans h.dim_eq.symm)
    refine ⟨y, ?_, bind_eq_ok_iff.2 ⟨_, hn, hplain⟩, hy.trans h.dim_eq⟩
    dsimp only
    rw [mulAdd_eq, hn, ok_bind, solveC, hsize, Checked.sameLength_self]
    exact hguarded

/-- A stacked basis is split where `D` ends. -/
theorem rows_d (h : dec.Sized) : dec.d.rows = dec.rank := by
  unfold Decomposition.d
  cases hd : dec.formed? with
  | some d => exact h.rows_formed d hd
  | none => exact h.rows_nonbasis

/-- The product with `Z` fills a buffer with a place for each variable. -/
theorem fills_applyZ (h : dec.Sized) (hx : x.size = dec.partition.n - dec.rank) :
    Fills dec.partition.n (applyZ dec dec.partition.n x) (dec.z.apply x) := by
  have hle : dec.rank ≤ dec.partition.n := dec.partition.rank_le_n
  obtain ⟨y, hguarded, hplain, hy⟩ := fills_applyD h hx
  refine ⟨y ++ x, ?_, bind_eq_ok_iff.2 ⟨y, hplain, rfl⟩, ?_⟩
  · rw [applyZ]
    rw [rows_d h, minus_eq_ok hle, ok_bind, hguarded, ok_bind, hx, Checked.sameLength_self]
    rfl
  · rw [Array.size_append]
    omega

/-- And so does that with `Y`, of either kind. -/
theorem fills_applyY (h : dec.Sized) (hx : x.size = dec.rank) :
    Fills dec.partition.n (applyY dec dec.partition.n x) (dec.y.apply x) := by
  have hle : dec.rank ≤ dec.partition.n := dec.partition.rank_le_n
  have hcoordinate : Fills dec.partition.n
      (minus dec.partition.n dec.rank >>= fun rest =>
        Checked.sameLength dec.rank x.size >>= fun _ => .ok (x ++ Vec.zero rest))
      ((coordinateRange dec.partition.n dec.rank).apply x) := by
    have hlength : Checked.sameLength dec.rank x.size = .ok () :=
      Checked.sameLength_eq_ok_iff.2 hx.symm
    refine ⟨_, bind_eq_ok_iff.2 ⟨_, minus_eq_ok hle, bind_eq_ok_iff.2 ⟨(), hlength, rfl⟩⟩,
      bind_eq_ok_iff.2 ⟨(), hlength, rfl⟩, ?_⟩
    rw [Array.size_append, Vec.size_zero]
    omega
  unfold applyY Decomposition.y
  cases hs : dec.sensitivity with
  | implicit => exact hcoordinate
  | explicit d => exact hcoordinate
  | orthogonal d gram =>
    have hd : dec.formed? = some d := by
      rw [Decomposition.formed?, hs]
    have hrows := h.rows_formed d hd
    have hcols := h.cols_formed d hd
    have hlength : Checked.sameLength d.rows x.size = .ok () :=
      Checked.sameLength_eq_ok_iff.2 (hrows.trans hx.symm)
    have hproduct : d.mulVecTranspose x = .ok (tabulate d.cols (d.mulVecTransposeEntry x)) :=
      bind_eq_ok_iff.2 ⟨(), hlength, rfl⟩
    have hrest : dec.partition.n - d.rows = d.cols := by rw [hcols, hrows]
    refine ⟨_, bind_eq_ok_iff.2 ⟨_, minus_eq_ok (hrows ▸ hle), bind_eq_ok_iff.2 ⟨(), hlength,
      bind_eq_ok_iff.2 ⟨_, ?_, rfl⟩⟩⟩, bind_eq_ok_iff.2 ⟨_, hproduct, rfl⟩, ?_⟩
    · rw [hrest, mulVecTransposeDense_eq, hproduct]
    · rw [Array.size_append, Vec.size_neg, size_tabulate]
      omega

/-- The product with `R` needs as much as that with `C`. -/
theorem fills_applyR (h : dec.Sized) (hx : x.size = dec.rank) :
    Fills dec.rank (applyR dec dec.rank x) (dec.r.apply x) := by
  unfold applyR Decomposition.r
  cases hw : dec.woodbury? with
  | none => exact fills_applyC h hx
  | some w =>
    have hd : dec.formed? = some w.d := by
      unfold Decomposition.woodbury? at hw
      split at hw
      · rename_i d gram hs
        cases hw
        rw [Decomposition.formed?, hs]
      · cases hw
    have hproduct : w.apply x =
        .ok (Vec.add x (w.d.mulVecChained (w.d.transpose.mulVecChained x))) :=
      bind_eq_ok_iff.2 ⟨(), Checked.sameLength_eq_ok_iff.2 ((h.rows_formed w.d hd).trans hx.symm),
        rfl⟩
    obtain ⟨y, hguarded, hplain, hy⟩ := fills_applyC h ((Vec.size_add x _).trans hx)
    exact ⟨y, bind_eq_ok_iff.2 ⟨_, hproduct, hguarded⟩, bind_eq_ok_iff.2 ⟨_, hproduct, hplain⟩, hy⟩

omit [Factorization S N α] [GuardedFactorization S N α] in
/-- The decomposed entries of a product with the gradients are picked from one entry for each
equation. -/
theorem fills_gradientProduct {gc : SparseMatrix α} (hrows : gc.rows = dec.partition.n)
    (hcols : gc.cols = dec.partition.m) (hx : x.size = dec.partition.n) :
    Fills dec.rank (gradientProduct dec gc x) (dec.gradientProduct gc x) := by
  have hperm := dec.partition.unpermuteVars_eq hx
  have hw : (dec.partition.varPerm.scatter x).size = gc.rows := by
    rw [Permutation.size_scatter, hrows]
    rfl
  have hproduct : gc.mulAddTranspose (dec.partition.varPerm.scatter x) (Vec.zero gc.cols) 1 0 = _ :=
    SparseMatrix.mulAddTranspose_eq_ok hw (Vec.size_zero _) 1 0
  have hslice : slice dec.partition.equPerm.olds 0 dec.rank = .ok dec.partition.decompEqus :=
    slice_eq_ok (Nat.zero_le _) dec.partition.rank_le_m
  refine ⟨_, ?_, bind_eq_ok_iff.2 ⟨_, hperm, bind_eq_ok_iff.2 ⟨_, hproduct, rfl⟩⟩, ?_⟩
  · rw [gradientProduct]
    rw [applyInverse_eq, ← Partition.unpermuteVars, hperm, ok_bind, mulAddTranspose_eq, ← hcols,
      hproduct, ok_bind, hslice, ok_bind]
    refine pick_eq_ok (fun j hj => ?_) 0
    rw [SparseMatrix.size_accumulateTranspose, SparseMatrix.size_scaled, Vec.size_zero, hcols]
    exact dec.partition.decompEqus_cover.2 (.inl hj)
  · rw [Array.size_map, Partition.size_decompEqus]
    rfl

/-- The self-test runs to its end. -/
theorem exists_selfTest (h : dec.Sized) {gc : SparseMatrix α} (hrows : gc.rows = dec.partition.n)
    (hcols : gc.cols = dec.partition.m) :
    ∃ t, selfTest dec gc = .ok t ∧ dec.selfTest gc = .ok t := by
  have hcheck : dec.partition.checkGradients gc = (.ok () : Except (DecompError α) Unit) :=
    Partition.checkShape_eq_ok_iff.2 ⟨hrows, hcols⟩
  have hminus : minus dec.partition.n dec.rank = .ok _ := minus_eq_ok dec.partition.rank_le_n
  have hx : (SelfTest.probe (dec.partition.n - dec.rank) : Array α).size = _ :=
    SelfTest.size_probe _
  have hx' : (SelfTest.probe dec.rank : Array α).size = dec.rank := SelfTest.size_probe _
  obtain ⟨dx, hdx, hdx', hsize⟩ := fills_applyD h hx
  obtain ⟨cdx, hcdx, hcdx', hsize'⟩ := fills_applyC h hsize
  obtain ⟨v, hn⟩ : ∃ v, dec.nonbasis.mulAdd _ cdx 1 1 = .ok v :=
    ⟨_, SparseMatrix.mulAdd_eq_ok (hx.trans h.cols_nonbasis.symm)
      (hsize'.trans h.rows_nonbasis.symm) 1 1⟩
  obtain ⟨zx, hzx, hzx', hsizez⟩ := fills_applyZ h hx
  obtain ⟨gz, hgz, hgz', -⟩ := fills_gradientProduct hrows hcols hsizez
  obtain ⟨yx, hyx, hyx', hsizey⟩ := fills_applyY h hx'
  obtain ⟨gy, hgy, hgy', -⟩ := fills_gradientProduct hrows hcols hsizey
  obtain ⟨rx, hrx, hrx', -⟩ := fills_applyR h hx'
  refine ⟨⟨SelfTest.relative (1 + gc.maxAbs) v dx, SelfTest.relative (1 + gc.maxAbs) gz zx,
    SelfTest.relative (1 + gc.maxAbs) (Vec.sub gy rx) yx⟩, ?_, ?_⟩
  · rw [selfTest]
    simp only [hcheck, hminus, hdx, hcdx, mulAdd_eq, hn, hzx, hgz, hyx, hgy, hrx,
      Attempt.ofExcept_ok, Attempt.ofChecked_ok, ok_bind]
    rfl
  · rw [Decomposition.selfTest]
    simp only [hcheck, hdx', hcdx', hn, hzx', hgz', hyx', hgy', hrx', Attempt.ofExcept_ok,
      Attempt.ofChecked_ok, ok_bind]
    rfl

/-- The check may find a residual too large, but it does not fault. -/
theorem faithful_verify (h : dec.Sized) {gc : SparseMatrix α} (hrows : gc.rows = dec.partition.n)
    (hcols : gc.cols = dec.partition.m) (tol : α) :
    Faithful (verify dec gc tol) (dec.verify gc tol) := by
  obtain ⟨t, hguarded, hplain⟩ := exists_selfTest h hrows hcols
  rw [verify, Decomposition.verify]
  rw [hguarded, hplain]
  refine faithful_self ?_
  simp only [ok_bind]
  split
  · exact noFault_fail _
  · exact noFault_ok _

end Guarded

end ReducedSpace
