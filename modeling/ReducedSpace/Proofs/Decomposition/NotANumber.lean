import ReducedSpace.Proofs.Conditioning.NotANumber
import ReducedSpace.Proofs.Decomposition.Parts
import ReducedSpace.Proofs.Sparse.Submatrix
import ReducedSpace.Basis.Chosen
import ReducedSpace.Decomposition.SelfTest

/-!
# What the self-test makes of a sensitivity that is no number

The first two residuals of the self-test are products with `D x`. Wherever an equation depends on a
variable at which `D x` is a NaN, both residuals are a NaN as well, and a largest magnitude skips
them. The third residual of a coordinate decomposition has nothing to do with `D`. So if every
decomposed equation meets a NaN, then the decomposition is measured as if its first two identities
held exactly.
-/

namespace ReducedSpace

section Magnitudes

variable {α : Type} [Scalar α] [SpecialValues α]

theorem SparseMatrix.isMagnitude_maxAbs (a : SparseMatrix α) : IsMagnitude a.maxAbs := by
  rw [maxAbs, ← Array.foldl_toList]
  exact List.foldlRecOn a.columns.toList _ isMagnitude_zero fun _ hacc c _ =>
    isMagnitude_foldl c.entries (fun e => e.2) hacc

namespace SelfTest

theorem relative_numbers (scale : α) (residual x : Array α) :
    relative scale (Vec.numbers residual) (Vec.numbers x) = relative scale residual x := by
  rw [relative, normInf_numbers, normInf_numbers]
  rfl

/-- A residual without a component that is a number counts as zero. -/
theorem relative_of_allNaN (gc : SparseMatrix α) {residual : Array α}
    (h : Vec.AllNaN residual) (x : Array α) : relative (1 + gc.maxAbs) residual x = 0 := by
  obtain ⟨v, hv, hscale⟩ := gc.isMagnitude_maxAbs
  obtain ⟨w, hw, hnorm⟩ := isMagnitude_normInf x
  rw [relative, normInf_of_allNaN h, hscale, hnorm]
  exact SpecialValues.zero_div (SpecialValues.mul_pos_of_one_le
    (SpecialValues.one_le_one_add_abs hv) (SpecialValues.one_le_one_add_abs hw))

/-- After two residuals that are zero only the third can be the worst. -/
theorem worst_of_zeros (v : α) : (⟨0, 0, v⟩ : SelfTest α).worst =
    if Scalar.isNaN v || Scalar.lt 0 v then ("Gc'*Y - R", v) else ("C*D + N", 0) := by
  simp only [worst, named, List.foldl_cons, List.foldl_nil, SpecialValues.isNaN_zero,
    SpecialValues.zero_lt_zero, Bool.or_self, Bool.false_eq_true, if_false]

end SelfTest

end Magnitudes

/-- The residual of the third identity for the basis `[I; 0]` of the range space. The sensitivity
has no part in it. -/
def Partition.coordinateResidual {α : Type} [Scalar α] (p : Partition) (gc : SparseMatrix α) :
    Checked α := do
  let block ← p.basisBlock gc
  let x := SelfTest.probe p.rank
  let yx := x ++ Vec.zero (p.n - p.rank)
  let w ← p.unpermuteVars yx
  let g ← gc.mulVecTranspose 1 w
  let rx ← block.mulVecTranspose 1 x
  let gy := p.decompEqus.map fun j => g.getD j 0
  return SelfTest.relative (1 + gc.maxAbs) (Vec.sub gy rx) yx

namespace Decomposition

variable {α S N : Type} [Scalar α] [Factorization S N α]

/-- A coordinate decomposition that is built from gradients of the size of its partition. -/
structure CoordinateOf (dec : Decomposition α S N) (gc : SparseMatrix α) : Prop where
  rows_eq : gc.rows = dec.partition.n
  cols_eq : gc.cols = dec.partition.m
  built : ∃ settings, dec.BuiltFrom dec.partition dec.basis gc settings dec.generation
  kind_eq : dec.kind = .coordinate

/-- Every decomposed equation stores a value of a dependent variable at which `dx` is a NaN. -/
def MeetsNaN (dec : Decomposition α S N) (gc : SparseMatrix α) (dx : Array α) : Prop :=
  ∀ j ∈ dec.partition.decompEqus, ∃ i ∈ dec.partition.depVars, (gc.find? i j).isSome = true ∧
    Scalar.isNaN (dx.getD (dec.partition.varPerm.new i) 0) = true

section Views

variable {dec : Decomposition α S N} {gc : SparseMatrix α}

/-- For the coordinate kind `R` is `C`. -/
theorem CoordinateOf.r_eq (h : dec.CoordinateOf gc) : dec.r = dec.c := by
  rw [r, (views_of_coordinate h.kind_eq).2]

/-- And `Y` appends zeros. -/
theorem CoordinateOf.y_apply (h : dec.CoordinateOf gc) {x : Array α} (hx : x.size = dec.rank) :
    dec.y.apply x = .ok (x ++ Vec.zero (dec.partition.n - dec.rank)) := by
  rw [(views_of_coordinate h.kind_eq).1, coordinateRange]
  dsimp only
  rw [hx, Checked.sameLength_self]
  rfl

/-- The third residual depends on the partition and on the gradients only. -/
theorem CoordinateOf.coordinateResidual_eq (h : dec.CoordinateOf gc) {t : SelfTest α}
    (ht : dec.selfTest gc = .ok t) :
    dec.partition.coordinateResidual gc = .ok t.rangeSpace := by
  obtain ⟨settings, hbuilt⟩ := h.built
  rw [selfTest] at ht
  simp only [bind_eq_ok_iff, Attempt.ofChecked_eq_ok_iff, Attempt.ofExcept_eq_ok_iff] at ht
  obtain ⟨_, -, _, -, _, -, _, -, _, -, _, -, yx, hyx, gy, hgy, rx, hrx, ht⟩ := ht
  rw [h.y_apply (SelfTest.size_probe _)] at hyx
  cases hyx
  rw [h.r_eq] at hrx
  cases ht
  rw [Decomposition.gradientProduct] at hgy
  simp only [bind_eq_ok_iff] at hgy
  obtain ⟨w, hw, g, hg, hgy⟩ := hgy
  cases hgy
  rw [Partition.coordinateResidual]
  simp only [bind_eq_ok_iff]
  exact ⟨_, hbuilt.basisBlock_eq, w, hw, g, hg, rx, hrx, rfl⟩

variable [SpecialValues α]

/-- A NaN of a dependent variable spreads to every decomposed equation that depends on it. -/
theorem CoordinateOf.c_apply (h : dec.CoordinateOf gc) {x : Array α} (hx : x.size = dec.rank) :
    ∃ y, dec.c.apply x = .ok y ∧ y.size = dec.rank ∧ (dec.MeetsNaN gc x → Vec.AllNaN y) := by
  obtain ⟨settings, hbuilt⟩ := h.built
  obtain ⟨hrows, hcols, hfind⟩ := Partition.basisBlock_spec hbuilt.basisBlock_eq
  obtain ⟨y, hy, hsize, hnan⟩ := SparseMatrix.mulVecTranspose_isNaN (hx.trans hrows.symm)
  refine ⟨y, hy, hsize.trans hcols, fun hmeets => Vec.allNaN_of_getD fun j hj => ?_⟩
  have hj : j < dec.partition.rank := by omega
  have hmem : dec.partition.equPerm.old j ∈ dec.partition.decompEqus := by
    rw [Partition.mem_decompEqus_iff, Permutation.new_old]
    exact hj
  obtain ⟨i, hi, hstored, hinan⟩ := hmeets _ hmem
  obtain ⟨v, hv⟩ := Option.isSome_iff_exists.1 hstored
  refine hnan (dec.partition.varPerm.new i) j v ?_ hinan
  rw [hfind _ _ (dec.partition.mem_depVars_iff.1 hi) hj, Permutation.old_new, hv]

/-- The products of the gradients, in the caller's order, spread it in the same way. -/
theorem CoordinateOf.gradientProduct (h : dec.CoordinateOf gc) {w : Array α}
    (hw : w.size = dec.partition.n) :
    ∃ g, dec.gradientProduct gc w = .ok g ∧ (dec.MeetsNaN gc w → Vec.AllNaN g) := by
  have hunpermute := dec.partition.unpermuteVars_eq hw
  have hsize : (dec.partition.varPerm.scatter w).size = gc.rows := by
    rw [Permutation.size_scatter, h.rows_eq]
    rfl
  obtain ⟨g, hg, -, hnan⟩ := SparseMatrix.mulVecTranspose_isNaN hsize
  refine ⟨dec.partition.decompEqus.map fun j => g.getD j 0, ?_, fun hmeets v hv => ?_⟩
  · rw [Decomposition.gradientProduct, hunpermute]
    show (gc.mulVecTranspose 1 (dec.partition.varPerm.scatter w) >>= fun g =>
      pure (dec.partition.decompEqus.map fun j => g.getD j 0)) = _
    rw [hg]
    rfl
  · obtain ⟨j, hj, rfl⟩ := Array.mem_map.1 hv
    obtain ⟨i, hi, hstored, hinan⟩ := hmeets j hj
    obtain ⟨u, hu⟩ := Option.isSome_iff_exists.1 hstored
    have hlt : i < dec.partition.varPerm.size := dec.partition.depVars_cover.2 (.inl hi)
    refine hnan i j u hu ?_
    rw [Permutation.getD_scatter, if_pos hlt]
    exact hinan

end Views

section Measured

variable [SpecialValues α] {dec : Decomposition α S N} {gc : SparseMatrix α}

omit [Factorization S N α] [SpecialValues α] in
/-- A vector that goes on after `dx` meets what `dx` meets. -/
theorem MeetsNaN.append {dx : Array α} (h : dec.MeetsNaN gc dx) (hdx : dx.size = dec.rank)
    (x : Array α) : dec.MeetsNaN gc (dx ++ x) := by
  intro j hj
  obtain ⟨i, hi, hstored, hnan⟩ := h j hj
  have hlt : dec.partition.varPerm.new i < dx.size := by
    rw [hdx]
    exact dec.partition.mem_depVars_iff.1 hi
  refine ⟨i, hi, hstored, ?_⟩
  rw [Array.getD_eq_getD_getElem?, Array.getElem?_append_left hlt, ← Array.getD_eq_getD_getElem?]
  exact hnan

omit [Factorization S N α] [SpecialValues α] in
/-- A vector without a number is met by every equation that has a dependent variable. -/
theorem meetsNaN_of_allNaN {dx : Array α} (h : Vec.AllNaN dx) (hdx : dx.size = dec.rank)
    (hstored : ∀ j ∈ dec.partition.decompEqus, ∃ i ∈ dec.partition.depVars,
      (gc.find? i j).isSome = true) : dec.MeetsNaN gc dx := by
  intro j hj
  obtain ⟨i, hi, hfind⟩ := hstored j hj
  refine ⟨i, hi, hfind, h.getD ?_⟩
  rw [hdx]
  exact dec.partition.mem_depVars_iff.1 hi

/-- Residuals that are no numbers are measured as zero. -/
theorem CoordinateOf.selfTest_eq (h : dec.CoordinateOf gc) {dx : Array α}
    (hd : dec.d.apply (SelfTest.probe (dec.partition.n - dec.rank)) = .ok dx)
    (hdx : dx.size = dec.rank) (hmeets : dec.MeetsNaN gc dx) :
    ∃ v, dec.selfTest gc = .ok ⟨0, 0, v⟩ := by
  let x : Array α := SelfTest.probe (dec.partition.n - dec.rank)
  let x' : Array α := SelfTest.probe dec.rank
  have hx : x.size = dec.partition.n - dec.rank := SelfTest.size_probe _
  have hx' : x'.size = dec.rank := SelfTest.size_probe _
  have hrank : dec.rank ≤ dec.partition.n := dec.partition.rank_le_n
  obtain ⟨settings, hbuilt⟩ := h.built
  obtain ⟨hrows, hcols⟩ : dec.nonbasis.rows = dec.rank ∧
    dec.nonbasis.cols = dec.partition.n - dec.rank := hbuilt.size_nonbasis
  obtain ⟨cdx, hcdx, hsize, hnan⟩ := h.c_apply hdx
  obtain ⟨residual, hresidual, hlength, hkept⟩ :=
    SparseMatrix.mulAdd_isNaN (hx.trans hcols.symm) (hsize.trans hrows.symm)
  have hfirst : Vec.AllNaN residual := Vec.allNaN_of_getD fun i hi =>
    hkept i (hlength ▸ hi) ((hnan hmeets).getD (by omega))
  have hz : dec.z.apply x = .ok (dx ++ x) := by
    show (dec.d.apply x >>= fun dep => pure (dep ++ x)) = _
    rw [hd]
    rfl
  obtain ⟨gz, hgz, hsecond⟩ := h.gradientProduct (w := dx ++ x) (by
    rw [Array.size_append, hdx, hx]
    omega)
  obtain ⟨gy, hgy, -⟩ := h.gradientProduct (w := x' ++ Vec.zero (dec.partition.n - dec.rank)) (by
    rw [Array.size_append, hx', Vec.size_zero]
    omega)
  obtain ⟨rx, hrx, -, -⟩ := h.c_apply hx'
  have hcheck : (dec.partition.checkGradients gc : Except (DecompError α) Unit) = .ok () :=
    Partition.checkShape_eq_ok_iff.2 ⟨h.rows_eq, h.cols_eq⟩
  refine ⟨SelfTest.relative (1 + gc.maxAbs) (Vec.sub gy rx)
    (x' ++ Vec.zero (dec.partition.n - dec.rank)), ?_⟩
  rw [selfTest]
  simp only [bind_eq_ok_iff, Attempt.ofChecked_eq_ok_iff, Attempt.ofExcept_eq_ok_iff]
  refine ⟨(), hcheck, dx, hd, cdx, hcdx, residual, hresidual, _, hz, gz, hgz, _, h.y_apply hx', gy,
    hgy, rx, h.r_eq ▸ hrx, ?_⟩
  rw [SelfTest.relative_of_allNaN gc hfirst,
    SelfTest.relative_of_allNaN gc (hsecond (hmeets.append hdx x))]
  rfl

/-- A decomposition whose first two residuals are no numbers is accepted as soon as the third is
small. -/
theorem verify_of_zeros {v tol : α} (ht : dec.selfTest gc = .ok ⟨0, 0, v⟩)
    (hv : Scalar.isNaN v = false) (hsmall : Scalar.lt tol v = false)
    (htol : Scalar.lt tol 0 = false) : dec.verify gc tol = .ok ⟨0, 0, v⟩ := by
  rw [verify, bind_eq_ok_iff]
  refine ⟨_, ht, ?_⟩
  rw [SelfTest.worst_of_zeros]
  by_cases hworst : (Scalar.isNaN v || Scalar.lt 0 v) = true
  · rw [if_pos hworst]
    dsimp only
    rw [hv, hsmall]
    rfl
  · rw [if_neg hworst]
    dsimp only
    rw [SpecialValues.isNaN_zero, htol]
    rfl

end Measured

section Mismatched

variable {α : Type} [Scalar α]

/-- A structure of one solver with factors of the other. -/
def Mismatched (b : BasisMatrix ChosenStructure (ChosenFactors α)) : Prop :=
  match b.symbolic, b.numeric with
  | .dense _, .markowitz _ => True
  | .markowitz _, .dense _ => True
  | _, _ => False

/-- A basis whose structure and factors do not match solves to NaNs only. -/
theorem Mismatched.solve_eq {b : BasisMatrix ChosenStructure (ChosenFactors α)}
    (h : Mismatched b) (o : Orientation) {x : Array α} (hx : x.size = b.dim) :
    b.solve o x = .ok (x.map fun _ => Scalar.nan) := by
  obtain ⟨dim, symbolic, numeric⟩ := b
  rw [BasisMatrix.solve, hx, Checked.sameLength_self]
  cases symbolic <;> cases numeric <;> first | rfl | exact False.elim h

variable [SpecialValues α] {dec : Decomposition α ChosenStructure (ChosenFactors α)}
  {gc : SparseMatrix α}

/-- With mismatched halves the implicit sensitivity gives nothing but NaN. -/
theorem CoordinateOf.d_apply_of_mismatched (h : dec.CoordinateOf gc)
    (hmismatched : Mismatched dec.basis) (himplicit : dec.sensitivity = .implicit) {x : Array α}
    (hx : x.size = dec.partition.n - dec.rank) :
    ∃ dx, dec.d.apply x = .ok dx ∧ dx.size = dec.rank ∧ Vec.AllNaN dx := by
  obtain ⟨settings, hbuilt⟩ := h.built
  obtain ⟨hrows, hcols⟩ : dec.nonbasis.rows = dec.rank ∧
    dec.nonbasis.cols = dec.partition.n - dec.rank := hbuilt.size_nonbasis
  let start : Array α := SparseMatrix.scaled 0 (Vec.zero dec.nonbasis.rows)
  let t : Array α := dec.nonbasis.accumulate (-1) x start
  have hproduct : dec.nonbasis.mulVec (-1) x = .ok t :=
    SparseMatrix.mulAdd_eq_ok (hx.trans hcols.symm) (Vec.size_zero _) _ _
  have ht : t.size = dec.basis.dim := by
    rw [SparseMatrix.size_accumulate, SparseMatrix.size_scaled, Vec.size_zero, hrows,
      hbuilt.dim_eq]
    rfl
  refine ⟨t.map fun _ => Scalar.nan, ?_, ?_, fun v hv => ?_⟩
  · have hd : dec.d = implicitSensitivity dec.cInverse dec.nonbasis := by
      rw [d, formed?, himplicit]
    rw [hd]
    show (dec.nonbasis.mulVec (-1) x >>= dec.cInverse.solve) = _
    rw [hproduct]
    exact hmismatched.solve_eq .transposed ht
  · rw [Array.size_map, ht, hbuilt.dim_eq]
    rfl
  · obtain ⟨w, -, rfl⟩ := Array.mem_map.1 hv
    exact SpecialValues.isNaN_nan

end Mismatched

end Decomposition

section Unseen

/-- How the monitor takes the components of a vector that are not finite. -/
structure Monitor.SkipsNaN (α : Type) [Scalar α] : Prop where
  /-- An infinite component triggers it in every state. -/
  trigger_of_infinite : ∀ (x c : Array α) (mon : Monitor α) (generation : Nat),
    Vec.HasInfinite x →
      (mon.observe (Conditioning.betaFromStep x c) generation).1.isTrigger = true ∧
      (mon.observe (Conditioning.betaFromResidual x c) generation).1.isTrigger = true
  /-- A measure is that of the components that are numbers. -/
  measure_numbers : ∀ x c : Array α,
    Conditioning.betaFromStep x c = Conditioning.betaFromStep (Vec.numbers x) c ∧
      Conditioning.betaFromResidual x c = Conditioning.betaFromResidual (Vec.numbers x) c
  /-- A vector without a number is accepted in every state. -/
  accept_of_allNaN : ∀ (x c : Array α) (mon : Monitor α) (generation : Nat), Vec.AllNaN x →
    (mon.observe (Conditioning.betaFromStep x c) generation).1 = .accept ∧
      (mon.observe (Conditioning.betaFromResidual x c) generation).1 = .accept

/-- How the self-test takes components that are not numbers. -/
structure SelfTest.SkipsNaN (α : Type) [Scalar α] : Prop where
  /-- A relative residual is that of the components that are numbers. -/
  relative_eq : ∀ (scale : α) (residual x : Array α),
    relative scale residual x = relative scale (Vec.numbers residual) (Vec.numbers x)
  /-- The third residual is the same for every coordinate decomposition of some gradients. -/
  rangeSpace_eq : ∀ {S N : Type} [Factorization S N α] (dec : Decomposition α S N)
    (gc : SparseMatrix α) (t : SelfTest α), dec.CoordinateOf gc → dec.selfTest gc = .ok t →
      dec.partition.coordinateResidual gc = .ok t.rangeSpace
  /-- Where every decomposed equation reads a NaN of `D x`, the other two are zero, so that the test
  passes for every tolerance that the third one keeps. -/
  passes_of_meetsNaN : ∀ {S N : Type} [Factorization S N α] (dec : Decomposition α S N)
    (gc : SparseMatrix α) (dx : Array α), dec.CoordinateOf gc →
      dec.d.apply (probe (dec.partition.n - dec.rank)) = .ok dx → dx.size = dec.rank →
      dec.MeetsNaN gc dx → ∃ v, dec.selfTest gc = .ok ⟨0, 0, v⟩ ∧
        ∀ tol, Scalar.isNaN v = false → Scalar.lt tol v = false → Scalar.lt tol 0 = false →
          dec.verify gc tol = .ok ⟨0, 0, v⟩
  /-- Every decomposed equation with a dependent variable reads one if `D` is applied by a structure
  of one solver with factors of the other. -/
  meetsNaN_of_mismatched : ∀ (dec : Decomposition α ChosenStructure (ChosenFactors α))
    (gc : SparseMatrix α), dec.CoordinateOf gc → Decomposition.Mismatched dec.basis →
      dec.sensitivity = .implicit →
      (∀ j ∈ dec.partition.decompEqus, ∃ i ∈ dec.partition.depVars,
        (gc.find? i j).isSome = true) →
      ∃ dx, dec.d.apply (probe (dec.partition.n - dec.rank)) = .ok dx ∧ dx.size = dec.rank ∧
        Vec.AllNaN dx ∧ dec.MeetsNaN gc dx

/-- **A largest magnitude does not see a NaN**, and neither the monitor nor the self-test looks at
anything else. -/
theorem nan_goes_unseen (α : Type) [Scalar α] [SpecialValues α] :
    Monitor.SkipsNaN α ∧ SelfTest.SkipsNaN α := by
  constructor
  · exact {
      trigger_of_infinite := fun x c mon generation h =>
        ⟨mon.observe_of_hasInfinite h c generation, mon.observe_of_hasInfinite h c generation⟩
      measure_numbers := fun x c =>
        ⟨(relativeSize_numbers x c).symm, (relativeSize_numbers x c).symm⟩
      accept_of_allNaN := fun x c mon generation h =>
        ⟨mon.observe_of_allNaN h c generation, mon.observe_of_allNaN h c generation⟩ }
  · refine {
      relative_eq := fun scale residual x => (SelfTest.relative_numbers scale residual x).symm
      rangeSpace_eq := fun dec gc t h => h.coordinateResidual_eq
      passes_of_meetsNaN := fun dec gc dx h hd hdx hmeets => ?_
      meetsNaN_of_mismatched := fun dec gc h hmismatched himplicit hstored => ?_ }
    · obtain ⟨v, hv⟩ := h.selfTest_eq hd hdx hmeets
      exact ⟨v, hv, fun tol => Decomposition.verify_of_zeros hv⟩
    · obtain ⟨dx, hd, hdx, hnan⟩ :=
        h.d_apply_of_mismatched hmismatched himplicit (SelfTest.size_probe _)
      exact ⟨dx, hd, hdx, hnan, Decomposition.meetsNaN_of_allNaN hnan hdx hstored⟩

/-- The gradients of two variables in one equation, which is their sum. -/
def sumGradients : SparseMatrix Float := .ofEntries 2 1 fun _ _ => some 1

/-- The first variable as the dependent one. -/
def firstDependent : Partition := ⟨.identity 2, .identity 1, 1, by decide, by decide⟩

/-- A decomposition with a dense structure and sparse factors. -/
def unpaired : Decomposition Float ChosenStructure (ChosenFactors Float) where
  partition := firstDependent
  generation := 1
  basis := ⟨1, .dense ⟨1⟩, .markowitz ⟨#[.empty], #[.empty], #[1]⟩⟩
  basisBlock := sumGradients.submatrix firstDependent.depVars firstDependent.decompEqus
  nonbasis := (sumGradients.submatrix firstDependent.indepVars firstDependent.decompEqus).transpose
  sensitivity := .implicit
  undecomposed := none

/-- Settings of a coordinate decomposition that does not form its sensitivity. -/
def implicitSettings : Settings Float where
  solver := .dense
  kind := .coordinate
  sensitivity := .implicit
  pivotThreshold := 1
  rankTol := 0
  refactorTol := 0
  maxSearch := 1
  maxSelectAttempts := 1
  allowUndecomposed := true
  betaSource := .quasiNormalStep
  maxCondChangeFrac := 10
  maxCond := 1000
  testDecomposition := true
  testTol := 1

theorem unpaired_coordinateOf : unpaired.CoordinateOf sumGradients where
  rows_eq := rfl
  cols_eq := rfl
  built := ⟨implicitSettings, {
    partition_eq := rfl
    generation_eq := rfl
    basis_eq := rfl
    dim_eq := rfl
    basisBlock_eq := SparseMatrix.select_eq_ok_iff.2 ⟨by decide, by decide, rfl⟩
    nonbasis_eq := ⟨_, SparseMatrix.select_eq_ok_iff.2 ⟨by decide, by decide, rfl⟩, rfl⟩
    undecomposed_some := fun h => absurd h (by decide)
    undecomposed_none := fun _ => rfl
    sensitivity_eq := rfl }⟩
  kind_eq := rfl

theorem nan_goes_unseen_sample :
    Vec.HasInfinite #[(Scalar.nan : Float), Scalar.infinity] ∧
      ((Monitor.new (10 : Float) 1000).observe
        (Conditioning.betaFromStep #[Scalar.nan, Scalar.infinity] #[1]) 1).1.isTrigger = true ∧
      Vec.AllNaN #[(Scalar.nan : Float)] ∧
      ((Monitor.new (10 : Float) 1000).observe
        (Conditioning.betaFromStep #[Scalar.nan] #[1]) 1).1 = .accept ∧
      unpaired.CoordinateOf sumGradients ∧ Decomposition.Mismatched unpaired.basis ∧
      (∃ dx, unpaired.d.apply (SelfTest.probe 1) = .ok dx ∧ dx.size = 1 ∧ Vec.AllNaN dx ∧
        unpaired.MeetsNaN sumGradients dx) ∧
      unpaired.partition.coordinateResidual sumGradients = .ok 0 ∧
      unpaired.verify sumGradients 0 = .ok ⟨0, 0, 0⟩ := by
  obtain ⟨hmonitor, htest⟩ := nan_goes_unseen Float
  have hinfinite : Vec.HasInfinite #[(Scalar.nan : Float), Scalar.infinity] :=
    ⟨Scalar.infinity, by simp, by decide +kernel, by decide +kernel⟩
  have hnan : Vec.AllNaN #[(Scalar.nan : Float)] := by
    intro v hv
    rw [Array.mem_singleton.1 hv]
    exact SpecialValues.isNaN_nan
  have hcoordinate := unpaired_coordinateOf
  obtain ⟨dx, hd, hdx, hall, hmeets⟩ :=
    htest.meetsNaN_of_mismatched unpaired sumGradients hcoordinate trivial rfl (by decide +kernel)
  obtain ⟨v, hv, hverify⟩ :=
    htest.passes_of_meetsNaN unpaired sumGradients dx hcoordinate hd hdx hmeets
  have hzero : unpaired.selfTest sumGradients = .ok ⟨0, 0, 0⟩ := by decide +kernel
  cases hv.symm.trans hzero
  exact ⟨hinfinite, (hmonitor.trigger_of_infinite _ _ _ _ hinfinite).1, hnan,
    (hmonitor.accept_of_allNaN _ _ _ _ hnan).1, hcoordinate, trivial, ⟨dx, hd, hdx, hall, hmeets⟩,
    htest.rangeSpace_eq unpaired sumGradients _ hcoordinate hzero,
    hverify 0 (by decide +kernel) (by decide +kernel) (by decide +kernel)⟩

/-- A component that is not finite need not trigger the monitor, and a `D x` that is a NaN need not
fail the self-test. -/
theorem nan_is_accepted :
    ¬(∀ (x c : Array Float) (mon : Monitor Float) (generation : Nat),
      (∃ v ∈ x, Scalar.isFinite v = false) → (∀ v ∈ c, Scalar.isFinite v = true) →
        (mon.observe (Conditioning.betaFromStep x c) generation).1.isTrigger = true ∧
        (mon.observe (Conditioning.betaFromResidual x c) generation).1.isTrigger = true) ∧
    ¬(∀ (dec : Decomposition Float ChosenStructure (ChosenFactors Float))
      (gc : SparseMatrix Float) (dx : Array Float) (tol : Float), dec.CoordinateOf gc →
        dec.d.apply (SelfTest.probe (dec.partition.n - dec.rank)) = .ok dx →
        (∃ v ∈ dx, Scalar.isNaN v = true) → ∀ t, dec.verify gc tol ≠ .ok t) := by
  refine ⟨fun h => ?_, fun h => ?_⟩
  · have htrigger := (h #[Scalar.nan] #[1] (.new 10 1000) 1
      ⟨Scalar.nan, by simp, by decide +kernel⟩ (by decide +kernel)).1
    revert htrigger
    decide +kernel
  · have hd : unpaired.d.apply (SelfTest.probe 1) = .ok #[Scalar.nan] := by decide +kernel
    exact h unpaired sumGradients _ 0 unpaired_coordinateOf hd
      ⟨Scalar.nan, by simp, SpecialValues.isNaN_nan⟩ ⟨0, 0, 0⟩ (by decide +kernel)

end Unseen

end ReducedSpace
