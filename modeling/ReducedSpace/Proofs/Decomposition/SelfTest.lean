import Mathlib
import ReducedSpace.Proofs.Decomposition.Identities
import ReducedSpace.Decomposition.SelfTest

/-!
# The self-test in exact arithmetic

The self-test multiplies with the gradients in the caller's order and measures how far the three
identities are from holding. As they hold for the reordered gradients, each residual is zero and the
test passes for every tolerance that is not negative.
-/

namespace ReducedSpace

open Finset Elimination

variable {K : Type} [ExactScalar K]

/-- A sum over all indices may run through them in any order. -/
theorem sum_old (p : Permutation) (f : ℕ → K) :
    ∑ k ∈ range p.size, f (p.old k) = ∑ k ∈ range p.size, f k := by
  refine sum_nbij' p.old p.new ?_ ?_ ?_ ?_ ?_
  · intro k hk
    exact mem_range.2 (p.old_lt_iff.2 (mem_range.1 hk))
  · intro k hk
    exact mem_range.2 (p.new_lt_iff.2 (mem_range.1 hk))
  · intro k _
    exact p.new_old k
  · intro k _
    exact p.old_new k
  · intro k _
    rfl

namespace Decomposition

variable {S N : Type} [Factorization S N K] {dec : Decomposition K S N} {gc : SparseMatrix K}
  {settings : Settings K}

/-- The product with the gradients in the caller's order is the one with the reordered gradients. -/
theorem Derived.gradientProduct_eq (h : dec.Derived gc settings) {w : Array K}
    (hw : w.size = dec.partition.n) :
    dec.gradientProduct gc w =
      .ok (product dec.rank dec.partition.n (fun i k => dec.partition.reordered gc k i) w) := by
  have hunpermute := dec.partition.unpermuteVars_eq hw
  have hsize : (dec.partition.varPerm.scatter w).size = gc.rows := by
    rw [Permutation.size_scatter, h.rows_eq]
    rfl
  have hproduct : gc.mulVecTranspose 1 (dec.partition.varPerm.scatter w) = _ :=
    gc.represents.applyTranspose_eq _ hsize
  show (dec.partition.unpermuteVars w >>= fun w => gc.mulVecTranspose 1 w >>= fun g =>
    pure (dec.partition.decompEqus.map fun j => g.getD j 0)) = _
  rw [hunpermute]
  show (gc.mulVecTranspose 1 (dec.partition.varPerm.scatter w) >>= fun g =>
    pure (dec.partition.decompEqus.map fun j => g.getD j 0)) = _
  rw [hproduct]
  refine congrArg Except.ok (ext_getD (by simp [rank]) fun i hi => ?_)
  have hi : i < dec.rank := by simpa [rank] using hi
  have hlt : dec.partition.equPerm.old i < gc.cols := by
    rw [h.cols_eq]
    exact dec.partition.equPerm.old_lt_iff.2 (Nat.lt_of_lt_of_le hi dec.partition.rank_le_m)
  rw [Array.getD_eq_getD_getElem?, Array.getElem?_map, dec.partition.getElem?_decompEqus hi,
    Option.map_some, Option.getD_some,
    getD_product hlt, getD_product hi, h.rows_eq]
  refine (sum_old dec.partition.varPerm _).symm.trans (sum_congr rfl fun k hk => ?_)
  rw [Permutation.getD_scatter, if_pos (dec.partition.varPerm.old_lt_iff.2 (mem_range.1 hk)),
    Permutation.new_old]
  rfl

theorem relative_zero {scale : K} {v x : Array K} (h : ∀ i, i < v.size → v.getD i 0 = 0) :
    SelfTest.relative scale v x = 0 := by
  rw [SelfTest.relative]
  rw [normInf_eq_zero_iff.2 h, zero_div]

/-- The residual of `C D + N` vanishes on every vector. -/
private theorem HasSensitivity.residual_eq_zero {d : ℕ → ℕ → K} (hd : dec.HasSensitivity gc d)
    (h : dec.Derived gc settings) {x : Array K} (hx : x.size = dec.partition.n - dec.rank) :
    ∃ v, dec.nonbasis.mulAdd x (product dec.rank dec.rank
        (fun i j => dec.partition.reordered gc j i)
        (product dec.rank (dec.partition.n - dec.rank) d x)) 1 1 = .ok v ∧
      ∀ i, i < v.size → v.getD i 0 = 0 := by
  obtain ⟨hrows, hcols⟩ := h.size_nonbasis
  have hmulAdd := dec.nonbasis.mulAdd_eq (hx.trans hcols.symm)
    ((size_product dec.rank dec.rank (fun i j => dec.partition.reordered gc j i)
      (product dec.rank (dec.partition.n - dec.rank) d x)).trans hrows.symm) 1 1
  refine ⟨_, hmulAdd, fun i hi => ?_⟩
  rw [size_tabulate, hrows] at hi
  have hsum : ∀ j ∈ range (dec.partition.n - dec.rank),
      (∑ k ∈ range dec.rank, dec.partition.reordered gc k i * d k j) * x.getD j 0 =
        -(dec.nonbasis.entry i j * x.getD j 0) := by
    intro j hj
    have hj := mem_range.1 hj
    rw [hd.c_mul_d i j hi hj, h.entry_nonbasis hi hj, neg_mul]
  rw [getD_tabulate, hrows, if_pos hi, product_product, getD_product hi, sum_congr rfl hsum, hcols,
    sum_neg_distrib, one_mul, one_mul, neg_add_cancel]

/-- Every residual is zero. -/
theorem Derived.selfTest_eq (h : dec.Derived gc settings) :
    dec.selfTest gc = .ok ⟨0, 0, 0⟩ := by
  obtain ⟨d, hd⟩ := h.exists_sensitivity
  have hy := hd.y_represents
  have hr := hd.r_represents h
  have hz := hd.z_represents
  let x : Array K := SelfTest.probe (dec.partition.n - dec.rank)
  let x' : Array K := SelfTest.probe dec.rank
  have hx : x.size = dec.partition.n - dec.rank := SelfTest.size_probe _
  have hx' : x'.size = dec.rank := SelfTest.size_probe _
  obtain ⟨v, hv, hzero⟩ := hd.residual_eq_zero h hx
  have hgz : ∀ i, i < dec.rank → (product dec.rank dec.partition.n
      (fun i k => dec.partition.reordered gc k i)
      (product dec.partition.n (dec.partition.n - dec.rank) (stackedIdentity dec.rank d)
        x)).getD i 0 = 0 := by
    intro i hi
    rw [product_product, getD_product hi]
    refine sum_eq_zero fun j hj => ?_
    rw [hd.sum_mul_nullSpace hi (mem_range.1 hj), zero_mul]
  have hgy := product_product dec.rank dec.partition.n dec.rank
    (fun i k => dec.partition.reordered gc k i) (rangeEntries dec.kind dec.rank d) x'
  have hcheck : (dec.partition.checkGradients gc : Except (DecompError K) Unit) = .ok () :=
    Partition.checkShape_eq_ok_iff.2 ⟨h.rows_eq, h.cols_eq⟩
  rw [selfTest]
  simp only [bind_eq_ok_iff, Attempt.ofChecked_eq_ok_iff, Attempt.ofExcept_eq_ok_iff]
  refine ⟨(), hcheck, _, hd.represents.apply_eq x hx, _,
    h.c_represents.apply_eq _ (size_product _ _ _ _), v, hv, _, hz.apply_eq x hx, _,
    h.gradientProduct_eq (size_product _ _ _ _), _, hy.apply_eq x' hx', _,
    h.gradientProduct_eq (size_product _ _ _ _), _, hr.apply_eq x' hx', ?_⟩
  refine congrArg Except.ok ?_
  rw [relative_zero hzero, relative_zero fun i hi => hgz i (by simpa using hi), hgy,
    relative_zero fun i hi => ?_]
  rw [Vec.size_sub, size_product] at hi
  rw [Vec.getD_sub (Nat.le_refl _), size_product, if_pos hi, sub_self]

/-- The self-test passes for every tolerance that is not negative. -/
theorem Derived.verify_eq (h : dec.Derived gc settings) {tol : K} (htol : 0 ≤ tol) :
    dec.verify gc tol = .ok ⟨0, 0, 0⟩ := by
  have hworst : (⟨0, 0, 0⟩ : SelfTest K).worst = ("C*D + N", 0) := by
    rw [SelfTest.worst, SelfTest.named]
    simp
  rw [verify]
  rw [bind_eq_ok_iff]
  refine ⟨_, h.selfTest_eq, ?_⟩
  have hpass : (Scalar.isNaN (0 : K) || Scalar.lt tol 0) = false := by
    rw [Scalar.isNaN_eq, Bool.false_or, Scalar.lt_eq_false_iff]
    exact htol
  rw [hworst]
  dsimp only
  rw [hpass]
  rfl

end Decomposition

end ReducedSpace
