import Mathlib
import ReducedSpace.Proofs.Decomposition.Steps
import ReducedSpace.Proofs.Dense.CholeskySolve

/-!
# Solves with the range operator

The solves with `I + D Dᵀ` go by way of the smaller matrix `S = I + Dᵀ D`. If `S t = Dᵀ x`, then
`z = x - D t` has `Dᵀ z = t`, and therefore `z + D Dᵀ z = x`. Together with the factors of the basis
block this makes the solves with `R` those with the matrix that `R` multiplies with, in either
orientation and for either kind. What is assumed of the factors of `S` is that they solve with it;
where positive numbers have square roots, they do.
-/

namespace ReducedSpace

open Finset Elimination

variable {K : Type} [ExactScalar K]

namespace Woodbury

open Decomposition

/-- The factors, if there are any, solve with `I + Dᵀ D`. -/
def GramExact (w : Woodbury K) : Prop :=
  ∀ g, w.gram = some g → g.SolvesWith w.d.cols (w.d.transpose.mul w.d).addIdentity.entry

/-- The factors, if there are any, are triangles of `I + Dᵀ D`. -/
def Factored (w : Woodbury K) : Prop :=
  ∀ g, w.gram = some g → g.Factors w.d.cols (w.d.transpose.mul w.d).addIdentity.entry

instance (w : Woodbury K) : Decidable w.Factored :=
  match h : w.gram with
  | none => isTrue fun g hg => by
      rw [h] at hg
      cases hg
  | some g => decidable_of_iff (g.Factors w.d.cols (w.d.transpose.mul w.d).addIdentity.entry)
      ⟨fun hfactors g' hg' => by
        rw [h] at hg'
        cases hg'
        exact hfactors, fun hw => hw g h⟩

theorem Factored.gramExact {w : Woodbury K} (h : w.Factored) : w.GramExact :=
  fun g hg => (h g hg).solvesWith

section Formed

variable {w : Woodbury K} {rank : ℕ}

/-- Only a matrix without columns has no factors. -/
theorem cols_eq_zero_of_formed (h : factorGram rank w.d = .ok w.gram) (hnone : w.gram = none) :
    w.d.cols = 0 := by
  rw [hnone, factorGram] at h
  split at h
  · assumption
  · split at h
    · cases h
    · cases h

/-- The factors are those of `I + Dᵀ D`. -/
theorem factor?_of_formed (h : factorGram rank w.d = .ok w.gram) {g : Cholesky K}
    (hg : w.gram = some g) :
    Cholesky.factor? (w.d.transpose.mul w.d).addIdentity = some g := by
  rw [hg, factorGram] at h
  split at h
  · cases h
  · split at h
    · rename_i gram hfactor
      cases h
      exact hfactor
    · cases h

/-- Where positive numbers have roots, the factors are exact. -/
theorem factored_of_formed [ExactRoots K] (h : factorGram rank w.d = .ok w.gram) : w.Factored :=
  fun _ hg => Cholesky.factors_of_factor? (gram_symmetric w.d) (gram_positive w.d)
    (factor?_of_formed h hg)

end Formed

section Solutions

/-- The product with `I + D Dᵀ`. -/
theorem apply_eq (w : Woodbury K) {x : Array K} (hx : x.size = w.d.rows) :
    w.apply x = .ok (product w.d.rows w.d.rows (gramEntries w.d.cols w.d.entry) x) := by
  have h := apply_woodbury w.d.rows w.d.cols w.d.entry w.gram hx
  rwa [DenseMatrix.ofFn_entry] at h

/-- A solve with the stored form of `I + D Dᵀ` corrects its argument by a solve with `I + Dᵀ D`. -/
theorem solve_eq (w : Woodbury K) {x : Array K} (hx : x.size = w.d.rows) :
    w.solve x = .ok (corrected w.d.rows w.d.cols w.d.entry w.gram x) := by
  have h := solve_woodbury w.d.rows w.d.cols w.d.entry w.gram hx
  rwa [DenseMatrix.ofFn_entry] at h

variable {d : DenseMatrix K} {g : Cholesky K} {x : Array K}

theorem getD_corrected (hx : x.size = d.rows) {k : ℕ} (hk : k < d.rows) :
    (corrected d.rows d.cols d.entry (some g) x).getD k 0 =
      x.getD k 0 - ∑ l ∈ range d.cols,
        d.entry k l * (g.solve (product d.cols d.rows (fun l k => d.entry k l) x)).getD l 0 := by
  rw [corrected]
  rw [Vec.getD_sub (by rw [size_product, hx]), hx, if_pos hk, getD_product hk]

/-- The solution with `I + Dᵀ D` is the product of `Dᵀ` with the corrected vector. -/
theorem sum_mul_corrected
    (hg : g.SolvesWith d.cols (d.transpose.mul d).addIdentity.entry) (hx : x.size = d.rows) {l : ℕ}
    (hl : l < d.cols) :
    ∑ k ∈ range d.rows, d.entry k l *
        (corrected d.rows d.cols d.entry (some g) x).getD k 0 =
      (g.solve (product d.cols d.rows (fun l k => d.entry k l) x)).getD l 0 := by
  let t := g.solve (product d.cols d.rows (fun l k => d.entry k l) x)
  have hsolution : ∑ k ∈ range d.rows, d.entry k l * x.getD k 0 =
      ∑ k ∈ range d.rows, d.entry k l * ∑ m ∈ range d.cols, d.entry k m * t.getD m 0 +
        t.getD l 0 := by
    have hrow := congrArg (fun v : Array K => v.getD l 0)
      (hg _ (size_product d.cols d.rows (fun l k => d.entry k l) x))
    rw [getD_product hl, getD_product hl] at hrow
    rw [← hrow]
    have hterm : ∀ m ∈ range d.cols,
        (d.transpose.mul d).addIdentity.entry l m * t.getD m 0 =
          ∑ k ∈ range d.rows, d.entry k l * (d.entry k m * t.getD m 0) +
            if l = m then t.getD m 0 else 0 := by
      intro m hm
      rw [entry_gram d hl (mem_range.1 hm), add_mul, sum_mul, ite_mul, one_mul, zero_mul]
      simp only [mul_assoc]
    rw [sum_congr rfl hterm, sum_add_distrib, sum_ite_eq, if_pos (mem_range.2 hl), sum_comm]
    simp only [mul_sum]
  calc ∑ k ∈ range d.rows, d.entry k l *
        (corrected d.rows d.cols d.entry (some g) x).getD k 0
      = ∑ k ∈ range d.rows, d.entry k l * x.getD k 0 -
          ∑ k ∈ range d.rows, d.entry k l * ∑ m ∈ range d.cols, d.entry k m * t.getD m 0 := by
        rw [← sum_sub_distrib]
        refine sum_congr rfl fun k hk => ?_
        rw [getD_corrected hx (mem_range.1 hk), mul_sub]
    _ = t.getD l 0 := by rw [hsolution, add_sub_cancel_left]

/-- Multiplying with `I + D Dᵀ` takes the correction back. -/
theorem product_corrected (w : Woodbury K) (hcols : w.gram = none → w.d.cols = 0)
    (hexact : w.GramExact) (hx : x.size = w.d.rows) :
    product w.d.rows w.d.rows (gramEntries w.d.cols w.d.entry)
      (corrected w.d.rows w.d.cols w.d.entry w.gram x) = x := by
  refine ext_getD (by rw [size_product, hx]) fun k hk => ?_
  rw [size_product] at hk
  rw [getD_product hk, sum_gramEntries_mul hk]
  cases hgram : w.gram with
  | none =>
    rw [hcols hgram, sum_range_zero, add_zero]
    rfl
  | some g =>
    have hterm : ∀ l ∈ range w.d.cols, w.d.entry k l * ∑ j ∈ range w.d.rows, w.d.entry j l *
        (corrected w.d.rows w.d.cols w.d.entry (some g) x).getD j 0 = w.d.entry k l *
          (g.solve (product w.d.cols w.d.rows (fun l k => w.d.entry k l) x)).getD l 0 :=
      fun l hl => congrArg _ (sum_mul_corrected (hexact g hgram) hx (mem_range.1 hl))
    rw [sum_congr rfl hterm, getD_corrected hx hk, sub_add_cancel]

/-- The solves with `I + D Dᵀ`, which is symmetric, for every matrix `D`. -/
theorem inverts {w : Woodbury K} {rank : ℕ} (h : factorGram rank w.d = .ok w.gram)
    (hexact : w.GramExact) :
    Inverts (fun _ => w.solve) w.d.rows (gramEntries w.d.cols w.d.entry) := by
  intro o x hx
  refine ⟨_, w.solve_eq hx, (size_corrected _ _ _ _ _).trans hx, ?_⟩
  have hproduct := w.product_corrected (cols_eq_zero_of_formed h) hexact hx
  cases o with
  | plain => exact hproduct
  | transposed =>
    refine Eq.trans (product_congr (fun i j _ _ => ?_) fun _ _ => rfl) hproduct
    exact gramEntries_symm _ _ _ _

/-- Solves and products with `I + D Dᵀ` undo each other, for every matrix `D`. -/
theorem mutuallyInverse {w : Woodbury K} {rank : ℕ} (h : factorGram rank w.d = .ok w.gram)
    (hexact : w.GramExact) : MutuallyInverse w.d.rows w.solve w.apply :=
  (inverts h hexact).mutuallyInverse .plain fun _ hx => w.apply_eq hx

end Solutions

end Woodbury

namespace Decomposition

variable {S N : Type} [Factorization S N K] {dec : Decomposition K S N} {gc : SparseMatrix K}
  {settings : Settings K} {d : ℕ → ℕ → K}

omit [Factorization S N K] in
/-- The factors of `I + Dᵀ D`, if there are any, solve with it. -/
def GramExact (dec : Decomposition K S N) : Prop := ∀ w, dec.woodbury? = some w → w.GramExact

omit [ExactScalar K] [Factorization S N K] in
/-- This form is stored for the orthogonal kind. -/
theorem sensitivity_of_woodbury? {w : Woodbury K} (h : dec.woodbury? = some w) :
    dec.sensitivity = .orthogonal w.d w.gram := by
  unfold woodbury? at h
  split at h
  · rename_i d gram hs
    cases h
    exact hs
  · cases h

/-- A decomposition forms the factors of its own `I + Dᵀ D`. -/
theorem Derived.factorGram_woodbury (h : dec.Derived gc settings) {w : Woodbury K}
    (hw : dec.woodbury? = some w) : factorGram dec.rank w.d = .ok w.gram := by
  have hstored := h.built.sensitivity_eq
  rw [sensitivity_of_woodbury? hw] at hstored
  exact factorGram_of_storeSensitivity hstored

/-- Where positive numbers have roots, the factors of `I + Dᵀ D` solve exactly. -/
theorem Derived.gramExact [ExactRoots K] (h : dec.Derived gc settings) : dec.GramExact :=
  fun _ hw => (Woodbury.factored_of_formed (h.factorGram_woodbury hw)).gramExact

omit [Factorization S N K] in
/-- The coordinate kind has no such factors. -/
theorem gramExact_of_coordinate (hkind : dec.kind = .coordinate) : dec.GramExact := by
  intro w hw
  rw [(views_of_coordinate hkind).2] at hw
  cases hw

omit [Factorization S N K] in
/-- Triangles of `I + Dᵀ D` are exact factors. -/
theorem gramExact_of_factored (h : dec.woodbury?.all (fun w => decide w.Factored) = true) :
    dec.GramExact := by
  intro w hw
  rw [hw, Option.all_some, decide_eq_true_eq] at h
  exact h.gramExact

/-- The solves with `C` undo its products. -/
theorem Derived.cInverse_inverts (h : dec.Derived gc settings) :
    Inverts dec.cInverse.solveIn dec.rank fun i j => dec.partition.reordered gc j i := by
  intro o b hb
  obtain ⟨x, hx, hsize, hproduct⟩ := h.inverts o.flip b hb
  cases o with
  | plain => exact ⟨x, hx, hsize, hproduct⟩
  | transposed => exact ⟨x, hx, hsize, hproduct⟩

/-- The solves with `R` are those with `Gc(:, decomposed)ᵀ Y`. -/
theorem HasSensitivity.rInverse_inverts (hd : dec.HasSensitivity gc d)
    (h : dec.Derived gc settings) (hexact : dec.GramExact) :
    Inverts dec.rInverse.solveIn dec.rank fun i j => ∑ k ∈ range dec.partition.n,
      dec.partition.reordered gc k i * rangeEntries dec.kind dec.rank d k j := by
  cases hkind : dec.kind with
  | coordinate =>
    have hr : dec.rInverse = dec.cInverse := by
      unfold rInverse
      rw [(views_of_coordinate hkind).2]
    rw [hr]
    exact h.cInverse_inverts.congr fun i j _ hj =>
      (sum_mul_rangeEntries_coordinate dec gc d hj).symm
  | orthogonal =>
    obtain ⟨gram, -, -, hw⟩ := hd.views_of_orthogonal hkind
    have hinverts := h.cInverse_inverts.mul
      (Woodbury.inverts (h.factorGram_woodbury hw) (hexact _ hw))
    have hsolve : dec.rInverse.solveIn = solveProduct dec.cInverse.solveIn
        fun _ => (⟨.ofFn dec.rank (dec.partition.n - dec.rank) d, gram⟩ : Woodbury K).solve := by
      unfold rInverse
      rw [hw]
      funext o
      cases o with
      | plain => rfl
      | transposed => rfl
    rw [hsolve]
    refine hinverts.congr fun i j hi hj => ?_
    rw [hd.sum_mul_rangeEntries_orthogonal hi hj]
    refine sum_congr rfl fun k hk => congrArg _ ?_
    exact gramEntries_ofFn d (mem_range.1 hk) hj

/-- Solves and products with `R` undo each other. -/
theorem Derived.range_mutuallyInverse (h : dec.Derived gc settings) (hexact : dec.GramExact)
    (o : Orientation) :
    MutuallyInverse dec.rank (dec.rInverse.solveIn o) (dec.r.applyIn o) := by
  obtain ⟨d, hd⟩ := h.exists_sensitivity
  exact (hd.rInverse_inverts h hexact).mutuallyInverse o fun _ hx =>
    (hd.r_represents h).applyIn_eq o hx

/-- The operators `R` and `R⁻¹` have the size of the basis. -/
theorem Derived.size_range (h : dec.Derived gc settings) :
    dec.r.rows = dec.rank ∧ dec.r.cols = dec.rank ∧ dec.rInverse.dim = dec.rank := by
  obtain ⟨d, hd⟩ := h.exists_sensitivity
  have hr := hd.r_represents h
  refine ⟨hr.rows_eq, hr.cols_eq, ?_⟩
  unfold rInverse
  cases dec.woodbury? with
  | none => exact h.dim_eq
  | some w => exact h.dim_eq

end Decomposition

end ReducedSpace
