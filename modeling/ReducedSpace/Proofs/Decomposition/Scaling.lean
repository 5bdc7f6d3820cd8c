import Mathlib
import ReducedSpace.Proofs.Decomposition.Counterparts
import ReducedSpace.Proofs.Decomposition.RelatedParts
import ReducedSpace.Proofs.Decomposition.Steps
import ReducedSpace.Proofs.Decomposition.StoredForms
import ReducedSpace.Proofs.Exact.Scaling

/-!
# The decomposition of a multiple

A multiple of the gradients has the multiple of their basis block and of `N`, so that `-C⁻¹ N` is
the same: the decomposition holds the same `D` and with it the same `Z` and `Y`. Products of the
gradients with `Y` and `Z` are multiplied, and what solves with `R` is divided.
-/

namespace ReducedSpace

open Finset Elimination

variable {K : Type} [ExactScalar K] {c s : K}

section Cholesky

/-- A blocked sum of multiples is the multiple of the blocked sum. -/
theorem blockedSum_scale (n : ℕ) (f g : ℕ → K) :
    blockedSum n f (fun k => s * g k) = s * blockedSum n f g := by
  rw [blockedSum_eq, blockedSum_eq, mul_sum]
  exact sum_congr rfl fun k _ => mul_left_comm _ _ _

/-- Both substitutions multiply as the right-hand side does. -/
theorem Cholesky.solve_scale (g : Cholesky K) (b : Array K) :
    g.solve (Vec.scale s b) = Vec.scale s (g.solve b) := by
  have hforward : g.forward (Vec.scale s b) = Vec.scale s (g.forward b) := by
    refine Vec.sweep_scale (fun i y => ?_) _ b
    rw [← mul_div_assoc, Vec.getD_scale]
    refine congrArg (· / _) (List.foldl_hom (s * ·) fun v k => ?_)
    rw [Vec.getD_scale]
    ring
  have hbackward (y : Array K) : g.backward (Vec.scale s y) = Vec.scale s (g.backward y) := by
    refine Vec.sweep_scale (fun i x => ?_) _ y
    dsimp only
    rw [← mul_div_assoc, Vec.getD_scale]
    simp only [Vec.getD_scale]
    rw [blockedSum_scale, mul_sub]
  rw [Cholesky.solve, Cholesky.solve, hforward, hbackward]

/-- The solve with `I + D Dᵀ` commutes with multiples. -/
theorem corrected_scale (r n : ℕ) (d : ℕ → ℕ → K) (gram : Option (Cholesky K)) (x : Array K) :
    Decomposition.corrected r n d gram (Vec.scale s x) =
      Vec.scale s (Decomposition.corrected r n d gram x) := by
  cases gram with
  | none => rfl
  | some g =>
    unfold Decomposition.corrected
    dsimp only
    rw [product_scale_right, Cholesky.solve_scale, product_scale_right, Vec.sub_scale]

end Cholesky

section Solves

variable {r : ℕ} {a : ℕ → ℕ → K} {solve solve' : Orientation → Array K → Checked (Array K)}

/-- What the matrix takes to a right-hand side is the solution for it. -/
theorem Inverts.solve_eq (h : Inverts solve r a) (o : Orientation) {x y : Array K}
    (hx : x.size = r) (hproduct : product r r (o.entries a) x = y) : solve o y = .ok x := by
  obtain ⟨x', hx', -, hunique⟩ := h.unique o y (hproduct ▸ size_product _ _ _ _)
  rw [hx', (hunique x hx).1 hproduct]

/-- In either orientation a multiple has multiplied entries. -/
theorem entries_scale (o : Orientation) (a : ℕ → ℕ → K) :
    o.entries (fun i j => c * a i j) = fun i j => c * o.entries a i j := by
  cases o <;> rfl

variable (hc : c ≠ 0) (h : Inverts solve r a) (h' : Inverts solve' r fun i j => c * a i j)
  (o : Orientation) {x : Array K} (hx : x.size = r)
include hc h h' hx

/-- A multiple of the matrix divides the solutions. -/
theorem Inverts.solve_multiple : solve' o x = (solve o x).map (Vec.scale c⁻¹) := by
  obtain ⟨y, hy, hsize, hproduct⟩ := h o x hx
  rw [hy]
  refine h'.solve_eq o ((Vec.size_scale y).trans hsize) ?_
  rw [entries_scale, product_scale_left, product_scale_right, hproduct, Vec.scale, Vec.scale,
    Array.map_map]
  simp only [Function.comp_def, mul_inv_cancel_left₀ hc, Array.map_id']

omit hc in
/-- Solves with a multiple of the block undo multiples of vectors. -/
theorem Inverts.solve_scale : solve' o (Vec.scale c x) = solve o x := by
  obtain ⟨y, hy, hsize, hproduct⟩ := h o x hx
  rw [hy]
  refine h'.solve_eq o hsize ?_
  rw [entries_scale, product_scale_left, hproduct]

end Solves

/-- The factors of a multiple divide solutions, and refuse the same lengths. -/
theorem BasisMatrix.solve_scale {S N : Type} [Factorization S N K] {basis basis' : BasisMatrix S N}
    {a : ℕ → ℕ → K} (hdim : basis.dim = basis'.dim) (h : Inverts basis.solve basis.dim a)
    (h' : Inverts basis'.solve basis.dim fun i j => c * a i j) (o : Orientation) (x : Array K) :
    basis'.solve o (Vec.scale c x) = basis.solve o x := by
  by_cases hx : x.size = basis.dim
  · exact h.solve_scale h' o hx
  · rw [basis.solve_of_size_ne o hx, basis'.solve_of_size_ne o (by rwa [Vec.size_scale, ← hdim])]

/-- The rearranged gradients of a multiple are multiples. -/
theorem Partition.reordered_scale (p : Partition) (gc : SparseMatrix K) :
    p.reordered (gc.scale c) = fun i j => c * p.reordered gc i j := by
  funext i j
  exact gc.entry_scale _ _

/-- Being a multiple is kept by blocks and transposes. -/
theorem SparseMatrix.blockRelation_scale :
    BlockRelation fun a a' : SparseMatrix K => a' = a.scale c where
  select {a a'} h rows cols := by
    subst h
    rw [select, select, rows_scale, cols_scale]
    split
    · exact .ok (a.submatrix_scale rows cols)
    · exact .error _
  transpose {a a'} h := by
    subst h
    exact a.transpose_scale

/-- Two operators that multiply with a matrix and with its multiple. -/
def LinearOperator.IsMultiple (c : K) (op op' : LinearOperator K) (rows cols : ℕ) : Prop :=
  ∃ a, op.Represents rows cols a ∧ op'.Represents rows cols fun i j => c * a i j

namespace Decomposition

variable {S N : Type} [Factorization S N K]

/-- The decomposition of a multiple of the gradients for the same choice. -/
structure Multiple (c : K) (dec dec' : Decomposition K S N) : Prop where
  partition_eq : dec.partition = dec'.partition
  generation_eq : dec.generation = dec'.generation
  symbolic_eq : dec.basis.symbolic = dec'.basis.symbolic
  kind_eq : dec.kind = dec'.kind
  formed_eq : dec.formed? = dec'.formed?
  d_eq : dec.d = dec'.d
  z_eq : dec.z = dec'.z
  y_eq : dec.y = dec'.y
  r_multiple : dec.r.IsMultiple c dec'.r dec.rank dec.rank
  uy_multiple : Option.Rel (fun u u' : LinearOperator K =>
    u.IsMultiple c u' (dec.partition.m - dec.rank) dec.rank) dec.uy? dec'.uy?
  uz_multiple : Option.Rel (fun u u' : LinearOperator K => u.IsMultiple c u'
    (dec.partition.m - dec.rank) (dec.partition.n - dec.rank)) dec.uz? dec'.uz?
  quasiNormalStep_eq : ∀ x, dec'.quasiNormalStep x = (dec.quasiNormalStep x).map (Vec.scale c⁻¹)

section Building

variable {basis basis' : BasisMatrix S N}

/-- The solves divide by the factor, so the multiple of `N` makes the same matrix. -/
theorem sensitivityColumn_scale (hc : c ≠ 0)
    (hsolve : ∀ x, basis'.solve .transposed (Vec.scale c x) = basis.solve .transposed x)
    (n : SparseMatrix K) (j : ℕ) :
    sensitivityColumn basis' (n.scale c) j = sensitivityColumn basis n j := by
  have hrhs : (tabulate n.rows fun i => (n.scale c).entry i j) =
      Vec.scale c (tabulate n.rows fun i => n.entry i j) := by
    refine ext_getD (by simp [Vec.size_scale]) fun i hi => ?_
    rw [size_tabulate] at hi
    rw [Vec.getD_scale, getD_tabulate, getD_tabulate, if_pos hi, if_pos hi, n.entry_scale]
  have hzero : Scalar.isZero (Vec.normInf (Vec.scale c (tabulate n.rows fun i => n.entry i j))) =
      Scalar.isZero (Vec.normInf (tabulate n.rows fun i => n.entry i j)) := by
    rw [Bool.eq_iff_iff, Scalar.isZero_iff, Scalar.isZero_iff, normInf_eq_zero_iff,
      normInf_eq_zero_iff, Vec.size_scale]
    simp only [Vec.getD_scale, mul_eq_zero, hc, false_or]
  unfold sensitivityColumn
  rw [SparseMatrix.rows_scale, hrhs]
  dsimp only
  rw [hzero, hsolve]

/-- The stored `D` is the same: the factor in `N` is undone by the one in the solves. -/
theorem storeSensitivity_scale (hc : c ≠ 0)
    (hsolve : ∀ x, basis'.solve .transposed (Vec.scale c x) = basis.solve .transposed x)
    (n : SparseMatrix K) (settings : Settings K) (rank : ℕ) :
    storeSensitivity settings rank basis n = storeSensitivity settings rank basis' (n.scale c) := by
  have hformed : formSensitivity basis' (n.scale c) = formSensitivity basis n := by
    rw [formSensitivity, formSensitivity, SparseMatrix.cols_scale, SparseMatrix.rows_scale,
      funext (sensitivityColumn_scale hc hsolve n)]
  rw [storeSensitivity, storeSensitivity, hformed]

end Building

section Views

variable {dec dec' : Decomposition K S N} {gc : SparseMatrix K} {settings settings' : Settings K}
  {factors : BasisMatrix S N → BasisMatrix S N → Prop} {d : ℕ → ℕ → K}

/-- Two decompositions of a matrix and of its multiple with the same stored sensitivity. -/
structure Scales (c : K) (dec dec' : Decomposition K S N) (gc : SparseMatrix K)
    (settings settings' : Settings K) (factors : BasisMatrix S N → BasisMatrix S N → Prop) :
    Prop where
  ne_zero : c ≠ 0
  derived : dec.Derived gc settings
  derived' : dec'.Derived (gc.scale c) settings'
  parts : RelatedParts (fun a a' => a' = a.scale c) factors dec dec'

variable (h : Scales c dec dec' gc settings settings' factors)
include h

/-- Both decompositions have the same rank. -/
theorem Scales.rank_eq : dec.rank = dec'.rank := by rw [rank, rank, h.parts.partition_eq]

/-- Both hold the same matrix `D`, since the equation that determines it may be divided by the
factor. -/
theorem Scales.sensitivity' (hd : dec.HasSensitivity gc d) :
    dec'.HasSensitivity (gc.scale c) d := by
  obtain ⟨d', hd'⟩ := h.derived'.exists_sensitivity
  obtain ⟨b, hpair, -⟩ := h.derived.inverts.exists_inverse
  have hrepresents := hd'.represents
  have hc_mul := hd'.c_mul_d
  rw [← h.rank_eq, ← h.parts.partition_eq] at hrepresents hc_mul
  have hsum (i j : ℕ) (hi : i < dec.rank) (hj : j < dec.partition.n - dec.rank) :
      ∑ k ∈ range dec.rank, dec.partition.reordered gc k i * d' k j =
        ∑ k ∈ range dec.rank, dec.partition.reordered gc k i * d k j := by
    have hscaled := hc_mul i j hi hj
    rw [dec.partition.reordered_scale] at hscaled
    simp only [mul_assoc, ← mul_sum] at hscaled
    rw [← mul_neg] at hscaled
    exact (mul_left_cancel₀ h.ne_zero hscaled).trans (hd.c_mul_d i j hi hj).symm
  have heq (i j : ℕ) (hi : i < dec.rank) (hj : j < dec.partition.n - dec.rank) : d' i j = d i j :=
    hpair.eq_of_sum_eq (fun k hk => hsum k j hk hj) hi
  refine ⟨?_, fun i j hi hj => ?_, fun a ha => ?_⟩
  · rw [← h.rank_eq, ← h.parts.partition_eq]
    exact hrepresents.congr heq
  · rw [← h.rank_eq] at hi hj ⊢
    rw [← h.parts.partition_eq] at hj ⊢
    rw [dec.partition.reordered_scale]
    simp only [mul_assoc, ← mul_sum]
    rw [hd.c_mul_d i j hi hj, mul_neg]
  · rw [← h.parts.formed_eq] at ha
    rw [← h.rank_eq, ← h.parts.partition_eq]
    exact hd.formed a ha

/-- The same `D` as an operator, which also refuses the same vectors. -/
theorem Scales.d_eq : dec.d = dec'.d := by
  obtain ⟨d, hd⟩ := h.derived.exists_sensitivity
  have hrepresents := hd.represents
  have hrepresents' := (h.sensitivity' hd).represents
  rw [← h.rank_eq, ← h.parts.partition_eq] at hrepresents'
  have hformed := h.parts.formed_eq
  unfold Decomposition.d at hrepresents hrepresents' ⊢
  rw [← hformed] at hrepresents' ⊢
  cases hstored : dec.formed? with
  | some a => rfl
  | none =>
    rw [hstored] at hrepresents hrepresents'
    refine hrepresents.operator_ext hrepresents' (implicitSensitivity_checksLength fun x hx => ?_)
      (implicitSensitivity_checksLength fun x hx => ?_)
    · refine dec.basis.solve_of_size_ne .plain ?_
      rwa [h.derived.dim_eq, ← h.derived.size_nonbasis.1]
    · refine dec'.basis.solve_of_size_ne .plain ?_
      rwa [h.derived'.dim_eq, ← h.derived'.size_nonbasis.1]

/-- And the same `Z`, which is made of `D`. -/
theorem Scales.z_eq : dec.z = dec'.z := congrArg nullSpace h.d_eq

/-- Sums over the reordered gradients multiply as these do. -/
private theorem Scales.sum_gradients (f : ℕ → K) (i : ℕ) :
    c * ∑ k ∈ range dec.partition.n, dec.partition.reordered gc k i * f k =
      ∑ k ∈ range dec'.partition.n, dec'.partition.reordered (gc.scale c) k i * f k := by
  rw [← h.parts.partition_eq, dec.partition.reordered_scale, mul_sum]
  exact sum_congr rfl fun k _ => (mul_assoc _ _ _).symm

/-- The operator `R` is multiplied with the gradients. -/
theorem Scales.r_multiple : dec.r.IsMultiple c dec'.r dec.rank dec.rank := by
  obtain ⟨d, hd⟩ := h.derived.exists_sensitivity
  have hrepresents' := (h.sensitivity' hd).r_represents h.derived'
  rw [← h.rank_eq, ← h.parts.kind_eq] at hrepresents'
  exact ⟨_, hd.r_represents h.derived,
    hrepresents'.congr fun i j _ _ => (h.sum_gradients _ i).symm⟩

/-- Whatever the undecomposed gradients project, the product is multiplied. -/
theorem Scales.projected_multiple {view : LinearOperator K} {cols : ℕ} {a : ℕ → ℕ → K}
    (hview : view.Represents dec.partition.n cols a) :
    Option.Rel (fun u u' : LinearOperator K =>
        u.IsMultiple c u' (dec.partition.m - dec.rank) cols)
      (dec.undecomposed.map fun gu => projected gu view)
      (dec'.undecomposed.map fun gu => projected gu view) := by
  have hpartition := h.parts.partition_eq
  have hrank := h.rank_eq
  by_cases hlt : dec.rank < dec.partition.m
  · obtain ⟨gu, hgu, hproduct⟩ := h.derived.projected_represents hlt hview
    have hlt' : dec'.rank < dec'.partition.m := by rwa [← hrank, ← hpartition]
    have hview' : view.Represents dec'.partition.n cols a := by rwa [← hpartition]
    obtain ⟨gu', hgu', hproduct'⟩ := h.derived'.projected_represents hlt' hview'
    rw [← hrank, ← hpartition] at hproduct'
    rw [hgu, hgu']
    refine .some ⟨_, hproduct, hproduct'.congr fun i j _ _ => ?_⟩
    rw [h.sum_gradients, ← hpartition]
  · have hle := Nat.not_lt.1 hlt
    rw [h.derived.built.undecomposed_none hle,
      h.derived'.built.undecomposed_none (by rwa [← hpartition])]
    exact .none

/-- So is `Uy`. -/
theorem Scales.uy_multiple : Option.Rel (fun u u' : LinearOperator K =>
    u.IsMultiple c u' (dec.partition.m - dec.rank) dec.rank) dec.uy? dec'.uy? := by
  obtain ⟨d, hd⟩ := h.derived.exists_sensitivity
  rw [uy?, uy?, ← h.parts.y_eq]
  exact h.projected_multiple hd.y_represents

/-- And `Uz`. -/
theorem Scales.uz_multiple : Option.Rel (fun u u' : LinearOperator K => u.IsMultiple c u'
    (dec.partition.m - dec.rank) (dec.partition.n - dec.rank)) dec.uz? dec'.uz? := by
  obtain ⟨d, hd⟩ := h.derived.exists_sensitivity
  rw [uz?, uz?, ← h.z_eq]
  exact h.projected_multiple hd.z_represents

/-- Solves with `R` are divided by the factor. -/
theorem Scales.rInverse_solve {b : Array K} (hb : b.size = dec.rank) :
    dec'.rInverse.solve b = (dec.rInverse.solve b).map (Vec.scale c⁻¹) := by
  have hinverts' := h.derived'.inverts
  rw [← h.rank_eq, ← h.parts.partition_eq, dec.partition.reordered_scale] at hinverts'
  have hsolve : dec'.cInverse.solve b = (dec.cInverse.solve b).map (Vec.scale c⁻¹) :=
    h.derived.inverts.solve_multiple h.ne_zero hinverts' .transposed hb
  cases hkind : dec.kind with
  | coordinate =>
    unfold rInverse
    rwa [(views_of_coordinate hkind).2,
      (views_of_coordinate (h.parts.kind_eq.symm.trans hkind)).2]
  | orthogonal =>
    obtain ⟨d, hd⟩ := h.derived.exists_sensitivity
    obtain ⟨gram, -, -, hwoodbury⟩ := hd.views_of_orthogonal hkind
    have hwoodbury' := h.parts.woodbury_eq.symm.trans hwoodbury
    obtain ⟨x, hx, hsize, -⟩ := h.derived.inverts .transposed b hb
    have hx : dec.cInverse.solve b = .ok x := hx
    rw [h.rank_eq] at hwoodbury'
    rw [hx] at hsolve
    rw [rInverse_of_orthogonal hwoodbury hx hsize, rInverse_of_orthogonal hwoodbury' hsolve
      ((Vec.size_scale x).trans (hsize.trans h.rank_eq)), corrected_scale, h.rank_eq]
    rfl

/-- Therefore the quasi-normal step is. -/
theorem Scales.quasiNormalStep_eq (x : Array K) :
    dec'.quasiNormalStep x = (dec.quasiNormalStep x).map (Vec.scale c⁻¹) := by
  have hresidual : dec'.decomposedResidual x = dec.decomposedResidual x := by
    rw [decomposedResidual, decomposedResidual, h.parts.partition_eq]
  rw [quasiNormalStep, quasiNormalStep, hresidual]
  by_cases hx : x.size = dec.partition.m
  · obtain ⟨b, hb, hsize, -⟩ := dec.decomposedResidual_eq hx
    rw [hb]
    show (Attempt.ofChecked (dec'.rInverse.solve b) >>= fun py => pure (Vec.neg py)) =
      (Attempt.ofChecked (dec.rInverse.solve b) >>= fun py => pure (Vec.neg py)).map _
    rw [h.rInverse_solve hsize]
    cases dec.rInverse.solve b with
    | error f => rfl
    | ok y => exact congrArg Except.ok (Vec.neg_scale y)
  · rw [decomposedResidual, if_neg hx]
    rfl

/-- All views together. -/
theorem Scales.multiple (hsymbolic : dec.basis.symbolic = dec'.basis.symbolic) :
    Multiple c dec dec' where
  partition_eq := h.parts.partition_eq
  generation_eq := h.parts.generation_eq
  symbolic_eq := hsymbolic
  kind_eq := h.parts.kind_eq
  formed_eq := h.parts.formed_eq
  d_eq := h.d_eq
  z_eq := h.z_eq
  y_eq := h.parts.y_eq
  r_multiple := h.r_multiple
  uy_multiple := h.uy_multiple
  uz_multiple := h.uz_multiple
  quasiNormalStep_eq := h.quasiNormalStep_eq

end Views

/-- From a multiple of the gradients and the factors of its basis block the multiple is built, or
both builds fail in the same way. -/
theorem build_scale (hc : c ≠ 0) {partition : Partition} {basis basis' : BasisMatrix S N}
    {gc : SparseMatrix K} {settings : Settings K} (hrows : gc.rows = partition.n)
    (hcols : gc.cols = partition.m) (hsize : basis.dim = partition.rank)
    (hdim : basis.dim = basis'.dim) (hsymbolic : basis.symbolic = basis'.symbolic)
    (h : Inverts basis.solve partition.rank (partition.reordered gc))
    (h' : Inverts basis'.solve partition.rank (partition.reordered (gc.scale c)))
    (generation : ℕ) :
    SameAnswer (Multiple c) (build partition basis gc settings generation)
      (build partition basis' (gc.scale c) settings generation) := by
  have hsolve : ∀ x, basis'.solve .transposed (Vec.scale c x) = basis.solve .transposed x := by
    rw [partition.reordered_scale] at h'
    rw [← hsize] at h h'
    exact BasisMatrix.solve_scale hdim h h' .transposed
  have hbuild : SameAnswer
      (RelatedParts (fun a a' => a' = a.scale c) fun b b' => b.symbolic = b'.symbolic)
      (build partition basis gc settings generation)
      (build partition basis' (gc.scale c) settings generation) :=
    build_relatedParts SparseMatrix.blockRelation_scale rfl hdim hsymbolic partition
      (fun n n' hn => hn ▸ storeSensitivity_scale hc hsolve n settings partition.rank) generation
  generalize hx : build partition basis gc settings generation = x at hbuild ⊢
  generalize hy : build partition basis' (gc.scale c) settings generation = y at hbuild ⊢
  cases hbuild with
  | error e => exact .error e
  | @ok dec dec' hparts =>
    have hderived := (build_eq_ok_iff.1 hx).derived hrows hcols h
    have hderived' := (build_eq_ok_iff.1 hy).derived hrows hcols h'
    exact .ok (Scales.multiple ⟨hc, hderived, hderived', hparts⟩ hparts.basis)

end Decomposition

end ReducedSpace
