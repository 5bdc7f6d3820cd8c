import Mathlib
import ReducedSpace.Proofs.Decomposition.LeastNorm

/-!
# The columns of `Y` and `Z`

The square matrix `[Y Z]` is nonsingular whatever `D` is. For the coordinate kind it is triangular
with a unit diagonal; for the orthogonal kind a vector with `Y p + Z w = 0` has two parts that are
orthogonal to each other and cancel, so both are zero. Every vector is therefore in exactly one way
the sum of a product with `Y` and one with `Z`, and the null space of the decomposed gradients,
which `Z` reaches, has the columns of `Z` as a basis.
-/

namespace ReducedSpace

open Finset Elimination

/-- The vector `Y py + Z pz`. -/
def Decomposition.combined {α S N : Type} [Scalar α] [Factorization S N α]
    (dec : Decomposition α S N) (py pz : Array α) : Checked (Array α) := do
  let range ← dec.y.apply py
  let null ← dec.z.apply pz
  return Vec.add range null

variable {K : Type} [ExactScalar K]

section Columns

variable {kind : RangeBasis} {r c n : ℕ} {d : ℕ → ℕ → K} {p w : ℕ → K}

/-- The leading rows of `Y` are those of the identity, for either kind. -/
theorem sum_rangeEntries_mul (kind : RangeBasis) (d : ℕ → ℕ → K) (p : ℕ → K) {i : ℕ} (hi : i < r) :
    ∑ j ∈ range r, rangeEntries kind r d i j * p j = p i := by
  have hterm : ∀ j, rangeEntries kind r d i j = if i = j then 1 else 0 := by
    intro j
    cases kind with
    | coordinate => rfl
    | orthogonal => exact if_pos hi
  simp only [hterm, ite_mul, one_mul, zero_mul]
  rw [sum_ite_eq, if_pos (mem_range.2 hi)]

/-- The trailing rows of `Z` are those of the identity. -/
theorem sum_stackedIdentity_mul_add (d : ℕ → ℕ → K) (w : ℕ → K) {l : ℕ} (hl : l < c) :
    ∑ l' ∈ range c, stackedIdentity r d (r + l) l' * w l' = w l := by
  rw [sum_stackedIdentity_mul d w (by omega), if_neg (by omega), Nat.add_sub_cancel_left]

/-- If the two parts cancel, the one in the null space vanishes. For the coordinate kind the range
part has zeros where the null part shows `w`; for the orthogonal kind the parts are orthogonal as well
as opposite, so the null part is orthogonal to itself. -/
theorem null_part_eq_zero (hn : r + c = n)
    (h : ∀ i, i < n → ∑ j ∈ range r, rangeEntries kind r d i j * p j +
      ∑ l ∈ range c, stackedIdentity r d i l * w l = 0) {l : ℕ} (hl : l < c) : w l = 0 := by
  have hlt : r + l < n := by omega
  cases kind with
  | coordinate =>
    have hzero : ∀ j ∈ range r, rangeEntries .coordinate r d (r + l) j * p j = 0 := by
      intro j hj
      have hj := mem_range.1 hj
      unfold rangeEntries leadingIdentity
      dsimp only
      rw [if_neg (by omega), zero_mul]
    have hrow := h (r + l) hlt
    rwa [sum_eq_zero hzero, zero_add, sum_stackedIdentity_mul_add d w hl] at hrow
  | orthogonal =>
    have horthogonal := sum_mul_combinations_eq_zero (n := n)
      (fun j l hj hl => sum_identityStacked_mul_stackedIdentity d hn hj hl) p w
    have hsquare : ∑ i ∈ range n, (∑ l ∈ range c, stackedIdentity r d i l * w l) ^ 2 = 0 := by
      rw [← neg_eq_zero, ← horthogonal, ← sum_neg_distrib]
      refine sum_congr rfl fun i hi => ?_
      have hcancel : ∑ j ∈ range r, identityStacked r d i j * p j = _ :=
        eq_neg_of_add_eq_zero_left (h i (mem_range.1 hi))
      rw [hcancel, neg_mul, pow_two]
    have hentry := (sum_eq_zero_iff_of_nonneg fun i _ => sq_nonneg _).1 hsquare (r + l)
      (mem_range.2 hlt)
    rwa [sum_stackedIdentity_mul_add d w hl, sq_eq_zero_iff] at hentry

/-- If the two parts cancel, the one in the range space vanishes. -/
theorem range_part_eq_zero (hn : r + c = n)
    (h : ∀ i, i < n → ∑ j ∈ range r, rangeEntries kind r d i j * p j +
      ∑ l ∈ range c, stackedIdentity r d i l * w l = 0) {j : ℕ} (hj : j < r) : p j = 0 := by
  have hnull : ∀ l ∈ range c, stackedIdentity r d j l * w l = 0 := by
    intro l hl
    rw [null_part_eq_zero hn h (mem_range.1 hl), mul_zero]
  have hrow := h j (by omega)
  rwa [sum_eq_zero hnull, add_zero, sum_rangeEntries_mul kind d p hj] at hrow

/-- The matrix `[Y Z]` of either kind, for a matrix `D` with `r` rows. -/
def spanEntries (kind : RangeBasis) (r : ℕ) (d : ℕ → ℕ → K) (i j : ℕ) : K :=
  if j < r then rangeEntries kind r d i j else stackedIdentity r d i (j - r)

/-- A product with `[Y Z]` is the sum of a product with `Y` and one with `Z`. -/
theorem sum_spanEntries_mul (kind : RangeBasis) (hn : r + c = n) (d : ℕ → ℕ → K) (x : ℕ → K)
    (i : ℕ) : ∑ j ∈ range n, spanEntries kind r d i j * x j =
      ∑ j ∈ range r, rangeEntries kind r d i j * x j +
        ∑ l ∈ range c, stackedIdentity r d i l * x (r + l) := by
  have hbelow : ∀ k, ¬r + k < r := fun k => by omega
  subst hn
  rw [sum_range_add]
  unfold spanEntries
  congr 1
  · refine sum_congr rfl fun j hj => ?_
    rw [if_pos (mem_range.1 hj)]
  · simp only [hbelow, if_false, Nat.add_sub_cancel_left]

/-- The matrix `[Y Z]` is nonsingular, whatever `D` is. -/
theorem isUnit_spanEntries (kind : RangeBasis) (hn : r + c = n) (d : ℕ → ℕ → K) :
    IsUnit (block n n (spanEntries kind r d)) := by
  refine isUnit_of_trivial_kernel fun x hx j hj => ?_
  have hparts : ∀ i, i < n → ∑ j ∈ range r, rangeEntries kind r d i j * x j +
      ∑ l ∈ range c, stackedIdentity r d i l * x (r + l) = 0 := by
    intro i hi
    rw [← sum_spanEntries_mul kind hn]
    exact hx i hi
  by_cases hr : j < r
  · exact range_part_eq_zero (w := fun l => x (r + l)) hn hparts hr
  · have hw : x (r + (j - r)) = 0 :=
      null_part_eq_zero (w := fun l => x (r + l)) hn hparts (by omega)
    rwa [Nat.add_sub_of_le (by omega)] at hw

end Columns

namespace Decomposition

variable {S N : Type} [Factorization S N K] {dec : Decomposition K S N} {gc : SparseMatrix K}
  {settings : Settings K} {d : ℕ → ℕ → K}

/-- The two parts of a vector that is to be multiplied with `[Y Z]`. -/
structure Splits (dec : Decomposition K S N) (p : Array K × Array K) : Prop where
  size_range : p.1.size = dec.rank
  size_null : p.2.size = dec.partition.n - dec.rank

theorem HasSensitivity.combined_eq (hd : dec.HasSensitivity gc d) {p : Array K × Array K}
    (hp : dec.Splits p) : dec.combined p.1 p.2 =
      .ok (product dec.partition.n dec.partition.n (spanEntries dec.kind dec.rank d)
        (p.1 ++ p.2)) := by
  rw [combined]
  rw [hd.y_represents.apply_eq p.1 hp.size_range, hd.z_represents.apply_eq p.2 hp.size_null]
  refine congrArg Except.ok (ext_getD (by simp) fun i hi => ?_)
  rw [Vec.size_add, size_product] at hi
  rw [Vec.getD_add (by simp), size_product, if_pos hi, getD_product hi, getD_product hi,
    getD_product hi, sum_spanEntries_mul dec.kind dec.rank_add_sub]
  congr 1
  · refine sum_congr rfl fun j hj => ?_
    rw [getD_append, if_pos (hp.size_range ▸ mem_range.1 hj)]
  · refine sum_congr rfl fun l _ => ?_
    rw [getD_append, hp.size_range, if_neg (by omega), Nat.add_sub_cancel_left]

/-- Every vector is the sum of the two parts in exactly one way. -/
theorem HasSensitivity.existsUnique_combined (hd : dec.HasSensitivity gc d) {v : Array K}
    (hv : v.size = dec.partition.n) :
    ∃! p, dec.Splits p ∧ dec.combined p.1 p.2 = .ok v := by
  obtain ⟨x, ⟨hx, hproduct⟩, hunique⟩ := existsUnique_product_eq
    (isUnit_spanEntries dec.kind dec.rank_add_sub d) hv
  have hle : dec.rank ≤ x.size := hx ▸ dec.partition.rank_le_n
  have hsplit : Vec.take x dec.rank ++ Vec.drop x dec.rank = x := by
    rw [Vec.take, Vec.drop]
    simp [hle]
  have hp : dec.Splits (Vec.take x dec.rank, Vec.drop x dec.rank) :=
    ⟨by simp [hle], by simp [hx]⟩
  refine ⟨_, ⟨hp, ?_⟩, ?_⟩
  · rw [hd.combined_eq hp, hsplit, hproduct]
  · rintro p ⟨hp', hcombined⟩
    rw [hd.combined_eq hp'] at hcombined
    have happend := hunique (p.1 ++ p.2)
      ⟨by rw [Array.size_append, hp'.size_range, hp'.size_null, dec.rank_add_sub],
        Except.ok.inj hcombined⟩
    refine Prod.ext ?_ ?_
    · rw [← happend, Vec.take, ← hp'.size_range]
      simp
    · rw [← happend, Vec.drop, ← hp'.size_range]
      simp

/-- A vector is in the null space of the decomposed gradients exactly if it is a product with `Z`,
and then it is one in exactly one way. -/
theorem HasSensitivity.null_iff_existsUnique (hd : dec.HasSensitivity gc d)
    (h : dec.Derived gc settings) {v : Array K} (hv : v.size = dec.partition.n) :
    dec.gradientProduct gc v = .ok (Vec.zero dec.rank) ↔
      ∃! pz : Array K, pz.size = dec.partition.n - dec.rank ∧ dec.z.apply pz = .ok v := by
  rw [h.gradientProduct_eq hv]
  constructor
  · intro hzero
    have hnull : ∀ i, i < dec.rank →
        ∑ k ∈ range dec.partition.n, dec.partition.reordered gc k i * v.getD k 0 = 0 := by
      intro i hi
      have hentry := congrArg (fun w : Array K => w.getD i 0) (Except.ok.inj hzero)
      rwa [getD_product hi, Vec.getD_zero] at hentry
    refine ⟨Vec.drop v dec.rank, ⟨by simp [hv], ?_⟩, ?_⟩
    · rw [hd.z_represents.apply_eq _ (by simp [hv])]
      refine congrArg Except.ok (ext_getD (by simp [hv]) fun k hk => ?_)
      rw [size_product] at hk
      rw [getD_product hk, hd.eq_of_null (u := fun k => v.getD k 0) h hnull hk]
      exact sum_congr rfl fun l _ => by rw [getD_drop]
    · rintro pz ⟨hpz, happly⟩
      rw [hd.z_represents.apply_eq pz hpz] at happly
      obtain rfl := Except.ok.inj happly
      refine ext_getD (by simp [hpz]) fun l hl => ?_
      rw [hpz] at hl
      rw [getD_drop, getD_product (by omega), sum_stackedIdentity_mul_add d _ hl]
  · rintro ⟨pz, ⟨hpz, happly⟩, -⟩
    rw [hd.z_represents.apply_eq pz hpz] at happly
    obtain rfl := Except.ok.inj happly
    rw [product_product]
    refine congrArg Except.ok (ext_getD (by simp) fun i hi => ?_)
    rw [size_product] at hi
    rw [getD_product hi, Vec.getD_zero]
    refine sum_eq_zero fun l hl => ?_
    rw [hd.sum_mul_nullSpace hi (mem_range.1 hl), zero_mul]

end Decomposition

end ReducedSpace
