import ReducedSpace.Proofs.Exact.Elimination
import ReducedSpace.Proofs.Exact.Product

/-!
# Inverses

A solve that succeeds for every right-hand side proves its matrix nonsingular, so its solutions are
the only ones and it is a product with the inverse matrix. From here on solves are handled as
products like all others.
-/

namespace ReducedSpace

open Finset Elimination

variable {K : Type} [ExactScalar K]

/-- A product of blocks is the block of the sums of products. -/
theorem block_mul (l m n : ℕ) (a b : ℕ → ℕ → K) :
    block l m a * block m n b = block l n fun i j => ∑ k ∈ range m, a i k * b k j := by
  ext i j
  simp only [Matrix.mul_apply, block, Matrix.of_apply]
  exact Fin.sum_univ_eq_sum_range (fun k => a i k * b k j) m

theorem block_add (m n : ℕ) (a b : ℕ → ℕ → K) :
    block m n a + block m n b = block m n fun i j => a i j + b i j := rfl

omit [ExactScalar K] in
/-- Blocks are equal if their entries are. -/
theorem block_congr {m n : ℕ} {a b : ℕ → ℕ → K} (h : ∀ i j, i < m → j < n → a i j = b i j) :
    block m n a = block m n b := by
  ext i j
  exact h i j i.isLt j.isLt

theorem block_eq_zero {m n : ℕ} {a : ℕ → ℕ → K} (h : ∀ i j, i < m → j < n → a i j = 0) :
    block m n a = 0 := by
  ext i j
  exact h i j i.isLt j.isLt

/-- The entries of a matrix, zero outside. -/
def entriesOf {m n : ℕ} (a : Matrix (Fin m) (Fin n) K) (i j : ℕ) : K :=
  if h : i < m ∧ j < n then a ⟨i, h.1⟩ ⟨j, h.2⟩ else 0

@[simp] theorem block_entriesOf {m n : ℕ} (a : Matrix (Fin m) (Fin n) K) :
    block m n (entriesOf a) = a := by
  ext i j
  unfold block entriesOf
  rw [Matrix.of_apply, dif_pos ⟨i.isLt, j.isLt⟩]

theorem entriesOf_block {m n : ℕ} (a : ℕ → ℕ → K) {i j : ℕ} (hi : i < m) (hj : j < n) :
    entriesOf (block m n a) i j = a i j := by
  unfold entriesOf
  rw [dif_pos ⟨hi, hj⟩]
  rfl

/-- Two matrices are inverse to each other on their leading blocks. -/
structure InversePair (r : ℕ) (a b : ℕ → ℕ → K) : Prop where
  mul_eq : ∀ i j, i < r → j < r → ∑ k ∈ range r, a i k * b k j = if i = j then 1 else 0
  mul_eq' : ∀ i j, i < r → j < r → ∑ k ∈ range r, b i k * a k j = if i = j then 1 else 0

/-- Inverses are inverse to each other. -/
theorem InversePair.symm {r : ℕ} {a b : ℕ → ℕ → K} (h : InversePair r a b) :
    InversePair r b a := ⟨h.mul_eq', h.mul_eq⟩

/-- Transposed matrices are inverse to each other, too. -/
theorem InversePair.entries {r : ℕ} {a b : ℕ → ℕ → K} (h : InversePair r a b) (o : Orientation) :
    InversePair r (o.entries a) (o.entries b) := by
  cases o with
  | plain => exact h
  | transposed =>
    refine ⟨fun i j hi hj => ?_, fun i j hi hj => ?_⟩
    · refine (sum_congr rfl fun k _ => mul_comm (a k i) (b j k)).trans ?_
      rw [h.mul_eq' j i hj hi]
      simp only [eq_comm]
    · refine (sum_congr rfl fun k _ => mul_comm (b k i) (a j k)).trans ?_
      rw [h.mul_eq j i hj hi]
      simp only [eq_comm]

/-- Multiplying with one matrix of a pair and then with the other one changes nothing. -/
theorem InversePair.product_product {r : ℕ} {a b : ℕ → ℕ → K} (h : InversePair r a b)
    {x : Array K} (hx : x.size = r) : product r r a (product r r b x) = x := by
  rw [ReducedSpace.product_product]
  refine ext_getD (by simp [hx]) fun i hi => ?_
  rw [size_product] at hi
  rw [getD_product hi, sum_congr rfl fun j hj => by rw [h.mul_eq i j hi (mem_range.1 hj)]]
  simp [hi]

section Nonsingular

variable {solve : Orientation → Array K → Checked (Array K)} {r : ℕ} {a : ℕ → ℕ → K}

/-- A matrix with a solution for every right-hand side is nonsingular. -/
theorem Inverts.isUnit (h : Inverts solve r a) : IsUnit (block r r a) := by
  rw [← Matrix.mulVec_surjective_iff_isUnit]
  intro y
  obtain ⟨x, -, hsize, hproduct⟩ := h .plain (Array.ofFn y) (by simp)
  refine ⟨fun j => x.getD j 0, ?_⟩
  funext i
  have hi := congrArg (fun z : Array K => z.getD i 0) hproduct
  rw [getD_product i.isLt] at hi
  have hy : (Array.ofFn y).getD i 0 = y i := by simp
  rw [hy] at hi
  rw [← hi]
  exact Fin.sum_univ_eq_sum_range (fun j => a i j * x.getD j 0) r

/-- A nonsingular matrix has an inverse matrix. -/
theorem exists_inversePair (h : IsUnit (block r r a)) : ∃ b, InversePair r a b := by
  have hunit := (Matrix.isUnit_iff_isUnit_det _).1 h
  let b := entriesOf (block r r a)⁻¹
  have hb : block r r b = (block r r a)⁻¹ := block_entriesOf _
  have hdelta : ∀ {c d : ℕ → ℕ → K}, block r r c * block r r d = 1 → ∀ i j, i < r → j < r →
      ∑ k ∈ range r, c i k * d k j = if i = j then 1 else 0 := by
    intro c d hcd i j hi hj
    rw [block_mul] at hcd
    have hij := congrFun (congrFun hcd ⟨i, hi⟩) ⟨j, hj⟩
    rw [Matrix.one_apply] at hij
    simpa [block] using hij
  exact ⟨b, hdelta (by rw [hb, Matrix.mul_nonsing_inv _ hunit]),
    hdelta (by rw [hb, Matrix.nonsing_inv_mul _ hunit])⟩

/-- The solves are the products with the inverse matrix. -/
theorem Inverts.exists_inverse (h : Inverts solve r a) :
    ∃ b, InversePair r a b ∧
      ∀ (o : Orientation) (y : Array K), y.size = r →
        solve o y = .ok (product r r (o.entries b) y) := by
  obtain ⟨b, hpair⟩ := exists_inversePair h.isUnit
  refine ⟨b, hpair, fun o y hy => ?_⟩
  obtain ⟨x, hx, hsize, rfl⟩ := h o y hy
  rw [hx, (hpair.entries o).symm.product_product hsize]

/-- A square matrix that takes no vector but zero to zero is nonsingular. -/
theorem isUnit_of_trivial_kernel (h : ∀ x : ℕ → K,
    (∀ i, i < r → ∑ j ∈ range r, a i j * x j = 0) → ∀ j, j < r → x j = 0) :
    IsUnit (block r r a) := by
  rw [← Matrix.mulVec_injective_iff_isUnit]
  refine (injective_iff_map_eq_zero (Matrix.mulVecLin (block r r a))).2 fun v hv => ?_
  let x : ℕ → K := fun j => if hj : j < r then v ⟨j, hj⟩ else 0
  have hx : ∀ j : Fin r, x j = v j := fun j => dif_pos j.isLt
  have hzero : ∀ i, i < r → ∑ j ∈ range r, a i j * x j = 0 := by
    intro i hi
    have hrow : ∑ j : Fin r, a i j * v j = 0 := congrFun hv ⟨i, hi⟩
    rw [← Fin.sum_univ_eq_sum_range (fun j => a i j * x j) r, ← hrow]
    exact Fintype.sum_congr _ _ fun j => by rw [hx j]
  funext j
  rw [← hx j]
  exact h x hzero j j.isLt

/-- A product with a nonsingular matrix takes every value for exactly one vector. -/
theorem existsUnique_product_eq (h : IsUnit (block r r a)) {v : Array K} (hv : v.size = r) :
    ∃! x : Array K, x.size = r ∧ product r r a x = v := by
  obtain ⟨b, hpair⟩ := exists_inversePair h
  refine ⟨product r r b v, ⟨size_product _ _ _ _, hpair.product_product hv⟩, ?_⟩
  rintro y ⟨hy, rfl⟩
  exact (hpair.symm.product_product hy).symm

/-- In either orientation a right-hand side has exactly one solution, and the solve returns it. -/
def UniquelyInverts (solve : Orientation → Array K → Checked (Array K)) (r : ℕ)
    (a : ℕ → ℕ → K) : Prop :=
  ∀ (o : Orientation) (b : Array K), b.size = r → ∃ x, solve o b = .ok x ∧ x.size = r ∧
    ∀ y : Array K, y.size = r → (product r r (o.entries a) y = b ↔ y = x)

/-- Solves that always succeed leave no room for a second solution. -/
theorem Inverts.unique (h : Inverts solve r a) : UniquelyInverts solve r a := by
  intro o b hb
  obtain ⟨c, hpair, -⟩ := h.exists_inverse
  obtain ⟨x, hx, hsize, rfl⟩ := h o b hb
  have hcancel {y : Array K} (hy : y.size = r) :
      product r r (o.entries c) (product r r (o.entries a) y) = y :=
    (hpair.entries o).symm.product_product hy
  refine ⟨x, hx, hsize, fun y hy => ⟨fun heq => ?_, fun hyx => hyx ▸ rfl⟩⟩
  calc y = product r r (o.entries c) (product r r (o.entries a) y) := (hcancel hy).symm
    _ = product r r (o.entries c) (product r r (o.entries a) x) := by rw [heq]
    _ = x := hcancel hsize

/-- Two operations undo each other on the vectors of a length. -/
def MutuallyInverse (n : ℕ) (f g : Array K → Checked (Array K)) : Prop :=
  ∀ b : Array K, b.size = n → (f b >>= g) = .ok b ∧ (g b >>= f) = .ok b

/-- Solves and products with the same matrix undo each other. -/
theorem Inverts.mutuallyInverse (h : Inverts solve r a) (o : Orientation)
    {apply : Array K → Checked (Array K)}
    (happly : ∀ x : Array K, x.size = r → apply x = .ok (product r r (o.entries a) x)) :
    MutuallyInverse r (solve o) apply := by
  intro b hb
  refine ⟨?_, ?_⟩
  · obtain ⟨x, hx, hsize, hproduct⟩ := h o b hb
    rw [hx]
    show apply x = .ok b
    rw [happly x hsize, hproduct]
  · obtain ⟨x, hx, -, hunique⟩ := h.unique o _ (size_product r r (o.entries a) b)
    rw [happly b hb]
    show solve o (product r r (o.entries a) b) = .ok b
    rw [hx, (hunique b hb).1 rfl]

/-- Solves with a product of two matrices. The transposed factors come in the opposite order. -/
def solveProduct (s t : Orientation → Array K → Checked (Array K)) :
    Orientation → Array K → Checked (Array K)
  | .plain => fun b => s .plain b >>= t .plain
  | .transposed => fun b => t .transposed b >>= s .transposed

/-- Solves with both factors, one after the other, are solves with the product. -/
theorem Inverts.mul {s t : Orientation → Array K → Checked (Array K)} {a b : ℕ → ℕ → K}
    (hs : Inverts s r a) (ht : Inverts t r b) :
    Inverts (solveProduct s t) r fun i j => ∑ k ∈ range r, a i k * b k j := by
  intro o v hv
  cases o with
  | plain =>
    obtain ⟨y, hy, hysize, rfl⟩ := hs .plain v hv
    obtain ⟨x, hx, hxsize, rfl⟩ := ht .plain y hysize
    refine ⟨x, ?_, hxsize, (product_product _ _ _ _ _ _).symm⟩
    show (s .plain _ >>= t .plain) = .ok x
    rw [hy]
    exact hx
  | transposed =>
    obtain ⟨y, hy, hysize, rfl⟩ := ht .transposed v hv
    obtain ⟨x, hx, hxsize, rfl⟩ := hs .transposed y hysize
    refine ⟨x, ?_, hxsize, ?_⟩
    · show (t .transposed _ >>= s .transposed) = .ok x
      rw [hy]
      exact hx
    · rw [product_product]
      refine product_congr (fun i j _ _ => sum_congr rfl fun k _ => ?_) fun _ _ => rfl
      exact mul_comm _ _

/-- A nonsingular matrix has a nonsingular transpose. -/
theorem isUnit_block_transpose (h : IsUnit (block r r a)) :
    IsUnit (block r r fun i j => a j i) := by
  have htranspose : (block r r fun i j => a j i) = (block r r a).transpose := rfl
  rw [htranspose, Matrix.isUnit_transpose]
  exact h

end Nonsingular

end ReducedSpace
