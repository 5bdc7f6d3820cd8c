import Mathlib
import ReducedSpace.Proofs.Decomposition.RangeStep

/-!
# The shortest step

For the orthogonal kind `Yᵀ Z = 0`. All steps that cancel a residual differ from the range-space
step `Y py` by vectors `Z w`, which are orthogonal to it, so each of them is longer. What is shortest
depends on the decomposed equations alone, and so does the step, whatever the basis.
-/

namespace ReducedSpace

open Finset

variable {K : Type} [ExactScalar K]

section Norm

/-- The sum of the squared entries, which is the square of the Euclidean norm. -/
def normSq (s : Array K) : K := ∑ i ∈ range s.size, s.getD i 0 ^ 2

/-- A member of a set of vectors whose Euclidean norm is less than that of every other member. The
norms are compared by their squares. -/
def IsShortest (P : Array K → Prop) (s : Array K) : Prop :=
  P s ∧ ∀ t, P t → t ≠ s → normSq s < normSq t

/-- At most one member is shortest. -/
theorem IsShortest.eq {P Q : Array K → Prop} {s t : Array K} (hs : IsShortest P s)
    (ht : IsShortest Q t) (hPQ : ∀ v, P v ↔ Q v) : s = t := by
  by_contra hne
  have hlt := hs.2 t ((hPQ t).2 ht.1) (Ne.symm hne)
  have hgt := ht.2 s ((hPQ s).1 hs.1) hne
  exact lt_asymm hlt hgt

/-- Adding an orthogonal vector makes a vector longer. -/
theorem normSq_lt_of_orthogonal {s t : Array K} (hsize : t.size = s.size)
    (horthogonal : ∑ i ∈ range s.size, s.getD i 0 * (t.getD i 0 - s.getD i 0) = 0) (hne : t ≠ s) :
    normSq s < normSq t := by
  have hexpand : normSq t = normSq s + ∑ i ∈ range s.size, (t.getD i 0 - s.getD i 0) ^ 2 := by
    have hterm : ∀ i ∈ range s.size, t.getD i 0 ^ 2 = s.getD i 0 ^ 2 +
        2 * (s.getD i 0 * (t.getD i 0 - s.getD i 0)) + (t.getD i 0 - s.getD i 0) ^ 2 := by
      intro i _
      ring
    unfold normSq
    rw [hsize, sum_congr rfl hterm, sum_add_distrib, sum_add_distrib, ← mul_sum, horthogonal,
      mul_zero, add_zero]
  have hdiffers : ∃ i ∈ range s.size, t.getD i 0 - s.getD i 0 ≠ 0 := by
    by_contra hall
    push Not at hall
    refine hne (ext_getD hsize fun i hi => sub_eq_zero.1 (hall i ?_))
    rw [hsize] at hi
    exact mem_range.2 hi
  obtain ⟨i, hi, hi0⟩ := hdiffers
  rw [hexpand]
  exact lt_add_of_pos_right _ (sum_pos' (fun j _ => sq_nonneg _) ⟨i, hi, by positivity⟩)

/-- Combinations of columns that are orthogonal to each other are orthogonal. -/
theorem sum_mul_combinations_eq_zero {n r c : ℕ} {a b : ℕ → ℕ → K}
    (h : ∀ j l, j < r → l < c → ∑ k ∈ range n, a k j * b k l = 0) (p w : ℕ → K) :
    ∑ k ∈ range n, (∑ j ∈ range r, a k j * p j) * ∑ l ∈ range c, b k l * w l = 0 := by
  have hterm : ∀ k ∈ range n, (∑ j ∈ range r, a k j * p j) * ∑ l ∈ range c, b k l * w l =
      ∑ j ∈ range r, ∑ l ∈ range c, a k j * b k l * (p j * w l) := by
    intro k _
    rw [sum_mul_sum]
    exact sum_congr rfl fun j _ => sum_congr rfl fun l _ => mul_mul_mul_comm _ _ _ _
  rw [sum_congr rfl hterm, sum_comm]
  refine sum_eq_zero fun j hj => ?_
  rw [sum_comm]
  refine sum_eq_zero fun l hl => ?_
  rw [← sum_mul, h j l (mem_range.1 hj) (mem_range.1 hl), zero_mul]

end Norm

namespace Decomposition

variable {S N : Type} [Factorization S N K] {dec : Decomposition K S N} {gc : SparseMatrix K}
  {settings : Settings K} {d : ℕ → ℕ → K} {c s t py : Array K}

/-- The operator `Yᵀ Z` is zero. -/
theorem Derived.y_orthogonal_z (h : dec.Derived gc settings) (hkind : dec.kind = .orthogonal)
    {x : Array K} (hx : x.size = dec.partition.n - dec.rank) :
    (dec.z.apply x >>= dec.y.applyTranspose) = .ok (Vec.zero dec.rank) := by
  obtain ⟨d, hd⟩ := h.exists_sensitivity
  rw [hd.z_represents.apply_eq x hx]
  refine (hd.y_represents.applyTranspose_eq _ (size_product _ _ _ _)).trans ?_
  rw [product_product, hkind]
  refine congrArg Except.ok (ext_getD (by simp) fun j hj => ?_)
  rw [size_product] at hj
  rw [getD_product hj, Vec.getD_zero]
  refine sum_eq_zero fun l hl => mul_eq_zero_of_left ?_ _
  exact sum_identityStacked_mul_stackedIdentity d dec.rank_add_sub hj (mem_range.1 hl)

/-- The range-space step is orthogonal to its difference from every step that cancels the same
residual. -/
theorem HasSensitivity.rangeStep_orthogonal (hd : dec.HasSensitivity gc d)
    (h : dec.Derived gc settings) (hkind : dec.kind = .orthogonal)
    (hs : dec.partition.Cancels gc c (dec.rangeStep d py)) (ht : dec.partition.Cancels gc c t) :
    ∑ v ∈ range dec.partition.n,
      (dec.rangeStep d py).getD v 0 * (t.getD v 0 - (dec.rangeStep d py).getD v 0) = 0 := by
  have hterm : ∀ k ∈ range dec.partition.n,
      (dec.rangeStep d py).getD (dec.partition.varPerm.old k) 0 *
          (t.getD (dec.partition.varPerm.old k) 0 -
            (dec.rangeStep d py).getD (dec.partition.varPerm.old k) 0) =
        (∑ j ∈ range dec.rank, identityStacked dec.rank d k j * py.getD j 0) *
          ∑ l ∈ range (dec.partition.n - dec.rank), stackedIdentity dec.rank d k l *
            (t.getD (dec.partition.varPerm.old (dec.rank + l)) 0 -
              (dec.rangeStep d py).getD (dec.partition.varPerm.old (dec.rank + l)) 0) := by
    intro k hk
    have hk := mem_range.1 hk
    rw [← hd.sub_eq_of_cancels h hs ht hk, getD_rangeStep_old dec d py hk, hkind]
    rfl
  refine (sum_old dec.partition.varPerm fun v => (dec.rangeStep d py).getD v 0 *
    (t.getD v 0 - (dec.rangeStep d py).getD v 0)).symm.trans ?_
  refine (sum_congr rfl hterm).trans (sum_mul_combinations_eq_zero (fun j l hj hl => ?_) _ _)
  exact sum_identityStacked_mul_stackedIdentity d dec.rank_add_sub hj hl

/-- The range-space step is the shortest one that cancels the residual. -/
theorem HasSensitivity.rangeStep_shortest (hd : dec.HasSensitivity gc d)
    (h : dec.Derived gc settings) (hkind : dec.kind = .orthogonal)
    (hs : dec.partition.Cancels gc c (dec.rangeStep d py)) :
    IsShortest (dec.partition.Cancels gc c) (dec.rangeStep d py) := by
  refine ⟨hs, fun t ht hne => normSq_lt_of_orthogonal ?_ ?_ hne⟩
  · rw [ht.size_eq, hs.size_eq]
  · rw [hs.size_eq]
    exact hd.rangeStep_orthogonal h hkind hs ht

/-- The step for every residual of the right length is the shortest one that cancels it. -/
theorem Derived.exists_shortest_step (h : dec.Derived gc settings) (hexact : dec.GramExact)
    (hkind : dec.kind = .orthogonal) (hc : c.size = dec.partition.m) :
    ∃ s, dec.step c = .ok s ∧ IsShortest (dec.partition.Cancels gc c) s := by
  obtain ⟨d, hd⟩ := h.exists_sensitivity
  obtain ⟨py, hpy, -, hstep, hcancels⟩ := hd.exists_rangeStep h hexact hc
  refine ⟨dec.rangeStep d py, ?_, hd.rangeStep_shortest h hkind hcancels⟩
  rw [step]
  rw [hpy]
  exact hstep

section Bases

variable {S₁ N₁ S₂ N₂ : Type} [Factorization S₁ N₁ K] [Factorization S₂ N₂ K]
  {dec₁ : Decomposition K S₁ N₁} {dec₂ : Decomposition K S₂ N₂}
  {settings₁ settings₂ : Settings K}

omit [Factorization S₁ N₁ K] [Factorization S₂ N₂ K] in
/-- If all equations are decomposed, what cancels a residual does not depend on the basis. -/
theorem cancels_iff_of_rank_eq (hn : dec₁.partition.n = dec₂.partition.n)
    (hm : dec₁.partition.m = dec₂.partition.m) (h₁ : dec₁.rank = dec₁.partition.m)
    (h₂ : dec₂.rank = dec₂.partition.m) (c s : Array K) :
    dec₁.partition.Cancels gc c s ↔ dec₂.partition.Cancels gc c s := by
  have hmem : ∀ j, j ∈ dec₁.partition.decompEqus ↔ j ∈ dec₂.partition.decompEqus := by
    intro j
    rw [Partition.mem_decompEqus_iff, Partition.mem_decompEqus_iff]
    have hlt₁ : dec₁.partition.equPerm.new j < dec₁.partition.m ↔ j < dec₁.partition.m :=
      dec₁.partition.equPerm.new_lt_iff
    have hlt₂ : dec₂.partition.equPerm.new j < dec₂.partition.m ↔ j < dec₂.partition.m :=
      dec₂.partition.equPerm.new_lt_iff
    rw [show dec₁.partition.rank = dec₁.partition.m from h₁,
      show dec₂.partition.rank = dec₂.partition.m from h₂, hlt₁, hlt₂, hm]
  constructor
  · rintro ⟨hsize, hsum⟩
    exact ⟨hsize.trans hn, fun j hj => hsum j ((hmem j).2 hj)⟩
  · rintro ⟨hsize, hsum⟩
    exact ⟨hsize.trans hn.symm, fun j hj => hsum j ((hmem j).1 hj)⟩

/-- If all equations are decomposed, the step of the orthogonal kind does not depend on the
basis. -/
theorem Derived.step_eq_of_orthogonal (h₁ : dec₁.Derived gc settings₁)
    (h₂ : dec₂.Derived gc settings₂) (hexact₁ : dec₁.GramExact) (hexact₂ : dec₂.GramExact)
    (hkind₁ : dec₁.kind = .orthogonal) (hkind₂ : dec₂.kind = .orthogonal)
    (hrank₁ : dec₁.rank = dec₁.partition.m) (hrank₂ : dec₂.rank = dec₂.partition.m)
    (c : Array K) : dec₁.step c = dec₂.step c := by
  have hn : dec₁.partition.n = dec₂.partition.n := h₁.rows_eq.symm.trans h₂.rows_eq
  have hm : dec₁.partition.m = dec₂.partition.m := h₁.cols_eq.symm.trans h₂.cols_eq
  by_cases hc : c.size = dec₁.partition.m
  · obtain ⟨s₁, hs₁, hshortest₁⟩ := h₁.exists_shortest_step hexact₁ hkind₁ hc
    obtain ⟨s₂, hs₂, hshortest₂⟩ := h₂.exists_shortest_step hexact₂ hkind₂ (hc.trans hm)
    rw [hs₁, hs₂, hshortest₁.eq hshortest₂ (cancels_iff_of_rank_eq hn hm hrank₁ hrank₂ c)]
  · rw [step_eq_error dec₁ hc, step_eq_error dec₂ (hm ▸ hc), hm]

end Bases

end Decomposition

end ReducedSpace
