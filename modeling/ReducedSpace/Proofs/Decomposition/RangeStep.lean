import Mathlib
import ReducedSpace.Proofs.Decomposition.RangeSolves
import ReducedSpace.Proofs.Decomposition.SelfTest

/-!
# Steps that cancel a residual

To first order, a step `s` of the variables changes a constraint residual `c` by `Gcᵀ s`. The
quasi-normal step solves with `R = Gc(:, decomposed)ᵀ Y`, so `Y py` cancels the decomposed entries
of `c`. Two steps that do so differ by a vector in the null space of the decomposed gradients, which
is `Z` times its independent entries; a step is therefore determined by these.
-/

namespace ReducedSpace

open Finset Elimination

variable {K : Type} [ExactScalar K]

namespace Partition

variable {p : Partition} {gc : SparseMatrix K} {c s : Array K}

/-- A step cancels the decomposed entries of a residual to first order: `(Gcᵀ s)ⱼ = -cⱼ`. Both
vectors are in the caller's order. -/
structure Cancels (p : Partition) (gc : SparseMatrix K) (c s : Array K) : Prop where
  size_eq : s.size = p.n
  sum_eq : ∀ j ∈ p.decompEqus, ∑ i ∈ range gc.rows, gc.entry i j * s.getD i 0 = -c.getD j 0

/-- The product with the gradients, in the order of the partition. -/
theorem sum_reordered (hrows : gc.rows = p.n) (s : Array K) (i : ℕ) :
    ∑ k ∈ range p.n, p.reordered gc k i * s.getD (p.varPerm.old k) 0 =
      ∑ v ∈ range gc.rows, gc.entry v (p.equPerm.old i) * s.getD v 0 := by
  rw [hrows]
  exact sum_old p.varPerm fun v => gc.entry v (p.equPerm.old i) * s.getD v 0

/-- A step cancels the decomposed residuals if it does so in the order of the partition. -/
theorem cancels_iff (hrows : gc.rows = p.n) :
    p.Cancels gc c s ↔ s.size = p.n ∧ ∀ i, i < p.rank →
      ∑ k ∈ range p.n, p.reordered gc k i * s.getD (p.varPerm.old k) 0 =
        -c.getD (p.equPerm.old i) 0 := by
  constructor
  · intro h
    refine ⟨h.size_eq, fun i hi => (sum_reordered hrows s i).trans (h.sum_eq _ ?_)⟩
    rw [mem_decompEqus_iff, Permutation.new_old]
    exact hi
  · rintro ⟨hsize, hsum⟩
    refine ⟨hsize, fun j hj => ?_⟩
    have hj := hsum _ (p.mem_decompEqus_iff.1 hj)
    rwa [sum_reordered hrows, Permutation.old_new] at hj

end Partition

namespace Decomposition

variable {S N : Type} [Factorization S N K] {dec : Decomposition K S N} {gc : SparseMatrix K}
  {settings : Settings K} {d : ℕ → ℕ → K} {c s t py : Array K}

section NullSpace

/-- A vector in the null space of the decomposed gradients is the product of `Z` with its
independent entries. -/
theorem HasSensitivity.eq_of_null (hd : dec.HasSensitivity gc d) (h : dec.Derived gc settings)
    {u : ℕ → K} (hu : ∀ i, i < dec.rank →
      ∑ k ∈ range dec.partition.n, dec.partition.reordered gc k i * u k = 0)
    {k : ℕ} (hk : k < dec.partition.n) :
    u k = ∑ l ∈ range (dec.partition.n - dec.rank),
      stackedIdentity dec.rank d k l * u (dec.rank + l) := by
  rw [sum_stackedIdentity_mul d _ (dec.rank_add_sub.symm ▸ hk)]
  split
  · rename_i hdep
    obtain ⟨inverse, hpair, -⟩ := h.inverts.exists_inverse
    have hsystem : ∀ i, i < dec.rank →
        ∑ k ∈ range dec.rank, dec.partition.reordered gc k i * u k =
          ∑ k ∈ range dec.rank, dec.partition.reordered gc k i *
            ∑ l ∈ range (dec.partition.n - dec.rank), d k l * u (dec.rank + l) := by
      intro i hi
      have hsplit := hu i hi
      rw [← dec.rank_add_sub, sum_range_add] at hsplit
      have hformed : ∑ k ∈ range dec.rank, dec.partition.reordered gc k i *
          ∑ l ∈ range (dec.partition.n - dec.rank), d k l * u (dec.rank + l) =
            -∑ l ∈ range (dec.partition.n - dec.rank),
              dec.partition.reordered gc (dec.rank + l) i * u (dec.rank + l) := by
        simp only [mul_sum]
        rw [sum_comm, ← sum_neg_distrib]
        refine sum_congr rfl fun l hl => ?_
        rw [← neg_mul, ← hd.c_mul_d i l hi (mem_range.1 hl), sum_mul]
        exact sum_congr rfl fun k _ => (mul_assoc _ _ _).symm
      rw [hformed]
      exact eq_neg_of_add_eq_zero_left hsplit
    exact hpair.eq_of_sum_eq hsystem hdep
  · rw [Nat.add_sub_of_le (by omega)]

/-- Two steps that cancel the same residual differ by `Z` times a vector. -/
theorem HasSensitivity.sub_eq_of_cancels (hd : dec.HasSensitivity gc d)
    (h : dec.Derived gc settings) (hs : dec.partition.Cancels gc c s)
    (ht : dec.partition.Cancels gc c t) {k : ℕ} (hk : k < dec.partition.n) :
    t.getD (dec.partition.varPerm.old k) 0 - s.getD (dec.partition.varPerm.old k) 0 =
      ∑ l ∈ range (dec.partition.n - dec.rank), stackedIdentity dec.rank d k l *
        (t.getD (dec.partition.varPerm.old (dec.rank + l)) 0 -
          s.getD (dec.partition.varPerm.old (dec.rank + l)) 0) := by
  have hs := ((Partition.cancels_iff h.rows_eq).1 hs).2
  have ht := ((Partition.cancels_iff h.rows_eq).1 ht).2
  refine hd.eq_of_null (u := fun k => t.getD (dec.partition.varPerm.old k) 0 -
    s.getD (dec.partition.varPerm.old k) 0) h (fun i hi => ?_) hk
  simp only [mul_sub, sum_sub_distrib]
  rw [hs i hi, ht i hi, sub_self]

/-- A step that cancels a residual is determined by its independent entries. -/
theorem Derived.eq_of_cancels (h : dec.Derived gc settings) (hs : dec.partition.Cancels gc c s)
    (ht : dec.partition.Cancels gc c t)
    (hindep : ∀ i ∈ dec.partition.indepVars, t.getD i 0 = s.getD i 0) : t = s := by
  obtain ⟨d, hd⟩ := h.exists_sensitivity
  refine ext_getD (ht.size_eq.trans hs.size_eq.symm) fun i hi => ?_
  have hi : dec.partition.varPerm.new i < dec.partition.n := by
    rw [ht.size_eq] at hi
    exact dec.partition.varPerm.new_lt_iff.2 hi
  have hsub := hd.sub_eq_of_cancels h hs ht hi
  rw [Permutation.old_new] at hsub
  refine sub_eq_zero.1 (hsub.trans (sum_eq_zero fun l hl => ?_))
  have hmem : dec.partition.varPerm.old (dec.rank + l) ∈ dec.partition.indepVars := by
    rw [Partition.mem_indepVars_iff, Permutation.new_old]
    have hl := mem_range.1 hl
    exact ⟨Nat.le_add_right _ _, by omega⟩
  rw [hindep _ hmem, sub_self, mul_zero]

end NullSpace

section Step

/-- The vector `Y py` in the caller's order. -/
def rangeStep (dec : Decomposition K S N) (d : ℕ → ℕ → K) (py : Array K) : Array K :=
  dec.partition.varPerm.scatter
    (product dec.partition.n dec.rank (rangeEntries dec.kind dec.rank d) py)

omit [Factorization S N K] in
/-- A step has an entry for each variable. -/
theorem size_rangeStep (dec : Decomposition K S N) (d : ℕ → ℕ → K) (py : Array K) :
    (dec.rangeStep d py).size = dec.partition.n := Permutation.size_scatter _ _

omit [Factorization S N K] in
/-- Its entries are those of the product with `Y`, at the old positions. -/
theorem getD_rangeStep_old (dec : Decomposition K S N) (d : ℕ → ℕ → K) (py : Array K) {k : ℕ}
    (hk : k < dec.partition.n) :
    (dec.rangeStep d py).getD (dec.partition.varPerm.old k) 0 =
      ∑ j ∈ range dec.rank, rangeEntries dec.kind dec.rank d k j * py.getD j 0 := by
  rw [rangeStep]
  rw [Permutation.getD_scatter, if_pos (dec.partition.varPerm.old_lt_iff.2 hk),
    Permutation.new_old, getD_product hk]

/-- A vector solves `R py = -c` for the decomposed entries of `c`, where `R` is
`Gc(:, decomposed)ᵀ Y`. -/
structure SolvesRange (dec : Decomposition K S N) (gc : SparseMatrix K) (d : ℕ → ℕ → K)
    (c py : Array K) : Prop where
  size_eq : py.size = dec.rank
  sum_eq : ∀ i, i < dec.rank →
    ∑ j ∈ range dec.rank, (∑ k ∈ range dec.partition.n, dec.partition.reordered gc k i *
      rangeEntries dec.kind dec.rank d k j) * py.getD j 0 =
        -c.getD (dec.partition.equPerm.old i) 0

/-- The quasi-normal step exists and is such a vector. -/
theorem HasSensitivity.exists_quasiNormalStep (hd : dec.HasSensitivity gc d)
    (h : dec.Derived gc settings) (hexact : dec.GramExact) (hc : c.size = dec.partition.m) :
    ∃ py, dec.quasiNormalStep c = .ok py ∧ dec.SolvesRange gc d c py := by
  obtain ⟨b, hb, hbsize, hentry⟩ := dec.decomposedResidual_eq hc
  obtain ⟨x, hx, hsize, hproduct⟩ := hd.rInverse_inverts h hexact .plain b hbsize
  refine ⟨Vec.neg x, ?_, (Vec.size_neg x).trans hsize, fun i hi => ?_⟩
  · rw [quasiNormalStep]
    rw [hb]
    show (Attempt.ofChecked (dec.rInverse.solveIn .plain b) >>= fun py => pure (Vec.neg py)) = _
    rw [hx]
    rfl
  · rw [← hentry i hi, ← hproduct, getD_product hi, ← sum_neg_distrib]
    refine sum_congr rfl fun j _ => ?_
    rw [getD_neg, mul_neg]
    rfl

/-- Its residual vanishes. -/
theorem SolvesRange.rangeResidual_eq (hpy : dec.SolvesRange gc d c py)
    (hd : dec.HasSensitivity gc d) (h : dec.Derived gc settings)
    (hc : c.size = dec.partition.m) : dec.rangeResidual py c = .ok (Vec.zero dec.rank) := by
  obtain ⟨b, hb, hbsize, hentry⟩ := dec.decomposedResidual_eq hc
  have hcheck : dec.checkStep py = .ok () := if_pos hpy.size_eq
  rw [rangeResidual]
  rw [hb, hcheck, (hd.r_represents h).apply_eq py hpy.size_eq]
  refine congrArg Except.ok (ext_getD (by simp [hbsize]) fun i hi => ?_)
  rw [Vec.size_add, hbsize] at hi
  rw [Vec.getD_add (by rw [size_product, hbsize]), hbsize, if_pos hi, getD_product hi,
    hpy.sum_eq i hi, hentry i hi, add_neg_cancel, Vec.getD_zero]

/-- Its step cancels the residual. -/
theorem SolvesRange.cancels (hpy : dec.SolvesRange gc d c py) (h : dec.Derived gc settings) :
    dec.partition.Cancels gc c (dec.rangeStep d py) := by
  refine (Partition.cancels_iff h.rows_eq).2 ⟨dec.size_rangeStep d py, fun i hi => ?_⟩
  rw [← hpy.sum_eq i hi]
  simp only [sum_mul]
  rw [sum_comm]
  refine sum_congr rfl fun k hk => ?_
  rw [getD_rangeStep_old dec d py (mem_range.1 hk), mul_sum]
  exact sum_congr rfl fun j _ => (mul_assoc _ _ _).symm

/-- Every residual of the right length has a quasi-normal step without a residual of its own, which
makes a step that cancels the residual. -/
theorem HasSensitivity.exists_rangeStep (hd : dec.HasSensitivity gc d)
    (h : dec.Derived gc settings) (hexact : dec.GramExact) (hc : c.size = dec.partition.m) :
    ∃ py, dec.quasiNormalStep c = .ok py ∧ dec.rangeResidual py c = .ok (Vec.zero dec.rank) ∧
      dec.rangeSpaceStep py = .ok (dec.rangeStep d py) ∧
      dec.partition.Cancels gc c (dec.rangeStep d py) := by
  obtain ⟨py, hpy, hsolves⟩ := hd.exists_quasiNormalStep h hexact hc
  exact ⟨py, hpy, hsolves.rangeResidual_eq hd h hc, hd.rangeSpaceStep_eq hsolves.size_eq,
    hsolves.cancels h⟩

omit [Factorization S N K] in
/-- For the coordinate kind, a range-space vector moves no independent variable. -/
theorem rangeStep_indepVars (dec : Decomposition K S N) (d : ℕ → ℕ → K) (py : Array K)
    (hkind : dec.kind = .coordinate) {i : ℕ} (hi : i ∈ dec.partition.indepVars) :
    (dec.rangeStep d py).getD i 0 = 0 := by
  obtain ⟨hle, hlt⟩ := dec.partition.mem_indepVars_iff.1 hi
  have hentry := dec.getD_rangeStep_old d py hlt
  rw [Permutation.old_new, hkind] at hentry
  rw [hentry]
  refine sum_eq_zero fun j hj => ?_
  have hj : j < dec.partition.rank := mem_range.1 hj
  unfold rangeEntries leadingIdentity
  dsimp only
  rw [if_neg (by omega), zero_mul]

end Step

end Decomposition

end ReducedSpace
