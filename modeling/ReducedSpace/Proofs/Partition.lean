import ReducedSpace.Proofs.Permutation
import ReducedSpace.Partition

/-!
# The lists of a partition

A rank cuts the order of the variables into the dependent and the independent ones, and the order of
the equations into the decomposed and the undecomposed ones. Each pair of lists has no index in
common and together names every index. No assumption on the partition is needed: all of this comes
from its type.
-/

namespace ReducedSpace

namespace Permutation

/-- The positions from `b` up to `e` of the table of old indices. -/
theorem getElem?_extract_olds (p : Permutation) {b e : Nat} (he : e ≤ p.size) (k : Nat) :
    (p.olds.extract b e)[k]? = if k < e - b then some (p.old (b + k)) else none := by
  have he' : min e p.olds.size = e := Nat.min_eq_left he
  rw [Array.getElem?_extract, he']
  split
  · rw [getElem?_olds, if_pos (by omega)]
  · rfl

/-- A part of the table of a permutation has the length of the part. -/
theorem size_extract_olds (p : Permutation) {b e : Nat} (he : e ≤ p.size) :
    (p.olds.extract b e).size = e - b := by
  have he' : min e p.olds.size = e := Nat.min_eq_left he
  rw [Array.size_extract, he']

/-- The members of a stretch of the table are the images of its positions. -/
theorem mem_extract_olds_iff (p : Permutation) {b e : Nat} (he : e ≤ p.size) {j : Nat} :
    j ∈ p.olds.extract b e ↔ b ≤ p.new j ∧ p.new j < e := by
  rw [Array.mem_iff_getElem?]
  constructor
  · rintro ⟨k, hk⟩
    rw [p.getElem?_extract_olds he] at hk
    split at hk
    · cases hk
      rw [new_old]
      omega
    · cases hk
  · rintro ⟨hb, hlt⟩
    refine ⟨p.new j - b, ?_⟩
    rw [p.getElem?_extract_olds he, if_pos (by omega), show b + (p.new j - b) = p.new j by omega,
      old_new]

/-- Two permutations agree from a position on exactly when their tables are the same from there. -/
theorem agreeFrom_iff {p q : Permutation} {r : Nat} :
    p.AgreeFrom q r ↔ p.size = q.size ∧ p.olds.extract r p.size = q.olds.extract r q.size := by
  constructor
  · intro h
    refine ⟨h.size_eq, Array.ext_getElem? fun k => ?_⟩
    rw [p.getElem?_extract_olds (Nat.le_refl _), q.getElem?_extract_olds (Nat.le_refl _),
      h.old_eq (r + k) (Nat.le_add_right r k), h.size_eq]
  · rintro ⟨hsize, htable⟩
    refine ⟨hsize, fun k hk => ?_⟩
    by_cases hlt : k < p.size
    · have hget := congrArg (fun t : Array Nat => t[k - r]?) htable
      rw [p.getElem?_extract_olds (Nat.le_refl _), q.getElem?_extract_olds (Nat.le_refl _),
        if_pos (by omega), if_pos (by omega), Nat.add_sub_of_le hk] at hget
      exact Option.some.inj hget
    · rw [p.old_of_size_le (by omega), q.old_of_size_le (by omega)]

end Permutation

namespace Partition

variable (p : Partition)

/-- There are as many dependent variables as the rank. -/
@[simp] theorem size_depVars : p.depVars.size = p.rank :=
  p.varPerm.size_extract_olds p.rank_le_n

/-- The other variables are independent. -/
@[simp] theorem size_indepVars : p.indepVars.size = p.n - p.rank :=
  p.varPerm.size_extract_olds (Nat.le_refl _)

/-- There are as many decomposed equations as the rank. -/
@[simp] theorem size_decompEqus : p.decompEqus.size = p.rank :=
  p.equPerm.size_extract_olds p.rank_le_m

/-- The other equations are undecomposed. -/
@[simp] theorem size_undecompEqus : p.undecompEqus.size = p.m - p.rank :=
  p.equPerm.size_extract_olds (Nat.le_refl _)

/-- A variable is dependent if its new position is in front of the rank. -/
theorem mem_depVars_iff {i : Nat} : i ∈ p.depVars ↔ p.varPerm.new i < p.rank := by
  rw [depVars, p.varPerm.mem_extract_olds_iff p.rank_le_n]
  omega

/-- It is independent if it is behind. -/
theorem mem_indepVars_iff {i : Nat} :
    i ∈ p.indepVars ↔ p.rank ≤ p.varPerm.new i ∧ p.varPerm.new i < p.n :=
  p.varPerm.mem_extract_olds_iff (Nat.le_refl _)

/-- The same holds of the decomposed equations. -/
theorem mem_decompEqus_iff {j : Nat} : j ∈ p.decompEqus ↔ p.equPerm.new j < p.rank := by
  rw [decompEqus, p.equPerm.mem_extract_olds_iff p.rank_le_m]
  omega

/-- And of the undecomposed ones. -/
theorem mem_undecompEqus_iff {j : Nat} :
    j ∈ p.undecompEqus ↔ p.rank ≤ p.equPerm.new j ∧ p.equPerm.new j < p.m :=
  p.equPerm.mem_extract_olds_iff (Nat.le_refl _)

/-- No variable is both dependent and independent. -/
theorem depVars_disjoint {i : Nat} (h : i ∈ p.depVars) : i ∉ p.indepVars := by
  rw [mem_depVars_iff] at h
  rw [mem_indepVars_iff]
  omega

/-- Every variable is dependent or independent. -/
theorem depVars_cover {i : Nat} : i < p.n ↔ i ∈ p.depVars ∨ i ∈ p.indepVars := by
  have hle := p.rank_le_n
  have hnew : p.varPerm.new i < p.n ↔ i < p.n := p.varPerm.new_lt_iff
  have hn : p.n = p.varPerm.size := rfl
  rw [mem_depVars_iff, mem_indepVars_iff, ← hnew]
  omega

/-- No equation is both decomposed and undecomposed. -/
theorem decompEqus_disjoint {j : Nat} (h : j ∈ p.decompEqus) : j ∉ p.undecompEqus := by
  rw [mem_decompEqus_iff] at h
  rw [mem_undecompEqus_iff]
  omega

/-- Every equation is decomposed or undecomposed. -/
theorem decompEqus_cover {j : Nat} : j < p.m ↔ j ∈ p.decompEqus ∨ j ∈ p.undecompEqus := by
  have hle := p.rank_le_m
  have hnew : p.equPerm.new j < p.m ↔ j < p.m := p.equPerm.new_lt_iff
  have hm : p.m = p.equPerm.size := rfl
  rw [mem_decompEqus_iff, mem_undecompEqus_iff, ← hnew]
  omega

/-- The decomposed equations come in the order of the partition. -/
theorem getElem?_decompEqus {i : Nat} (hi : i < p.rank) :
    p.decompEqus[i]? = some (p.equPerm.old i) := by
  rw [decompEqus]
  rw [p.equPerm.getElem?_extract_olds p.rank_le_m, if_pos (by omega), Nat.zero_add]

/-- A vector over all variables can be brought back to the caller's order. -/
theorem unpermuteVars_eq {α : Type} [Scalar α] {x : Array α} (hx : x.size = p.n) :
    p.unpermuteVars x = .ok (p.varPerm.scatter x) := by
  have hsize : p.varPerm.size = x.size := hx.symm
  rw [unpermuteVars, Permutation.applyInverse]
  rw [hsize, Checked.sameLength_self]
  rfl

section Checks

variable {α : Type}

/-- Gradients are accepted if they have a row for each variable and a column for each equation. -/
theorem checkShape_eq_ok_iff {gc : SparseMatrix α} {n m : Nat} :
    checkShape gc n m = .ok () ↔ gc.rows = n ∧ gc.cols = m := by
  rw [checkShape]
  by_cases hr : gc.rows = n <;> by_cases hc : gc.cols = m <;> simp [hr, hc]

/-- A partition is its two orders and its rank, as far as the rank is possible. -/
theorem new_eq_ok_iff {varPerm equPerm : Permutation} {rank : Nat} {p : Partition} :
    (new varPerm equPerm rank : Except (DecompError α) Partition) = .ok p ↔
      p.varPerm = varPerm ∧ p.equPerm = equPerm ∧ p.rank = rank := by
  rw [new]
  constructor
  · intro h
    split at h
    · cases h
      exact ⟨rfl, rfl, rfl⟩
    · cases h
  · rintro ⟨rfl, rfl, rfl⟩
    rw [dif_pos ⟨p.rank_le_n, p.rank_le_m⟩]

end Checks

/-- Two partitions make the same choice: the set of dependent variables, the list of independent
variables, the set of decomposed equations and the list of undecomposed equations. -/
structure SameChoice (p q : Partition) : Prop where
  depVars_iff : ∀ i, i ∈ p.depVars ↔ i ∈ q.depVars
  indepVars_eq : p.indepVars = q.indepVars
  decompEqus_iff : ∀ j, j ∈ p.decompEqus ↔ j ∈ q.decompEqus
  undecompEqus_eq : p.undecompEqus = q.undecompEqus

section SameChoice

variable {p q : Partition}

/-- The same choice leaves open only the order of what comes first. -/
theorem sameChoice_iff : p.SameChoice q ↔ p.rank = q.rank ∧
    p.varPerm.AgreeFrom q.varPerm p.rank ∧ p.equPerm.AgreeFrom q.equPerm p.rank := by
  constructor
  · intro h
    have hn : p.n = q.n := by
      have hlt (i : Nat) : i < p.n ↔ i < q.n := by
        rw [p.depVars_cover, q.depVars_cover, h.depVars_iff, h.indepVars_eq]
      have h₁ := hlt p.n
      have h₂ := hlt q.n
      omega
    have hm : p.m = q.m := by
      have hlt (j : Nat) : j < p.m ↔ j < q.m := by
        rw [p.decompEqus_cover, q.decompEqus_cover, h.decompEqus_iff, h.undecompEqus_eq]
      have h₁ := hlt p.m
      have h₂ := hlt q.m
      omega
    have hrank : p.rank = q.rank := by
      have hsize := congrArg Array.size h.indepVars_eq
      rw [size_indepVars, size_indepVars, hn] at hsize
      have hp : p.rank ≤ p.n := p.rank_le_n
      have hq : q.rank ≤ q.n := q.rank_le_n
      omega
    have hvar := h.indepVars_eq
    have hequ := h.undecompEqus_eq
    unfold indepVars at hvar
    unfold undecompEqus at hequ
    rw [← hrank] at hvar hequ
    exact ⟨hrank, Permutation.agreeFrom_iff.2 ⟨hn, hvar⟩, Permutation.agreeFrom_iff.2 ⟨hm, hequ⟩⟩
  · rintro ⟨hrank, hvar, hequ⟩
    refine ⟨fun i => ?_, ?_, fun j => ?_, ?_⟩
    · rw [mem_depVars_iff, mem_depVars_iff, ← hrank, hvar.new_lt_iff]
    · rw [indepVars, indepVars, ← hrank]
      exact (Permutation.agreeFrom_iff.1 hvar).2
    · rw [mem_decompEqus_iff, mem_decompEqus_iff, ← hrank, hequ.new_lt_iff]
    · rw [undecompEqus, undecompEqus, ← hrank]
      exact (Permutation.agreeFrom_iff.1 hequ).2

instance : Decidable (p.SameChoice q) :=
  decidable_of_iff
    (p.rank = q.rank ∧
      (p.varPerm.size = q.varPerm.size ∧ p.varPerm.olds.extract p.rank p.varPerm.size =
        q.varPerm.olds.extract p.rank q.varPerm.size) ∧
      (p.equPerm.size = q.equPerm.size ∧ p.equPerm.olds.extract p.rank p.equPerm.size =
        q.equPerm.olds.extract p.rank q.equPerm.size))
    (by rw [sameChoice_iff, Permutation.agreeFrom_iff, Permutation.agreeFrom_iff])

end SameChoice

end Partition

end ReducedSpace
