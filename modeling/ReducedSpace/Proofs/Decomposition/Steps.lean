import Mathlib
import ReducedSpace.Decomposition.Steps
import ReducedSpace.Proofs.Decomposition.Counterparts
import ReducedSpace.Proofs.Dense.Cholesky

/-!
# Steps of decompositions for the same choice

The quasi-normal step solves with `C`, and the orthogonal kind corrects the solution by way of
`I + Dᵀ D`, which has no labels: its rows and columns are positions of independent variables. So
decompositions for the same choice hold the same factors of it. The step in the space of all
variables is in the caller's order and literally the same vector.
-/

namespace ReducedSpace

open Finset Elimination

variable {K : Type} [ExactScalar K]

namespace Decomposition

variable {S₁ N₁ S₂ N₂ : Type} [Factorization S₁ N₁ K] [Factorization S₂ N₂ K]
  {dec₁ : Decomposition K S₁ N₁} {dec₂ : Decomposition K S₂ N₂} {gc : SparseMatrix K}
  {settings₁ settings₂ : Settings K} {d₁ d₂ : ℕ → ℕ → K}

section Woodbury

/-- The factors that are stored with `D` are those of `I + Dᵀ D`. -/
theorem factorGram_of_storeSensitivity {settings : Settings K} {rank : ℕ}
    {basis : BasisMatrix S₁ N₁} {n : SparseMatrix K} {a : DenseMatrix K}
    {gram : Option (Cholesky K)}
    (h : storeSensitivity settings rank basis n = .ok (.orthogonal a gram)) :
    factorGram rank a = .ok gram := by
  rw [storeSensitivity] at h
  split at h
  · cases h
  · obtain ⟨b, -, h⟩ := bind_eq_ok_iff.1 h
    cases h
  · obtain ⟨b, -, h⟩ := bind_eq_ok_iff.1 h
    obtain ⟨g, hg, h⟩ := bind_eq_ok_iff.1 h
    cases h
    exact Attempt.ofExcept_eq_ok_iff.1 hg

/-- Where positive numbers have square roots, every matrix has such factors. -/
theorem exists_factorGram [ExactRoots K] (rank : ℕ) (d : DenseMatrix K) :
    ∃ gram, factorGram rank d = .ok gram := by
  rw [factorGram]
  split
  · exact ⟨none, rfl⟩
  · obtain ⟨c, hc⟩ := exists_factor_gram d
    rw [hc]
    exact ⟨some c, rfl⟩

/-- The factors depend on `I + Dᵀ D` alone. -/
theorem factorGram_congr {r₁ r₂ : ℕ} {a b : DenseMatrix K} {g₁ g₂ : Option (Cholesky K)}
    (hcols : a.cols = b.cols)
    (hgram : (a.transpose.mul a).addIdentity = (b.transpose.mul b).addIdentity)
    (h₁ : factorGram r₁ a = .ok g₁) (h₂ : factorGram r₂ b = .ok g₂) : g₁ = g₂ := by
  rw [factorGram, hcols, hgram] at h₁
  rw [factorGram] at h₂
  split at h₁
  · rename_i hzero
    rw [if_pos hzero] at h₂
    cases h₁
    cases h₂
    rfl
  · rename_i hzero
    rw [if_neg hzero] at h₂
    split at h₁
    · rename_i gram hfactor
      rw [hfactor] at h₂
      cases h₁
      cases h₂
      rfl
    · cases h₁

/-- The matrix `I + Dᵀ D` has a row and a column for each column of `D`. -/
theorem size_gram (a : DenseMatrix K) : (a.transpose.mul a).addIdentity.rows = a.cols ∧
    (a.transpose.mul a).addIdentity.cols = a.cols := ⟨rfl, rfl⟩

/-- The entries of `I + Dᵀ D` for a matrix `D` that is given by its entries. -/
theorem entry_gram_ofFn (r c : ℕ) (d : ℕ → ℕ → K) {i j : ℕ} (hi : i < c) (hj : j < c) :
    ((DenseMatrix.ofFn r c d).transpose.mul (.ofFn r c d)).addIdentity.entry i j =
      (∑ l ∈ range r, d l i * d l j) + if i = j then 1 else 0 := by
  rw [entry_gram _ hi hj, DenseMatrix.rows_ofFn]
  refine congrArg (· + _) (sum_congr rfl fun l hl => ?_)
  have hl := mem_range.1 hl
  rw [DenseMatrix.entry_ofFn, DenseMatrix.entry_ofFn, if_pos ⟨hl, hi⟩, if_pos ⟨hl, hj⟩]

theorem gram_ofFn_congr {r c : ℕ} {d₁ d₂ : ℕ → ℕ → K} (hd : ∀ i j, i < c → j < c →
      ∑ l ∈ range r, d₁ l i * d₁ l j = ∑ l ∈ range r, d₂ l i * d₂ l j) :
    ((DenseMatrix.ofFn r c d₁).transpose.mul (.ofFn r c d₁)).addIdentity =
      ((DenseMatrix.ofFn r c d₂).transpose.mul (.ofFn r c d₂)).addIdentity := by
  obtain ⟨hrows₁, hcols₁⟩ := size_gram (DenseMatrix.ofFn r c d₁)
  obtain ⟨hrows₂, hcols₂⟩ := size_gram (DenseMatrix.ofFn r c d₂)
  refine DenseMatrix.ext_entry (hrows₁.trans hrows₂.symm) (hcols₁.trans hcols₂.symm)
    fun i j hi hj => ?_
  rw [hrows₁, DenseMatrix.cols_ofFn] at hi
  rw [hcols₁, DenseMatrix.cols_ofFn] at hj
  rw [entry_gram_ofFn _ _ _ hi hj, entry_gram_ofFn _ _ _ hi hj, hd i j hi hj]

/-- A solution with `C`, corrected to one with `C (I + D Dᵀ)`. -/
def corrected (r c : ℕ) (d : ℕ → ℕ → K) (gram : Option (Cholesky K)) (x : Array K) : Array K :=
  match gram with
  | none => x
  | some g => Vec.sub x (product r c d (g.solve (product c r (fun l k => d k l) x)))

theorem size_corrected (r c : ℕ) (d : ℕ → ℕ → K) (gram : Option (Cholesky K)) (x : Array K) :
    (corrected r c d gram x).size = x.size := by
  cases gram with
  | none => rfl
  | some g => exact Vec.size_sub _ _

theorem solve_woodbury (r c : ℕ) (d : ℕ → ℕ → K) (gram : Option (Cholesky K)) {x : Array K}
    (hx : x.size = r) :
    (⟨.ofFn r c d, gram⟩ : Woodbury K).solve x = .ok (corrected r c d gram x) := by
  cases gram with
  | none => rfl
  | some g =>
    rw [Woodbury.solve]
    rw [DenseMatrix.rows_ofFn, hx, Checked.sameLength_self]
    refine congrArg Except.ok (congrArg (Vec.sub x) ?_)
    rw [DenseMatrix.mulVecChained_transpose_ofFn]
    exact DenseMatrix.mulVecChained_ofFn _ _ _ _

variable (h : Counterparts dec₁ dec₂ gc settings₁ settings₂ d₁ d₂)
include h

/-- The factors of `I + Dᵀ D` are the same, as its entries are sums over the dependent variables. -/
theorem Counterparts.gram_eq {g₁ g₂ : Option (Cholesky K)}
    (h₁ : dec₁.sensitivity = .orthogonal (.ofFn dec₁.rank (dec₁.partition.n - dec₁.rank) d₁) g₁)
    (h₂ : dec₂.sensitivity = .orthogonal (.ofFn dec₁.rank (dec₁.partition.n - dec₁.rank) d₂) g₂) :
    g₁ = g₂ := by
  have hbuilt₁ := h.derived₁.built.sensitivity_eq
  have hbuilt₂ := h.derived₂.built.sensitivity_eq
  rw [h₁] at hbuilt₁
  rw [h₂] at hbuilt₂
  have hfactor₁ := factorGram_of_storeSensitivity hbuilt₁
  have hfactor₂ := factorGram_of_storeSensitivity hbuilt₂
  refine factorGram_congr ?_ (gram_ofFn_congr fun i j hi hj => ?_) hfactor₁ hfactor₂
  · rw [DenseMatrix.cols_ofFn, DenseMatrix.cols_ofFn]
  have hterm : Relabelled dec₁.partition.varPerm dec₂.partition.varPerm dec₁.rank
      (fun l => d₁ l i * d₁ l j) fun l => d₂ l i * d₂ l j := fun v hv =>
    congrArg₂ (· * ·) (h.d_relabelled hi v hv) (h.d_relabelled hj v hv)
  exact hterm.sum_eq fun _ => h.vars.new_lt_iff

/-- Corrected solutions are the same if the solutions are. -/
theorem Counterparts.corrected_relabelled (gram : Option (Cholesky K)) {x₁ x₂ : Array K}
    (hsize₁ : x₁.size = dec₁.rank) (hsize₂ : x₂.size = dec₁.rank)
    (hx : Relabelled dec₁.partition.varPerm dec₂.partition.varPerm dec₁.rank (x₁.getD · 0)
      (x₂.getD · 0)) :
    Relabelled dec₁.partition.varPerm dec₂.partition.varPerm dec₁.rank
      ((corrected dec₁.rank (dec₁.partition.n - dec₁.rank) d₁ gram x₁).getD · 0)
      ((corrected dec₁.rank (dec₁.partition.n - dec₁.rank) d₂ gram x₂).getD · 0) := by
  cases gram with
  | none => exact hx
  | some g =>
    have hinner : product (dec₁.partition.n - dec₁.rank) dec₁.rank (fun l k => d₁ k l) x₁ =
        product (dec₁.partition.n - dec₁.rank) dec₁.rank (fun l k => d₂ k l) x₂ := by
      refine ext_getD (by simp) fun l hl => ?_
      rw [size_product] at hl
      have hterm : Relabelled dec₁.partition.varPerm dec₂.partition.varPerm dec₁.rank
          (fun k => d₁ k l * x₁.getD k 0) fun k => d₂ k l * x₂.getD k 0 := fun v hv =>
        congrArg₂ (· * ·) (h.d_relabelled hl v hv) (hx v hv)
      rw [getD_product hl, getD_product hl]
      exact hterm.sum_eq fun _ => h.vars.new_lt_iff
    intro v hv
    have hv₂ := h.vars.new_lt_iff.1 hv
    unfold corrected
    dsimp only
    rw [hinner, Vec.getD_sub (by rw [size_product, hsize₁]),
      Vec.getD_sub (by rw [size_product, hsize₂]), hsize₁, hsize₂, if_pos hv, if_pos hv₂,
      getD_product hv, getD_product hv₂]
    refine congrArg₂ (· - ·) (hx v hv) (sum_congr rfl fun l hl => ?_)
    exact congrArg (· * _) (h.d_relabelled (mem_range.1 hl) v hv)

end Woodbury

section Steps

omit [Factorization S₁ N₁ K] in
/-- The decomposed entries of a residual of the right length. -/
theorem decomposedResidual_eq (dec : Decomposition K S₁ N₁) {c : Array K}
    (hc : c.size = dec.partition.m) :
    ∃ b, dec.decomposedResidual c = .ok b ∧ b.size = dec.rank ∧
      ∀ i, i < dec.rank → b.getD i 0 = c.getD (dec.partition.equPerm.old i) 0 := by
  refine ⟨dec.partition.decompEqus.map fun j => c.getD j 0, ?_, by simp [rank], fun i hi => ?_⟩
  · rw [decomposedResidual]
    rw [if_pos hc]
  · rw [Array.getD_eq_getD_getElem?, Array.getElem?_map, dec.partition.getElem?_decompEqus hi]
    rfl

/-- A range-space vector of the right length makes a step with `Y`. -/
theorem HasSensitivity.rangeSpaceStep_eq {dec : Decomposition K S₁ N₁} {d : ℕ → ℕ → K}
    (hd : dec.HasSensitivity gc d) {py : Array K} (hpy : py.size = dec.rank) :
    dec.rangeSpaceStep py = .ok (dec.partition.varPerm.scatter
      (product dec.partition.n dec.rank (rangeEntries dec.kind dec.rank d) py)) := by
  have hcheck : dec.checkStep py = .ok () := if_pos hpy
  rw [rangeSpaceStep]
  rw [hcheck, hd.y_represents.apply_eq py hpy]
  show Attempt.ofChecked (dec.partition.unpermuteVars _) = _
  rw [dec.partition.unpermuteVars_eq (size_product _ _ _ _)]
  rfl

/-- The orthogonal kind corrects solutions with `C`. -/
theorem rInverse_of_orthogonal {dec : Decomposition K S₁ N₁} {c : ℕ} {d : ℕ → ℕ → K}
    {gram : Option (Cholesky K)} (hw : dec.woodbury? = some ⟨.ofFn dec.rank c d, gram⟩)
    {b x : Array K} (hx : dec.cInverse.solve b = .ok x) (hsize : x.size = dec.rank) :
    dec.rInverse.solve b = .ok (corrected dec.rank c d gram x) := by
  unfold rInverse
  rw [hw]
  show (dec.cInverse.solve b >>= Woodbury.solve _) = _
  rw [hx]
  exact solve_woodbury _ _ _ _ hsize

/-- The step in the space of all variables for a constraint residual. -/
def step (dec : Decomposition K S₁ N₁) (c : Array K) : Attempt (DecompError K) (Array K) :=
  dec.quasiNormalStep c >>= dec.rangeSpaceStep

/-- A residual of another length is refused. -/
theorem step_eq_error (dec : Decomposition K S₁ N₁) {c : Array K}
    (hc : c.size ≠ dec.partition.m) :
    dec.step c =
      Attempt.fail (.dimensionMismatch "constraint residual" dec.partition.m c.size) := by
  rw [step, quasiNormalStep, decomposedResidual]
  rw [if_neg hc]
  rfl

theorem HasSensitivity.step_eq {dec : Decomposition K S₁ N₁} {d : ℕ → ℕ → K}
    (hd : dec.HasSensitivity gc d) {c b x : Array K} (hb : dec.decomposedResidual c = .ok b)
    (hx : dec.rInverse.solve b = .ok x) (hsize : x.size = dec.rank) :
    dec.step c = .ok (dec.partition.varPerm.scatter
      (product dec.partition.n dec.rank (rangeEntries dec.kind dec.rank d) (Vec.neg x))) := by
  rw [step, quasiNormalStep]
  rw [hb]
  show (Attempt.ofChecked (dec.rInverse.solve b) >>= fun py => pure (Vec.neg py)) >>=
    dec.rangeSpaceStep = _
  rw [hx]
  exact hd.rangeSpaceStep_eq ((Vec.size_neg x).trans hsize)

variable (h : Counterparts dec₁ dec₂ gc settings₁ settings₂ d₁ d₂)
include h

/-- Solutions with `C` are the same. -/
theorem Counterparts.exists_solutions {b₁ b₂ : Array K} (hb₁ : b₁.size = dec₁.rank)
    (hb₂ : b₂.size = dec₁.rank) (hb : Relabelled dec₁.partition.equPerm dec₂.partition.equPerm
      dec₁.rank (b₁.getD · 0) (b₂.getD · 0)) :
    ∃ x₁ x₂, dec₁.cInverse.solve b₁ = .ok x₁ ∧ dec₂.cInverse.solve b₂ = .ok x₂ ∧
      x₁.size = dec₁.rank ∧ x₂.size = dec₁.rank ∧ Relabelled dec₁.partition.varPerm
        dec₂.partition.varPerm dec₁.rank (x₁.getD · 0) (x₂.getD · 0) := by
  have hinverts₂ := h.derived₂.inverts
  rw [h.rank_eq] at hinverts₂
  obtain ⟨x₁, hx₁, hsize₁, hproduct₁⟩ := h.derived₁.inverts .transposed b₁ hb₁
  obtain ⟨x₂, hx₂, hsize₂, hproduct₂⟩ := hinverts₂ .transposed b₂ hb₂
  refine ⟨x₁, x₂, hx₁, hx₂, hsize₁, hsize₂, h.solution_relabelled (fun i hi => ?_)
    (fun i hi => ?_) hb⟩
  · rw [← hproduct₁, getD_product hi]
    rfl
  · rw [← hproduct₂, getD_product hi]
    rfl

/-- Solutions with `R` are the same. -/
theorem Counterparts.exists_range_solutions {b₁ b₂ : Array K} (hb₁ : b₁.size = dec₁.rank)
    (hb₂ : b₂.size = dec₁.rank) (hb : Relabelled dec₁.partition.equPerm dec₂.partition.equPerm
      dec₁.rank (b₁.getD · 0) (b₂.getD · 0)) :
    ∃ x₁ x₂, dec₁.rInverse.solve b₁ = .ok x₁ ∧ dec₂.rInverse.solve b₂ = .ok x₂ ∧
      x₁.size = dec₁.rank ∧ x₂.size = dec₁.rank ∧ Relabelled dec₁.partition.varPerm
        dec₂.partition.varPerm dec₁.rank (x₁.getD · 0) (x₂.getD · 0) := by
  obtain ⟨x₁, x₂, hx₁, hx₂, hsize₁, hsize₂, hx⟩ := h.exists_solutions hb₁ hb₂ hb
  cases hkind : dec₁.kind with
  | coordinate =>
    unfold rInverse
    rw [(views_of_coordinate hkind).2, (views_of_coordinate (h.kind_eq.symm.trans hkind)).2]
    exact ⟨x₁, x₂, hx₁, hx₂, hsize₁, hsize₂, hx⟩
  | orthogonal =>
    obtain ⟨gram, hs₁, -, hw₁⟩ := h.sensitivity₁.views_of_orthogonal hkind
    obtain ⟨g, hs₂, -, hw₂⟩ := h.sensitivity₂.views_of_orthogonal (h.kind_eq.symm.trans hkind)
    have hsolve₂ := rInverse_of_orthogonal hw₂ hx₂ (hsize₂.trans h.rank_eq.symm)
    rw [h.rank_eq, h.n_eq] at hs₂ hsolve₂
    obtain rfl := h.gram_eq hs₁ hs₂
    exact ⟨_, _, rInverse_of_orthogonal hw₁ hx₁ hsize₁, hsolve₂,
      (size_corrected _ _ _ _ _).trans hsize₁, (size_corrected _ _ _ _ _).trans hsize₂,
      h.corrected_relabelled gram hsize₁ hsize₂ hx⟩

/-- A residual of the right length makes the same step with both. -/
theorem Counterparts.exists_step {c : Array K} (hc : c.size = dec₁.partition.m) :
    ∃ x, (dec₁.step c = .ok x ∧ dec₂.step c = .ok x) ∧ x.size = dec₁.partition.n := by
  obtain ⟨b₁, hb₁, hsize₁, hentry₁⟩ := dec₁.decomposedResidual_eq hc
  obtain ⟨b₂, hb₂, hsize₂, hentry₂⟩ := dec₂.decomposedResidual_eq (hc.trans h.m_eq.symm)
  rw [h.rank_eq] at hsize₂ hentry₂
  have hb : Relabelled dec₁.partition.equPerm dec₂.partition.equPerm dec₁.rank (b₁.getD · 0)
      (b₂.getD · 0) := fun j hj => by
    dsimp only
    rw [hentry₁ _ hj, hentry₂ _ (h.equs.new_lt_iff.1 hj), Permutation.old_new,
      Permutation.old_new]
  obtain ⟨x₁, x₂, hx₁, hx₂, hlen₁, hlen₂, hx⟩ := h.exists_range_solutions hsize₁ hsize₂ hb
  have hstep₂ := h.sensitivity₂.step_eq hb₂ hx₂ (hlen₂.trans h.rank_eq.symm)
  rw [h.rank_eq, h.n_eq, ← h.kind_eq] at hstep₂
  refine ⟨_, ⟨h.sensitivity₁.step_eq hb₁ hx₁ hlen₁, hstep₂.trans (congrArg Except.ok ?_)⟩,
    Permutation.size_scatter _ _⟩
  refine ext_getD ?_ fun v hv => ?_
  · rw [Permutation.size_scatter, Permutation.size_scatter]
    exact h.n_eq
  · rw [Permutation.size_scatter] at hv
    have hv₂ : dec₂.partition.varPerm.new v < dec₁.partition.n := by
      rw [← h.n_eq]
      exact dec₂.partition.varPerm.new_lt_iff.2 hv
    have hv₁ := (h.var_lt_n_iff v).2 hv₂
    have hterm : Relabelled dec₁.partition.varPerm dec₂.partition.varPerm dec₁.rank
        (fun k => rangeEntries dec₁.kind dec₁.rank d₁ (dec₁.partition.varPerm.new v) k *
          (Vec.neg x₁).getD k 0)
        fun k => rangeEntries dec₁.kind dec₁.rank d₂ (dec₂.partition.varPerm.new v) k *
          (Vec.neg x₂).getD k 0 := by
      intro w hw
      dsimp only
      rw [getD_neg, getD_neg]
      exact congrArg₂ (· * ·) (h.y_relabelled hw v hv₁) (congrArg Neg.neg (hx w hw))
    rw [Permutation.getD_scatter, Permutation.getD_scatter, if_pos hv,
      if_pos (dec₁.partition.varPerm.new_lt_iff.1 hv₁), getD_product hv₂, getD_product hv₁]
    exact (hterm.sum_eq fun _ => h.vars.new_lt_iff).symm

/-- The step in the space of all variables is the same vector, and so is the error. -/
theorem Counterparts.step_eq (c : Array K) : dec₁.step c = dec₂.step c := by
  by_cases hc : c.size = dec₁.partition.m
  · obtain ⟨x, ⟨hstep₁, hstep₂⟩, -⟩ := h.exists_step hc
    rw [hstep₁, hstep₂]
  · rw [step_eq_error _ hc, step_eq_error _ (by rw [h.m_eq]; exact hc), h.m_eq]

end Steps

end Decomposition

end ReducedSpace
