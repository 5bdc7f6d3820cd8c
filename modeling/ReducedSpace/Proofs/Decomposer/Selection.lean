import Mathlib
import ReducedSpace.Proofs.Decomposer.Identities
import ReducedSpace.Proofs.Decomposition.FullRank
import ReducedSpace.Proofs.Decomposition.SelfTest
import ReducedSpace.Proofs.Decomposition.Steps

/-!
# Selections find the rank

With factors that solve with the basis block nothing after the analysis can fail: the blocks exist,
`I + Dᵀ D` is positive definite, and the self-test finds residuals of zero. If the solver also finds
ranks, a selection therefore succeeds exactly if the rank suffices, on its first attempt, and what
it publishes has the rank of the gradients.
-/

namespace ReducedSpace

open Elimination

variable {K : Type} [ExactScalar K]

namespace Decomposition

variable {S N : Type} [Factorization S N K] {settings : Settings K} {partition : Partition}
  {basis : BasisMatrix S N} {gc : SparseMatrix K}

/-- A sensitivity matrix that was formed can be stored in every form. -/
theorem exists_storeSensitivity (hroots : settings.kind = .orthogonal → ExactRoots K)
    {n : SparseMatrix K} {d : DenseMatrix K} (hd : formSensitivity basis n = .ok d) (rank : ℕ) :
    ∃ stored, storeSensitivity settings rank basis n = .ok stored := by
  have hformed : (Attempt.ofChecked (formSensitivity basis n) : Attempt (DecompError K) _) =
      .ok d := Attempt.ofChecked_eq_ok_iff.2 hd
  rw [storeSensitivity]
  split
  · exact ⟨.implicit, rfl⟩
  · exact ⟨.explicit d, bind_eq_ok_iff.2 ⟨d, hformed, rfl⟩⟩
  · rename_i hkind
    have := hroots hkind
    obtain ⟨gram, hgram⟩ := exists_factorGram rank d
    refine ⟨.orthogonal d gram, bind_eq_ok_iff.2 ⟨d, hformed, bind_eq_ok_iff.2 ⟨gram, ?_, rfl⟩⟩⟩
    exact Attempt.ofExcept_eq_ok_iff.2 hgram

/-- A decomposition can be built from factors that solve with the basis block. -/
theorem exists_build (hroots : settings.kind = .orthogonal → ExactRoots K)
    (hrows : gc.rows = partition.n) (hcols : gc.cols = partition.m)
    (hdim : basis.dim = partition.rank)
    (hinverts : Inverts basis.solve partition.rank (partition.reordered gc)) (generation : ℕ) :
    ∃ dec, build partition basis gc settings generation = .ok dec ∧ dec.partition = partition ∧
      dec.Derived gc settings := by
  obtain ⟨⟨c, hc⟩, ⟨n, hn⟩, ⟨u, hu⟩⟩ := partition.exists_blocks hrows hcols
  have hnrows : n.transpose.rows = partition.rank := (Partition.nonbasisBlock_spec hn).2.1
  obtain ⟨_, -, hformed, -⟩ := exists_sensitivityEntries (n := n.transpose) (hnrows ▸ hinverts)
  obtain ⟨stored, hstored⟩ := exists_storeSensitivity hroots hformed partition.rank
  by_cases hr : partition.rank < partition.m
  · let dec : Decomposition K S N := ⟨partition, generation, basis, c, n.transpose, stored, some u⟩
    have hbuilt : dec.BuiltFrom partition basis gc settings generation :=
      ⟨rfl, rfl, rfl, hdim, hc, ⟨n, hn, rfl⟩, fun _ => ⟨u, hu, rfl⟩,
        fun hm => absurd hr (Nat.not_lt.2 hm), hstored⟩
    exact ⟨dec, build_eq_ok_iff.2 hbuilt, rfl, hbuilt.derived hrows hcols hinverts⟩
  · let dec : Decomposition K S N := ⟨partition, generation, basis, c, n.transpose, stored, none⟩
    have hbuilt : dec.BuiltFrom partition basis gc settings generation :=
      ⟨rfl, rfl, rfl, hdim, hc, ⟨n, hn, rfl⟩, fun hm => absurd hm hr, fun _ => rfl, hstored⟩
    exact ⟨dec, build_eq_ok_iff.2 hbuilt, rfl, hbuilt.derived hrows hcols hinverts⟩

end Decomposition

namespace Decomposer

variable {σ S N : Type} [Factorization S N K] [DirectSolver σ K S N]

/-- A selection succeeds exactly for arguments of the right sizes and gradients of sufficient rank,
and it publishes a decomposition with the rank of the gradients. -/
structure SelectsByRank (s : Decomposer σ K S N) (nu : Option (Array K)) (gc : SparseMatrix K) :
    Prop where
  succeeds_iff : (∃ dec, (s.selectBasis nu gc).1 = .ok dec) ↔
    (gc.rows = s.n ∧ gc.cols = s.m ∧ ∀ v, nu = some v → v.size = s.n) ∧
      (if s.settings.allowUndecomposed then min s.m 1 else s.m) ≤ gc.rank
  published : ∀ dec, (s.selectBasis nu gc).1 = .ok dec →
    (s.selectBasis nu gc).2.current = some dec ∧ dec.FullRank gc
  lacks_rank : s.checkSelection nu gc = .ok () → gc.rank < s.requiredRank →
    (s.selectBasis nu gc).1 = Attempt.fail (.singularBasis gc.rank s.requiredRank)

/-- The solver finds ranks, and in every system with valid settings so does a selection by it. -/
structure RankExact (solver : σ) : Prop where
  finds : FindsRank solver
  selects : ∀ s : Decomposer σ K S N, s.solver = solver → s.settings.validate = .ok () →
    (s.settings.kind = .orthogonal → ExactRoots K) → ∀ nu gc, s.SelectsByRank nu gc

variable {s : Decomposer σ K S N} {nu : Option (Array K)} {gc : SparseMatrix K}

omit [ExactScalar K] [Factorization S N K] [DirectSolver σ K S N] in
theorem checkSelection_eq_ok_iff : s.checkSelection nu gc = .ok () ↔
    gc.rows = s.n ∧ gc.cols = s.m ∧ ∀ v, nu = some v → v.size = s.n := by
  unfold checkSelection
  rw [bind_eq_ok_iff]
  constructor
  · rintro ⟨⟨⟩, hshape, hsize⟩
    obtain ⟨hrows, hcols⟩ := Partition.checkShape_eq_ok_iff.1 hshape
    refine ⟨hrows, hcols, fun v hv => ?_⟩
    subst hv
    by_contra hne
    dsimp only at hsize
    rw [if_pos hne] at hsize
    cases hsize
  · rintro ⟨hrows, hcols, hsize⟩
    refine ⟨(), Partition.checkShape_eq_ok_iff.2 ⟨hrows, hcols⟩, ?_⟩
    cases nu with
    | none => rfl
    | some v => exact if_neg (not_not.2 (hsize v rfl))

/-- A selection whose attempts all find the same insufficient rank reports it. -/
theorem selectFrom_of_fails {preferred : Option (Array Bool)} {rank left attempt : ℕ}
    (hfails : ∀ i, attempt ≤ i → i < attempt + left →
      DirectSolver.analyze s.solver gc ⟨s.requiredRank, preferred, i⟩ =
        (Attempt.fail (.singularBasis rank s.requiredRank), s.solver))
    {last : SolverError K} (hleft : left ≠ 0 ∨ last = .singularBasis rank s.requiredRank) :
    selectFrom preferred gc left attempt last s =
      (Attempt.fail (.singularBasis rank s.requiredRank), s) := by
  induction left generalizing attempt last with
  | zero =>
    rcases hleft with hleft | rfl
    · exact absurd rfl hleft
    · rfl
  | succ left ih =>
    rw [selectFrom]
    dsimp only
    rw [hfails attempt (Nat.le_refl attempt) (by omega)]
    exact ih (fun i hi hi' => hfails i (by omega) (by omega)) (.inr rfl)

/-- Without enough rank every attempt of a selection fails with the rank that there is. -/
theorem selectFrom_of_rank_lt (hs : AnalyzesExactly s.solver) (hfinds : FindsRank s.solver)
    (hlt : gc.rank < s.requiredRank) (preferred : Option (Array Bool)) {left : ℕ} (attempt : ℕ)
    (last : SolverError K) (hleft : left ≠ 0 ∨ last = .singularBasis gc.rank s.requiredRank) :
    selectFrom preferred gc left attempt last s =
      (Attempt.fail (.singularBasis gc.rank s.requiredRank), s) :=
  selectFrom_of_fails (fun i _ _ => Prod.ext
    (hfinds.analyze_eq_error gc ⟨s.requiredRank, preferred, i⟩ hlt)
    (hs.state_analyze gc ⟨s.requiredRank, preferred, i⟩)) hleft

variable [Dimensioned S N] [SizedSolver σ]

/-- With enough rank the first attempt of a selection publishes a decomposition. -/
theorem selectFrom_of_rank_le (hs : AnalyzesExactly s.solver) (hfinds : FindsRank s.solver)
    (hvalid : s.settings.validate = .ok ())
    (hroots : s.settings.kind = .orthogonal → ExactRoots K) (hle : s.requiredRank ≤ gc.rank)
    (preferred : Option (Array Bool)) {left : ℕ} (hleft : left ≠ 0) (attempt : ℕ)
    (last : SolverError K) :
    ∃ dec, selectFrom preferred gc left attempt last s =
        (.ok dec, { s with current := some dec, generation := s.generation + 1 }) ∧
      dec.FullRank gc := by
  obtain ⟨left, rfl⟩ := Nat.exists_eq_succ_of_ne_zero hleft
  have hstate := hs.state_analyze gc ⟨s.requiredRank, preferred, attempt⟩
  obtain ⟨an, han, hrank⟩ := hfinds.exists_analyze gc ⟨s.requiredRank, preferred, attempt⟩ hle
  have hfits := SizedSolver.analyze_fits han
  have hbound : an.rank ≤ min gc.rows gc.cols := hrank ▸ rank_block_le gc.rows gc.cols gc.entry
  have hvar : an.rank ≤ an.rowPerm.size := by
    rw [hfits.size_rowPerm]
    omega
  have hequ : an.rank ≤ an.colPerm.size := by
    rw [hfits.size_colPerm]
    omega
  let partition : Partition := ⟨an.rowPerm, an.colPerm, an.rank, hvar, hequ⟩
  have hnew : (Partition.new an.rowPerm an.colPerm an.rank : Except (DecompError K) Partition) =
      .ok partition := Partition.new_eq_ok_iff.2 ⟨rfl, rfl, rfl⟩
  have hrows : gc.rows = partition.n := hfits.size_rowPerm.symm
  have hcols : gc.cols = partition.m := hfits.size_colPerm.symm
  have hinverts : Inverts an.basis.solve partition.rank (partition.reordered gc) :=
    hs.inverts_analyze han
  obtain ⟨dec, hbuild, hpartition, hderived⟩ := Decomposition.exists_build hroots hrows hcols
    hfits.hasDim.dim_eq hinverts (s.generation + 1)
  have hprepare : prepare s.settings partition an.basis gc (s.generation + 1) = .ok dec := by
    refine prepare_eq_ok_iff.2 ⟨Decomposition.build_eq_ok_iff.1 hbuild, fun _ => ⟨⟨0, 0, 0⟩, ?_⟩⟩
    exact hderived.verify_eq (Settings.attempts_of_validate hvalid).2.le
  refine ⟨dec, ?_, hderived.fullRank ?_⟩
  · rw [selectFrom]
    dsimp only
    rw [hstate, han]
    dsimp only
    rw [hnew]
    dsimp only
    rw [publish]
    dsimp only
    rw [hprepare]
  · rw [Decomposition.rank]
    rw [hpartition]
    exact hrank

omit [Dimensioned S N] [SizedSolver σ] in
/-- A selection that fails although its arguments have the right sizes may only lack rank. -/
theorem selectsByRank_of_fails (hfails : ∀ dec, (s.selectBasis nu gc).1 ≠ .ok dec)
    (hreason : s.checkSelection nu gc = .ok () → gc.rank < s.requiredRank ∧
      (s.selectBasis nu gc).1 = Attempt.fail (.singularBasis gc.rank s.requiredRank)) :
    s.SelectsByRank nu gc where
  succeeds_iff := by
    constructor
    · rintro ⟨dec, hdec⟩
      exact absurd hdec (hfails dec)
    · rintro ⟨hsizes, hle⟩
      have hlt := (hreason (checkSelection_eq_ok_iff.2 hsizes)).1
      exact absurd hle (Nat.not_le.2 hlt)
  published dec hdec := absurd hdec (hfails dec)
  lacks_rank hcheck _ := (hreason hcheck).2

/-- A solver that is exact and finds ranks lets every system select by rank. -/
theorem rankExact {solver : σ} (hs : AnalyzesExactly solver) (hfinds : FindsRank solver) :
    RankExact solver := by
  refine ⟨hfinds, ?_⟩
  rintro s rfl hvalid hroots nu gc
  have hattempts : s.attempts ≠ 0 := by
    rw [attempts]
    split
    · exact (Settings.attempts_of_validate hvalid).1
    · exact Nat.one_ne_zero
  by_cases hcheck : s.checkSelection nu gc = .ok ()
  · have hselects : s.selectBasis nu gc = selectFrom
        (nu.map fun nu => nu.map fun v => !Scalar.isZero v) gc s.attempts 0
        (.singularBasis 0 s.requiredRank) s := by
      rw [selectBasis, hcheck]
    by_cases hle : s.requiredRank ≤ gc.rank
    · obtain ⟨dec, hselect, hfull⟩ := selectFrom_of_rank_le hs hfinds hvalid hroots hle
        (nu.map fun nu => nu.map fun v => !Scalar.isZero v) hattempts 0
        (.singularBasis 0 s.requiredRank)
      rw [← hselects] at hselect
      refine ⟨⟨fun _ => ⟨checkSelection_eq_ok_iff.1 hcheck, hle⟩, fun _ => ⟨dec, ?_⟩⟩,
        fun dec' hdec' => ?_, fun _ hlt => absurd hle (Nat.not_le.2 hlt)⟩
      · rw [hselect]
      · rw [hselect] at hdec' ⊢
        cases hdec'
        exact ⟨rfl, hfull⟩
    · have hlt : gc.rank < s.requiredRank := Nat.lt_of_not_le hle
      have hselect := selectFrom_of_rank_lt hs hfinds hlt
        (nu.map fun nu => nu.map fun v => !Scalar.isZero v) 0
        (.singularBasis 0 s.requiredRank) (.inl hattempts)
      rw [← hselects] at hselect
      refine selectsByRank_of_fails (fun dec hdec => ?_) fun _ => ⟨hlt, ?_⟩
      · rw [hselect] at hdec
        cases hdec
      · rw [hselect]
  · refine selectsByRank_of_fails (fun dec hdec => ?_) fun h => absurd h hcheck
    rw [selectBasis] at hdec
    split at hdec
    · cases hdec
    · rename_i hok
      exact hcheck hok

omit [Factorization S N K] [DirectSolver σ K S N] [Dimensioned S N] [SizedSolver σ] in
/-- Without tolerances an analysis by either solver finds the rank and fails only if less rank is
there than required, whatever its hints. Selections then depend on the rank alone, too, and publish
decompositions with all the equations that are independent. -/
theorem selection_finds_rank :
    (∀ solver : DenseSolver K, solver.Untolerant → RankExact solver) ∧
    (∀ solver : MarkowitzSolver K, solver.Untolerant → RankExact solver) ∧
    (∀ solver : ChosenSolver K, solver.Untolerant → RankExact solver) := by
  refine ⟨fun solver h => ?_, fun solver h => ?_, fun solver h => ?_⟩
  · exact rankExact (DenseSolver.analyzesExactly h.pivotTolerances) (DenseSolver.findsRank h)
  · exact rankExact (MarkowitzSolver.solvesExactly h.admissible).toAnalyzesExactly
      (MarkowitzSolver.findsRank h)
  · obtain ⟨hexact, hfinds⟩ := ChosenSolver.exact_of_untolerant h
    exact rankExact hexact hfinds

/-- A sample system selects two of three equations, and the third one depends on them. -/
theorem selection_finds_rank_sample :
    let s := sample (MarkowitzSolver.ofSettings (sampleSettings .markowitz))
      (sampleSettings .markowitz)
    s.solver.Untolerant ∧ s.settings.validate = .ok () ∧ s.settings.kind ≠ .orthogonal ∧
      FindsRank s.solver ∧ s.SelectsByRank none sampleGradients ∧
      ((s.selectBasis none sampleGradients).2.current.map fun dec => dec.rank) = some 2 := by
  intro s
  have hsolver : s.solver.Untolerant := by
    refine ⟨?_, ?_, rfl, rfl⟩
    · show (0 : ℚ) < 1 / 10
      norm_num
    · show (1 / 10 : ℚ) ≤ 1
      norm_num
  have hvalid : s.settings.validate = .ok () := sampleSettings_valid .markowitz
  have hkind : s.settings.kind ≠ .orthogonal := by decide
  have hexact := selection_finds_rank.2.1 s.solver hsolver
  exact ⟨hsolver, hvalid, hkind, hexact.finds,
    hexact.selects s rfl hvalid (fun h => absurd h hkind) none sampleGradients, by decide +kernel⟩

end Decomposer

end ReducedSpace
