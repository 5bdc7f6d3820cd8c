import ReducedSpace.Proofs.Decomposer.Invariant
import ReducedSpace.Proofs.Guarded.Decomposition

/-!
# Calls on a system with guarded accesses

A call checks its arguments, cuts a block out of the gradients, asks the solver and prepares a
decomposition. Written with guarded accesses it gives the same answer and leaves the same system,
and it does not fault. What this takes is checked by the call itself, guaranteed by the solver, or,
for the partition of an update, part of the invariant of the system.
-/

namespace ReducedSpace.Guarded

variable {σ α S N : Type} [Scalar α] [Factorization S N α] [GuardedFactorization S N α]

section Calls

/-- The checks in front of adopting a partition. The message counts the undecomposed equations. -/
def checkClient (s : Decomposer σ α S N) (partition : Partition) (gc : SparseMatrix α) :
    Attempt (DecompError α) Unit := do
  .ofExcept (Partition.checkShape gc s.n s.m)
  if partition.n ≠ s.n ∨ partition.m ≠ s.m then
    Attempt.fail (.invalidPartition
      s!"partition is {partition.n}x{partition.m}, system is {s.n}x{s.m}")
  else if partition.rank < s.m ∧ ¬s.settings.allowUndecomposed then
    let rest ← .ofChecked (minus s.m partition.rank)
    Attempt.fail (.invalidPartition
      s!"rank {partition.rank} leaves {rest} equations undecomposed")
  else return ()

/-- A partition with the leading variables and equations reordered as an analysis asks for. -/
def refine (partition : Partition) (an : Analysis S N) (n m : Nat) :
    Attempt (DecompError α) Partition := do
  let rowPerm ← .ofChecked (an.rowPerm.extendIdentity n)
  let varPerm ← .ofChecked (compose partition.varPerm rowPerm)
  let colPerm ← .ofChecked (an.colPerm.extendIdentity m)
  let equPerm ← .ofChecked (compose partition.equPerm colPerm)
  .ofExcept (Partition.new varPerm equPerm partition.rank)

/-- Publishes the decomposition for a partition and its factors under the given generation. -/
def publish (s : Decomposer σ α S N) (partition : Partition) (basis : BasisMatrix S N)
    (gc : SparseMatrix α) (generation : Nat) :
    Attempt (DecompError α) (Decomposition α S N) × Decomposer σ α S N :=
  match prepare s.settings partition basis gc generation with
  | .error e => (.error e, s)
  | .ok dec => (.ok dec, { s with current := some dec, generation := generation })

variable [GuardedSolver σ α S N]

/-- Adopts a partition of the caller's choice. -/
def setBasis (s : Decomposer σ α S N) (partition : Partition) (gc : SparseMatrix α) :
    Attempt (DecompError α) (Decomposition α S N) × Decomposer σ α S N :=
  match checkClient s partition gc with
  | .error e => (.error e, s)
  | .ok () =>
    match basisBlock partition gc with
    | .error f => (.error (.fault f), s)
    | .ok block =>
      let (answer, solver) := GuardedSolver.analyze s.solver block (.ofRank partition.rank)
      let s := { s with solver := solver }
      match answer.mapError DecompError.ofSolver with
      | .error e => (.error e, s)
      | .ok an =>
        match refine partition an s.n s.m with
        | .error e => (.error e, s)
        | .ok refined => publish s refined an.basis gc (s.generation + 1)

/-- Analyses until one succeeds or there are no attempts left. -/
def selectFrom (preferred : Option (Array Bool)) (gc : SparseMatrix α) :
    (left attempt : Nat) → SolverError α → Decomposer σ α S N →
      Attempt (DecompError α) (Decomposition α S N) × Decomposer σ α S N
  | 0, _, last, s => (Attempt.fail (.ofSolver last), s)
  | left + 1, attempt, _, s =>
    let (answer, solver) := GuardedSolver.analyze s.solver gc ⟨s.requiredRank, preferred, attempt⟩
    let s := { s with solver := solver }
    match answer with
    | .ok an =>
      match Partition.new an.rowPerm an.colPerm an.rank with
      | .error e => (Attempt.fail e, s)
      | .ok partition => publish s partition an.basis gc (s.generation + 1)
    | .error (.error (.singularBasis rank required)) =>
      selectFrom preferred gc left (attempt + 1) (.singularBasis rank required) s
    | .error (.error e) => (Attempt.fail (.ofSolver e), s)
    | .error (.fault f) => (.error (.fault f), s)

/-- Lets the solver choose the partition. -/
def selectBasis [DirectSolver σ α S N] (s : Decomposer σ α S N) (nu : Option (Array α))
    (gc : SparseMatrix α) : Attempt (DecompError α) (Decomposition α S N) × Decomposer σ α S N :=
  match s.checkSelection nu gc with
  | .error e => (Attempt.fail e, s)
  | .ok () =>
    let preferred := nu.map fun nu => nu.map fun v => !Scalar.isZero v
    selectFrom preferred gc s.attempts 0 (.singularBasis 0 s.requiredRank) s

/-- Factors the published partition anew for other values of the gradients. -/
def updateBasis (s : Decomposer σ α S N) (gc : SparseMatrix α) :
    Attempt (DecompError α) (Decomposition α S N) × Decomposer σ α S N :=
  match Partition.checkShape gc s.n s.m with
  | .error e => (Attempt.fail e, s)
  | .ok () =>
    match s.decomposition with
    | .error e => (Attempt.fail e, s)
    | .ok current =>
      match basisBlock current.partition gc with
      | .error f => (.error (.fault f), s)
      | .ok block =>
        let (answer, solver) := GuardedSolver.refactor s.solver block current.basis.symbolic
        let s := { s with solver := solver }
        match answer.mapError DecompError.ofSolver with
        | .error e => (.error e, s)
        | .ok basis => publish s current.partition basis gc s.generation

/-- Carries out a call. -/
def perform [DirectSolver σ α S N] (s : Decomposer σ α S N) :
    BasisCall α → Attempt (DecompError α) (Decomposition α S N) × Decomposer σ α S N
  | .set partition gc => setBasis s partition gc
  | .select nu gc => selectBasis s nu gc
  | .update gc => updateBasis s gc

end Calls

/-- A guarded operation that changes a state has the answer of the plain one, leaves the same state,
and neither of them faults. -/
structure Tracks {ε β τ : Type} (guarded plain : Attempt ε β × τ) : Prop where
  eq : guarded = plain
  noFault : NoFault plain.1

section Parts

omit [GuardedFactorization S N α] [Factorization S N α]

omit [Scalar α] in
/-- The checks in front of adopting a partition compare sizes and access nothing. -/
theorem faithful_checkClient (s : Decomposer σ α S N) (partition : Partition)
    (gc : SparseMatrix α) :
    Faithful (checkClient s partition gc) (.ofExcept (s.checkClient partition gc)) := by
  refine ⟨?_, noFault_ofExcept _⟩
  rw [checkClient, Decomposer.checkClient]
  cases Partition.checkShape gc s.n s.m with
  | error e => rfl
  | ok _ =>
    show (if _ then _ else _) = Attempt.ofExcept (if _ then _ else _)
    split
    · rfl
    split
    · rename_i hrank
      rw [minus_eq_ok (Nat.le_of_lt hrank.1)]
      rfl
    · rfl

omit [Scalar α] in
/-- Refining a partition composes permutations of equal length. -/
theorem faithful_refine {partition : Partition} {an : Analysis S N} {n m : Nat}
    (hn : partition.n = n) (hm : partition.m = m) (hrow : an.rowPerm.size ≤ n)
    (hcol : an.colPerm.size ≤ m) :
    Faithful (refine partition an n m : Attempt (DecompError α) Partition)
      (Decomposer.refine partition an n m) := by
  have hrows : an.rowPerm.extendIdentity n = .ok (an.rowPerm.extend n hrow) := dif_pos hrow
  have hcols : an.colPerm.extendIdentity m = .ok (an.colPerm.extend m hcol) := dif_pos hcol
  have hvar : partition.varPerm.compose (an.rowPerm.extend n hrow) = .ok _ :=
    dif_pos (hn.trans (Permutation.size_extend _ _ _).symm)
  have hequ : partition.equPerm.compose (an.colPerm.extend m hcol) = .ok _ :=
    dif_pos (hm.trans (Permutation.size_extend _ _ _).symm)
  rw [refine, Decomposer.refine]
  simp only [hrows, hcols, compose_eq, hvar, hequ, Attempt.ofChecked_ok, ok_bind]
  exact faithful_self (noFault_ofExcept _)

omit [Scalar α] in
/-- Behind the checks all sizes are those of the system. -/
theorem sizes_of_checkClient {s : Decomposer σ α S N} {p : Partition} {gc : SparseMatrix α}
    (h : s.checkClient p gc = .ok ()) :
    p.n = s.n ∧ p.m = s.m ∧ gc.rows = s.n ∧ gc.cols = s.m := by
  rw [Decomposer.checkClient] at h
  obtain ⟨_, hshape, hsizes⟩ := bind_eq_ok_iff.1 h
  obtain ⟨hrows, hcols⟩ := Partition.checkShape_eq_ok_iff.1 hshape
  split at hsizes
  · cases hsizes
  · rename_i hne
    obtain ⟨hn, hm⟩ := not_or.1 hne
    exact ⟨not_not.1 hn, not_not.1 hm, hrows, hcols⟩

end Parts

section Perform

variable {p : Partition} {basis : BasisMatrix S N} {gc : SparseMatrix α}

/-- Publishing a solvable basis never faults where it did not before. -/
theorem tracks_publish (s : Decomposer σ α S N) (h : basis.Solvable) (hrows : gc.rows = p.n)
    (hcols : gc.cols = p.m) (generation : Nat) :
    Tracks (publish s p basis gc generation) (s.publish p basis gc generation) := by
  obtain ⟨heq, hnoFault⟩ := faithful_prepare h hrows hcols s.settings generation
  rw [publish, Decomposer.publish]
  rw [heq]
  cases hprepare : Decomposer.prepare s.settings p basis gc generation with
  | error e => exact ⟨rfl, hnoFault.of_error hprepare⟩
  | ok dec => exact ⟨rfl, noFault_ok dec⟩

variable [DirectSolver σ α S N] [GuardedSolver σ α S N] [Dimensioned S N] [LawfulGuards σ]

/-- Adopting a partition tracks the plain operation. -/
theorem tracks_setBasis (s : Decomposer σ α S N) (p : Partition) (gc : SparseMatrix α) :
    Tracks (setBasis s p gc) (s.setBasis p gc) := by
  rw [setBasis, Decomposer.setBasis]
  rw [(faithful_checkClient s p gc).eq]
  cases hcheck : s.checkClient p gc with
  | error e => exact ⟨rfl, noFault_fail e⟩
  | ok _ =>
    obtain ⟨hn, hm, hrows, hcols⟩ := sizes_of_checkClient hcheck
    obtain ⟨⟨block, hblock⟩, -⟩ := p.exists_blocks (hrows.trans hn.symm) (hcols.trans hm.symm)
    obtain ⟨hbrows, hbcols, -⟩ := Partition.basisBlock_spec hblock
    have hanalyze : GuardedSolver.analyze s.solver block (.ofRank p.rank) =
        DirectSolver.analyze s.solver block (.ofRank p.rank) := LawfulGuards.analyze_eq _ _ _
    have hnoFault : NoFault (DirectSolver.analyze s.solver block (.ofRank p.rank)).1 :=
      LawfulGuards.noFault_analyze _ _ _
    rw [basisBlock_eq hblock, hblock]
    dsimp only [Attempt.ofExcept]
    rw [hanalyze]
    cases han : (DirectSolver.analyze s.solver block (.ofRank p.rank)).1.mapError
        DecompError.ofSolver with
    | error e => exact ⟨rfl, (hnoFault.mapError _).of_error han⟩
    | ok an =>
      have han := Attempt.mapError_eq_ok_iff.1 han
      have hfits := SizedSolver.analyze_fits han
      have hrow : an.rowPerm.size ≤ s.n := by
        rw [hfits.size_rowPerm, hbrows, ← hn]
        exact p.rank_le_n
      have hcol : an.colPerm.size ≤ s.m := by
        rw [hfits.size_colPerm, hbcols, ← hm]
        exact p.rank_le_m
      have hrefine := faithful_refine (α := α) hn hm hrow hcol
      dsimp only
      rw [hrefine.eq]
      cases hrefined : (Decomposer.refine p an s.n s.m : Attempt (DecompError α) Partition) with
      | error e => exact ⟨rfl, hrefine.noFault.of_error hrefined⟩
      | ok refined =>
        have hrefines := Decomposer.refines_of_refine hrefined
        exact tracks_publish _ (LawfulGuards.solvable_analyze han)
          (hrows.trans hrefines.n_eq.symm) (hcols.trans hrefines.m_eq.symm) _

/-- The attempts of a selection do, by induction on how many are left. -/
theorem tracks_selectFrom {s : Decomposer σ α S N} (hrows : gc.rows = s.n) (hcols : gc.cols = s.m)
    (preferred : Option (Array Bool)) (left attempt : Nat) (last : SolverError α) :
    Tracks (selectFrom preferred gc left attempt last s)
      (Decomposer.selectFrom preferred gc left attempt last s) := by
  induction left generalizing attempt last s with
  | zero => exact ⟨rfl, noFault_fail _⟩
  | succ left ih =>
    have hanalyze : GuardedSolver.analyze s.solver gc ⟨s.requiredRank, preferred, attempt⟩ =
        DirectSolver.analyze s.solver gc ⟨s.requiredRank, preferred, attempt⟩ :=
      LawfulGuards.analyze_eq _ _ _
    have hnoFault : NoFault
        (DirectSolver.analyze s.solver gc ⟨s.requiredRank, preferred, attempt⟩).1 :=
      LawfulGuards.noFault_analyze _ _ _
    rw [selectFrom, Decomposer.selectFrom]
    rw [hanalyze]
    dsimp only
    cases han : (DirectSolver.analyze s.solver gc ⟨s.requiredRank, preferred, attempt⟩).1 with
    | ok an =>
      have hfits := SizedSolver.analyze_fits han
      dsimp only
      cases hpartition : (Partition.new an.rowPerm an.colPerm an.rank :
          Except (DecompError α) Partition) with
      | error e => exact ⟨rfl, noFault_fail e⟩
      | ok p =>
        obtain ⟨hvar, hequ, -⟩ := Partition.new_eq_ok_iff.1 hpartition
        refine tracks_publish _ (LawfulGuards.solvable_analyze han) ?_ ?_ _
        · rw [Partition.n, hvar, hfits.size_rowPerm]
        · rw [Partition.m, hequ, hfits.size_colPerm]
    | error failure => cases failure with
      | fault f => exact absurd han (hnoFault f)
      | error e => cases e with
        | singularBasis rank required =>
          refine ih ?_ ?_ _ _
          · exact hrows
          · exact hcols
        | _ => exact ⟨rfl, noFault_fail _⟩

/-- So does a selection. -/
theorem tracks_selectBasis (s : Decomposer σ α S N) (nu : Option (Array α)) (gc : SparseMatrix α) :
    Tracks (selectBasis s nu gc) (s.selectBasis nu gc) := by
  rw [selectBasis, Decomposer.selectBasis]
  cases hcheck : s.checkSelection nu gc with
  | error e => exact ⟨rfl, noFault_fail e⟩
  | ok _ =>
    unfold Decomposer.checkSelection at hcheck
    obtain ⟨_, hshape, -⟩ := bind_eq_ok_iff.1 hcheck
    obtain ⟨hrows, hcols⟩ := Partition.checkShape_eq_ok_iff.1 hshape
    exact tracks_selectFrom hrows hcols _ _ _ _

/-- An update relies on the published partition. -/
theorem tracks_updateBasis {s : Decomposer σ α S N}
    (hs : ∀ dec, s.current = some dec → dec.partition.n = s.n ∧ dec.partition.m = s.m)
    (gc : SparseMatrix α) : Tracks (updateBasis s gc) (s.updateBasis gc) := by
  rw [updateBasis, Decomposer.updateBasis]
  cases hshape : (Partition.checkShape gc s.n s.m : Except (DecompError α) Unit) with
  | error e => exact ⟨rfl, noFault_fail e⟩
  | ok _ =>
    obtain ⟨hrows, hcols⟩ := Partition.checkShape_eq_ok_iff.1 hshape
    unfold Decomposer.decomposition
    cases hcurrent : s.current with
    | none => exact ⟨rfl, noFault_fail _⟩
    | some current =>
      obtain ⟨hn, hm⟩ := hs current hcurrent
      have hrows := hrows.trans hn.symm
      have hcols := hcols.trans hm.symm
      obtain ⟨⟨block, hblock⟩, -⟩ := current.partition.exists_blocks hrows hcols
      have hrefactor : GuardedSolver.refactor s.solver block current.basis.symbolic =
          DirectSolver.refactor s.solver block current.basis.symbolic :=
        LawfulGuards.refactor_eq _ _ _
      have hnoFault : NoFault (DirectSolver.refactor s.solver block current.basis.symbolic).1 :=
        LawfulGuards.noFault_refactor _ _ _
      dsimp only
      rw [basisBlock_eq hblock, hblock]
      dsimp only
      rw [hrefactor]
      cases hbasis : (DirectSolver.refactor s.solver block current.basis.symbolic).1.mapError
          DecompError.ofSolver with
      | error e => exact ⟨rfl, (hnoFault.mapError _).of_error hbasis⟩
      | ok basis =>
        have hbasis := Attempt.mapError_eq_ok_iff.1 hbasis
        exact tracks_publish _ (LawfulGuards.solvable_refactor hbasis) hrows hcols _

/-- In a coherent system every call keeps inside its data and answers without a fault. -/
theorem tracks_perform {s : Decomposer σ α S N} {n m : Nat} {settings : Settings α}
    (hs : s.Coherent n m settings) (call : BasisCall α) :
    Tracks (perform s call) (s.perform call) := by
  cases call with
  | set p gc => exact tracks_setBasis s p gc
  | select nu gc => exact tracks_selectBasis s nu gc
  | update gc =>
    refine tracks_updateBasis (fun dec hdec => ?_) gc
    have hsplits := (hs.proper dec hdec).splits
    exact ⟨hsplits.n_eq.trans hs.n_eq.symm, hsplits.m_eq.trans hs.m_eq.symm⟩

end Perform

end ReducedSpace.Guarded
