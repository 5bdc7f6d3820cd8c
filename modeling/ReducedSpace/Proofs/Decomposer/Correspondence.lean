import ReducedSpace.Proofs.Decomposer.Invariant

/-!
# Corresponding calls

Two systems with the same solver are given calls that differ in their gradients. If the solver takes
related gradients to related factors, and related factors are prepared to related decompositions,
the calls correspond: they fail for related reasons, or they publish related decompositions. The
relations are parameters. What later calls read of a decomposition must not differ in a way that
the solver can tell.
-/

namespace ReducedSpace

variable {α σ S N : Type}

/-- The same call with other gradients. -/
def BasisCall.withGradients (call : BasisCall α) (gc : SparseMatrix α) : BasisCall α :=
  match call with
  | set partition _ => .set partition gc
  | select nu _ => .select nu gc
  | update _ => .update gc

/-- A call with its own gradients is that call. -/
theorem BasisCall.withGradients_gradients (call : BasisCall α) :
    call.withGradients call.gradients = call := by
  cases call <;> rfl

/-- A call with other gradients has these. -/
theorem BasisCall.gradients_withGradients (call : BasisCall α) (gc : SparseMatrix α) :
    (call.withGradients gc).gradients = gc := by
  cases call <;> rfl

/-- The same error, or related errors of the solver. -/
inductive DecompError.Rel (p : SolverError α → SolverError α → Prop) :
    DecompError α → DecompError α → Prop
  | same (e : DecompError α) : Rel p e e
  | solver {e e' : SolverError α} (related : p e e') : Rel p (.ofSolver e) (.ofSolver e')

/-- Relations between the data of two solves. -/
structure Relations (α S N : Type) where
  gradients : SparseMatrix α → SparseMatrix α → Prop
  symbolic : S → S → Prop
  basis : BasisMatrix S N → BasisMatrix S N → Prop
  error : SolverError α → SolverError α → Prop

namespace Relations

/-- The same order and rank, with related factors. -/
structure Analyses (rel : Relations α S N) (an an' : Analysis S N) : Prop where
  rowPerm_eq : an.rowPerm = an'.rowPerm
  colPerm_eq : an.colPerm = an'.colPerm
  rank_eq : an.rank = an'.rank
  basis : rel.basis an.basis an'.basis

/-- Related gradients have the same size and related blocks. -/
structure Structural (rel : Relations α S N) : Prop where
  rows_eq : ∀ {gc gc'}, rel.gradients gc gc' → gc.rows = gc'.rows
  cols_eq : ∀ {gc gc'}, rel.gradients gc gc' → gc.cols = gc'.cols
  submatrix : ∀ {gc gc'}, rel.gradients gc gc' → ∀ rows cols,
    rel.gradients (gc.submatrix rows cols) (gc'.submatrix rows cols)
  singularBasis_iff : ∀ {e e'}, rel.error e e' → ∀ rank required,
    e = .singularBasis rank required ↔ e' = .singularBasis rank required

/-- A solver without a changing state that treats related matrices and structures alike. -/
structure Respected (rel : Relations α S N) [DirectSolver σ α S N] (solver : σ) : Prop
    extends Structural rel, Decomposer.Stateless solver where
  analyze : ∀ {a a'}, rel.gradients a a' → ∀ hints,
    Corresponds (Failure.Rel rel.error) rel.Analyses
      (DirectSolver.analyze solver a hints).1 (DirectSolver.analyze solver a' hints).1
  refactor : ∀ {block block' symbolic symbolic'}, rel.gradients block block' →
    rel.symbolic symbolic symbolic' →
    Corresponds (Failure.Rel rel.error) rel.basis
      (DirectSolver.refactor solver block symbolic).1
      (DirectSolver.refactor solver block' symbolic').1

variable {rel : Relations α S N} {gc gc' : SparseMatrix α}

/-- Related gradients are selected from alike. -/
theorem Structural.select (h : rel.Structural) (hgc : rel.gradients gc gc')
    (rows cols : Array Nat) :
    SameAnswer rel.gradients (gc.select rows cols) (gc'.select rows cols) := by
  rw [SparseMatrix.select, SparseMatrix.select, h.rows_eq hgc, h.cols_eq hgc]
  split
  · exact .ok (h.submatrix hgc rows cols)
  · exact .error _

/-- And they have the same shape. -/
theorem Structural.checkShape (h : rel.Structural) (hgc : rel.gradients gc gc') (n m : Nat) :
    (Partition.checkShape gc n m : Except (DecompError α) Unit) = Partition.checkShape gc' n m := by
  rw [Partition.checkShape, Partition.checkShape, h.rows_eq hgc, h.cols_eq hgc]

/-- Everything is related to itself only. -/
def equal : Relations α S N := ⟨Eq, Eq, Eq, Eq⟩

/-- A solver without a changing state treats equal matrices alike. -/
theorem respected_equal [DirectSolver σ α S N] {solver : σ} (h : Decomposer.Stateless solver) :
    (equal : Relations α S N).Respected solver where
  toStateless := h
  rows_eq := congrArg _
  cols_eq := congrArg _
  submatrix hgc rows cols := congrArg (fun gc : SparseMatrix α => gc.submatrix rows cols) hgc
  singularBasis_iff he rank required := by
    obtain rfl : _ = _ := he
    exact Iff.rfl
  analyze {a a'} ha hints := by
    obtain rfl : a = a' := ha
    refine ((sameAnswer_self _).imp ?_).corresponds (.refl fun _ => rfl)
    rintro an _ ⟨-, rfl⟩
    exact ⟨rfl, rfl, rfl, rfl⟩
  refactor {block block' symbolic symbolic'} hblock hsymbolic := by
    obtain rfl : block = block' := hblock
    obtain rfl : symbolic = symbolic' := hsymbolic
    exact ((sameAnswer_self _).imp fun _ _ h => h.2).corresponds (.refl fun _ => rfl)

end Relations

/-- Equal errors of the solver are reported as equal errors. -/
theorem DecompError.Rel.eq {e e' : DecompError α} (h : DecompError.Rel Eq e e') : e = e' := by
  cases h with
  | same => rfl
  | solver h => rw [h]

/-- If errors are related by equality only, corresponding answers are the same. -/
theorem Corresponds.sameAnswer {β γ : Type} {r : β → γ → Prop}
    {x : Attempt (DecompError α) β} {y : Attempt (DecompError α) γ}
    (h : Corresponds (Failure.Rel (DecompError.Rel Eq)) r x y) : SameAnswer r x y := by
  rcases h with hr | ⟨f⟩ | he
  · exact .ok hr
  · exact .error _
  · rw [he.eq]
    exact .error _

namespace Decomposer

/-- Two systems in the same state, up to their settings and to a relation between decompositions. -/
structure SameState (r : Decomposition α S N → Decomposition α S N → Prop)
    (s s' : Decomposer σ α S N) : Prop where
  solver_eq : s.solver = s'.solver
  n_eq : s.n = s'.n
  m_eq : s.m = s'.m
  generation_eq : s.generation = s'.generation
  current : Option.Rel r s.current s'.current

/-- Settings that select and refuse alike. -/
structure SameRules (settings settings' : Settings α) : Prop where
  allowUndecomposed_eq : settings.allowUndecomposed = settings'.allowUndecomposed
  maxSelectAttempts_eq : settings.maxSelectAttempts = settings'.maxSelectAttempts

/-- Corresponding answers, and the same state after them. Of what is published the states may keep
less than the answers say. -/
structure Course (q : DecompError α → DecompError α → Prop)
    (r kept : Decomposition α S N → Decomposition α S N → Prop)
    (a a' : Attempt (DecompError α) (Decomposition α S N) × Decomposer σ α S N) : Prop where
  answer : Corresponds (Failure.Rel q) r a.1 a'.1
  state : SameState kept a.2 a'.2

variable {q : DecompError α → DecompError α → Prop}
  {r kept : Decomposition α S N → Decomposition α S N → Prop} {s s' : Decomposer σ α S N}

/-- States that agree in a strong sense agree in every weaker one. -/
theorem SameState.imp (h : SameState r s s')
    {r₁ : Decomposition α S N → Decomposition α S N → Prop}
    (himp : ∀ dec dec', r dec dec' → r₁ dec dec') : SameState r₁ s s' := by
  obtain ⟨solver_eq, n_eq, m_eq, generation_eq, current⟩ := h
  refine ⟨solver_eq, n_eq, m_eq, generation_eq, ?_⟩
  generalize s.current = c at current ⊢
  generalize s'.current = c' at current ⊢
  cases current with
  | none => exact .none
  | some hr => exact .some (himp _ _ hr)

/-- Every state agrees with itself. -/
theorem SameState.refl (hr : ∀ dec, r dec dec) (s : Decomposer σ α S N) : SameState r s s := by
  refine ⟨rfl, rfl, rfl, rfl, ?_⟩
  cases s.current with
  | none => exact .none
  | some dec => exact .some (hr dec)

/-- Two calls that fail with related errors keep states that agree. -/
theorem SameState.failed (h : SameState kept s s') {e e' : Failure (DecompError α)}
    (he : e.Rel q e') : Course q r kept (.error e, s) (.error e', s') := ⟨.error he, h⟩

/-- The second system is the first one with other settings and a related decomposition. -/
theorem SameState.exists_eq (h : SameState r s s') :
    ∃ settings current, s' = { s with settings := settings, current := current } := by
  obtain ⟨solver, settings, n, m, current, generation⟩ := s'
  obtain ⟨rfl, rfl, rfl, rfl, -⟩ := h
  exact ⟨settings, current, rfl⟩

/-- Both systems have a published decomposition, or neither has one. -/
theorem SameState.decomposition (h : SameState r s s') :
    SameAnswer (fun dec dec' => r dec dec' ∧ s.current = some dec ∧ s'.current = some dec')
      s.decomposition s'.decomposition := by
  have hcurrent := h.current
  rw [Decomposer.decomposition, Decomposer.decomposition]
  generalize s.current = current at hcurrent ⊢
  generalize s'.current = current' at hcurrent ⊢
  cases hcurrent with
  | none => exact .error _
  | some hr => exact .ok ⟨hr, rfl, rfl⟩

section Step

variable [Scalar α] [Factorization S N α]

/-- Publishing what is prepared alike keeps two systems in the same state. -/
theorem SameState.publish (h : SameState kept s s')
    (hkept : ∀ dec dec', r dec dec' → kept dec dec') {partition : Partition}
    {basis basis' : BasisMatrix S N} {gc gc' : SparseMatrix α} {generation : Nat}
    (hprepare : Corresponds (Failure.Rel q) r (prepare s.settings partition basis gc generation)
      (prepare s'.settings partition basis' gc' generation)) :
    Course q r kept (s.publish partition basis gc generation)
      (s'.publish partition basis' gc' generation) := by
  rw [Decomposer.publish, Decomposer.publish]
  revert hprepare
  generalize Decomposer.prepare s.settings partition basis gc generation = x
  generalize Decomposer.prepare s'.settings partition basis' gc' generation = y
  rintro (hr | he)
  · exact ⟨.ok hr, h.solver_eq, h.n_eq, h.m_eq, rfl, .some (hkept _ _ hr)⟩
  · exact h.failed he

variable [DirectSolver σ α S N]

/-- What the calls settle on is prepared alike. -/
def PreparesAlike (rel : Relations α S N) (r : Decomposition α S N → Decomposition α S N → Prop)
    (s s' : Decomposer σ α S N) (call : BasisCall α) (gc : SparseMatrix α) : Prop :=
  ∀ partition basis basis', s.Settles call partition basis →
    s'.Settles (call.withGradients gc) partition basis' → rel.basis basis basis' →
    Corresponds (Failure.Rel (DecompError.Rel rel.error)) r
      (prepare s.settings partition basis call.gradients (s.generation + call.newBases))
      (prepare s'.settings partition basis' gc (s.generation + call.newBases))

variable {rel : Relations α S N}

omit [Scalar α] [Factorization S N α] [DirectSolver σ α S N] in
/-- Reporting an error of the solver keeps the correspondence. -/
theorem corresponds_mapError {β γ : Type} {p : SolverError α → SolverError α → Prop}
    {r : β → γ → Prop} {x : Attempt (SolverError α) β} {y : Attempt (SolverError α) γ}
    (h : Corresponds (Failure.Rel p) r x y) :
    Corresponds (Failure.Rel (DecompError.Rel p)) r (x.mapError DecompError.ofSolver)
      (y.mapError DecompError.ofSolver) := by
  rcases h with hr | ⟨f⟩ | he
  · exact .ok hr
  · exact .error (.fault f)
  · exact .error (.error (.solver he))

omit [Scalar α] [Factorization S N α] [DirectSolver σ α S N] in
private theorem SameState.failed_same (h : SameState kept s s') (e : Failure (DecompError α)) :
    Course (DecompError.Rel rel.error) r kept (.error e, s) (.error e, s') :=
  h.failed (.refl .same e)

private theorem SameState.publish_settled (h : SameState kept s s')
    (hkept : ∀ dec dec', r dec dec' → kept dec dec') {call : BasisCall α}
    {gc gc' : SparseMatrix α} (hcall : call.gradients = gc)
    (hprepare : PreparesAlike rel r s s' call gc') {partition : Partition}
    {basis basis' : BasisMatrix S N} (settled : s.Settles call partition basis)
    (settled' : s'.Settles (call.withGradients gc') partition basis')
    (hbasis : rel.basis basis basis') :
    Course (DecompError.Rel rel.error) r kept
      (s.publish partition basis gc (s.generation + call.newBases))
      (s'.publish partition basis' gc' (s'.generation + call.newBases)) := by
  rw [← h.generation_eq]
  exact h.publish hkept (hcall ▸ hprepare partition basis basis' settled settled' hbasis)

omit [Scalar α] [Factorization S N α] [DirectSolver σ α S N] in
private theorem SameState.requiredRank_eq (h : SameState kept s s')
    (hrules : SameRules s.settings s'.settings) : s'.requiredRank = s.requiredRank := by
  rw [requiredRank, requiredRank, hrules.allowUndecomposed_eq, h.m_eq]

omit [Scalar α] [Factorization S N α] in
private theorem SameState.attempts_eq (h : SameState kept s s')
    (hrules : SameRules s.settings s'.settings) : s'.attempts = s.attempts := by
  rw [attempts, attempts, hrules.maxSelectAttempts_eq, h.solver_eq]

omit [Factorization S N α] in
/-- A solver without a changing state settles on what it finds for the hints of an attempt. -/
private theorem settles_select (hsolver : Stateless s.solver) {nu : Option (Array α)}
    {gc : SparseMatrix α} {attempt : Nat} {an : Analysis S N} {partition : Partition}
    (hcheck : s.checkSelection nu gc = .ok ()) (hlt : attempt < s.attempts)
    (hanalysis : (DirectSolver.analyze s.solver gc (s.selectionHints nu attempt)).1 = .ok an)
    (hpartition : (Partition.new an.rowPerm an.colPerm an.rank :
      Except (DecompError α) Partition) = .ok partition) :
    s.Settles (.select nu gc) partition an.basis := by
  rw [← hsolver.solverAfter_eq nu gc attempt] at hanalysis
  exact .select hcheck hlt hanalysis hpartition

variable (hrel : rel.Respected s.solver) (h : SameState kept s s')
  (hkept : ∀ dec dec', r dec dec' → kept dec dec')
  (hrules : SameRules s.settings s'.settings) {gc gc' : SparseMatrix α}
  (hgc : rel.gradients gc gc')
include hrel h hkept hrules hgc

private theorem course_set (client : Partition)
    (hprepare : PreparesAlike rel r s s' (.set client gc) gc') :
    Course (DecompError.Rel rel.error) r kept (s.setBasis client gc) (s'.setBasis client gc') := by
  have hcheck : s'.checkClient client gc' = s.checkClient client gc := by
    unfold checkClient
    rw [hrel.checkShape hgc, h.n_eq, h.m_eq, hrules.allowUndecomposed_eq]
  have hblock : SameAnswer rel.gradients (client.basisBlock gc) (client.basisBlock gc') :=
    hrel.select hgc _ _
  obtain ⟨t, current, rfl⟩ := h.exists_eq
  rw [setBasis, setBasis, hcheck]
  cases hchecked : s.checkClient client gc with
  | error e => exact h.failed_same _
  | ok =>
    dsimp only
    generalize hx : client.basisBlock gc = x at hblock ⊢
    generalize hy : client.basisBlock gc' = y at hblock ⊢
    cases hblock with
    | error f => exact h.failed_same _
    | @ok block block' hblock =>
      dsimp only
      have hanalysis := corresponds_mapError (hrel.analyze hblock (.ofRank client.rank))
      rw [hrel.state_analyze, hrel.state_analyze]
      generalize han : Attempt.mapError DecompError.ofSolver
        (DirectSolver.analyze s.solver block (.ofRank client.rank)).1 = x at hanalysis ⊢
      generalize han' : Attempt.mapError DecompError.ofSolver
        (DirectSolver.analyze s.solver block' (.ofRank client.rank)).1 = y at hanalysis ⊢
      cases hanalysis with
      | error he => exact h.failed he
      | @ok an an' hanalysis =>
        have hrefine : (refine client an' s.n s.m : Attempt (DecompError α) _) =
            refine client an s.n s.m := by
          unfold refine
          rw [hanalysis.rowPerm_eq, hanalysis.colPerm_eq]
        dsimp only
        rw [hrefine]
        cases hrefined : (refine client an s.n s.m : Attempt (DecompError α) _) with
        | error e => exact h.failed_same e
        | ok partition =>
          exact h.publish_settled hkept rfl hprepare
            (.set hchecked hx (Attempt.mapError_eq_ok_iff.1 han) hrefined)
            (.set (hcheck.trans hchecked) hy (Attempt.mapError_eq_ok_iff.1 han')
              (hrefine.trans hrefined)) hanalysis.basis

private theorem course_update (hr : ∀ dec dec', kept dec dec' → dec.partition = dec'.partition ∧
      rel.symbolic dec.basis.symbolic dec'.basis.symbolic)
    (hprepare : PreparesAlike rel r s s' (.update gc) gc') :
    Course (DecompError.Rel rel.error) r kept (s.updateBasis gc) (s'.updateBasis gc') := by
  have hshape := hrel.checkShape hgc s.n s.m
  have hdecomposition := h.decomposition
  obtain ⟨t, current', rfl⟩ := h.exists_eq
  rw [updateBasis, updateBasis]
  dsimp only
  rw [← hshape]
  cases hchecked : (Partition.checkShape gc s.n s.m : Except (DecompError α) Unit) with
  | error e => exact h.failed_same _
  | ok =>
    dsimp only
    generalize s.decomposition = x at hdecomposition ⊢
    generalize Decomposer.decomposition _ = y at hdecomposition ⊢
    cases hdecomposition with
    | error e => exact h.failed_same _
    | @ok dec dec' hdec =>
      obtain ⟨hdec, hpublished, hpublished'⟩ := hdec
      obtain ⟨hpartition, hsymbolic⟩ := hr dec dec' hdec
      have hblock : SameAnswer rel.gradients (dec.partition.basisBlock gc)
          (dec'.partition.basisBlock gc') := hpartition ▸ hrel.select hgc _ _
      dsimp only
      generalize hx : dec.partition.basisBlock gc = x at hblock ⊢
      generalize hy : dec'.partition.basisBlock gc' = y at hblock ⊢
      cases hblock with
      | error f => exact h.failed_same _
      | @ok block block' hblock =>
        have hrefactor := corresponds_mapError (hrel.refactor hblock hsymbolic)
        dsimp only
        rw [hrel.state_refactor, hrel.state_refactor]
        generalize hb : Attempt.mapError DecompError.ofSolver
          (DirectSolver.refactor s.solver block dec.basis.symbolic).1 = x at hrefactor ⊢
        generalize hb' : Attempt.mapError DecompError.ofSolver
          (DirectSolver.refactor s.solver block' dec'.basis.symbolic).1 = y at hrefactor ⊢
        cases hrefactor with
        | error he => exact h.failed he
        | @ok basis basis' hbasis =>
          have settled : s.Settles (.update gc) dec.partition basis :=
            .update hchecked hpublished hx (Attempt.mapError_eq_ok_iff.1 hb)
          have settled' : Settles { s with settings := t, current := current' } (.update gc')
              dec'.partition basis' :=
            .update (hshape.symm.trans hchecked) hpublished' hy (Attempt.mapError_eq_ok_iff.1 hb')
          dsimp only
          rw [← hpartition] at settled' ⊢
          exact h.publish_settled hkept rfl hprepare settled settled' hbasis

private theorem course_selectFrom {nu : Option (Array α)}
    (hcheck : s.checkSelection nu gc = .ok ()) (hcheck' : s'.checkSelection nu gc' = .ok ())
    (hprepare : PreparesAlike rel r s s' (.select nu gc) gc') (left attempt : Nat)
    (hleft : attempt + left ≤ s.attempts) {last last' : SolverError α}
    (hlast : DecompError.Rel rel.error (.ofSolver last) (.ofSolver last')) :
    Course (DecompError.Rel rel.error) r kept
      (selectFrom (s.selectionHints nu attempt).preferredRows gc left attempt last s)
      (selectFrom (s.selectionHints nu attempt).preferredRows gc' left attempt last' s') := by
  have hrank := h.requiredRank_eq hrules
  have hattempts := h.attempts_eq hrules
  obtain ⟨t, current', rfl⟩ := h.exists_eq
  -- Only a rank deficient analysis goes on to the next attempt, and related errors agree on that.
  induction left generalizing attempt last last' with
  | zero => exact h.failed (.error hlast)
  | succ left ih =>
    have hlt : attempt < s.attempts := by omega
    have hhints : selectionHints { s with settings := t, current := current' } nu attempt =
        s.selectionHints nu attempt := by
      rw [selectionHints, selectionHints, hrank]
    have hanalysis := hrel.analyze hgc (s.selectionHints nu attempt)
    have hhints_eq : (⟨s.requiredRank, (s.selectionHints nu attempt).preferredRows, attempt⟩ :
        AnalysisHints) = s.selectionHints nu attempt := rfl
    rw [selectFrom, selectFrom, hrank, hhints_eq]
    dsimp only
    rw [hrel.state_analyze, hrel.state_analyze]
    generalize han : (DirectSolver.analyze s.solver gc (s.selectionHints nu attempt)).1 = x
      at hanalysis ⊢
    generalize han' : (DirectSolver.analyze s.solver gc' (s.selectionHints nu attempt)).1 = y
      at hanalysis ⊢
    rcases hanalysis with @⟨an, an', hanalysis⟩ | ⟨f⟩ | @⟨e, e', he⟩
    · have hformed : (Partition.new an'.rowPerm an'.colPerm an'.rank :
          Except (DecompError α) Partition) = Partition.new an.rowPerm an.colPerm an.rank := by
        rw [hanalysis.rowPerm_eq, hanalysis.colPerm_eq, hanalysis.rank_eq]
      dsimp only
      rw [hformed]
      cases hpartition : (Partition.new an.rowPerm an.colPerm an.rank :
          Except (DecompError α) Partition) with
      | error e => exact h.failed_same _
      | ok partition =>
        have settled := settles_select hrel.toStateless hcheck hlt han hpartition
        rw [← hattempts] at hlt
        rw [← hhints] at han'
        have settled' := settles_select (s := { s with settings := t, current := current' })
          hrel.toStateless hcheck' hlt han' (hformed.trans hpartition)
        exact h.publish_settled hkept rfl hprepare settled settled' hanalysis.basis
    · exact h.failed_same _
    · cases e with
      | singularBasis rank required =>
        obtain rfl := (hrel.singularBasis_iff he rank required).1 rfl
        exact ih (attempt + 1) (by omega) (.same _)
      | _ =>
        cases e' with
        | singularBasis rank required => cases (hrel.singularBasis_iff he rank required).2 rfl
        | _ => exact h.failed (.error (.solver he))

private theorem course_select (nu : Option (Array α))
    (hprepare : PreparesAlike rel r s s' (.select nu gc) gc') :
    Course (DecompError.Rel rel.error) r kept (s.selectBasis nu gc) (s'.selectBasis nu gc') := by
  have hcheck : s'.checkSelection nu gc' = s.checkSelection nu gc := by
    unfold checkSelection
    rw [hrel.checkShape hgc, h.n_eq, h.m_eq]
  rw [selectBasis, selectBasis, hcheck, h.requiredRank_eq hrules, h.attempts_eq hrules]
  cases hchecked : s.checkSelection nu gc with
  | error e => exact h.failed_same _
  | ok =>
    exact course_selectFrom hrel h hkept hrules hgc hchecked (hcheck.trans hchecked) hprepare
      s.attempts 0 (by omega) (.same _)

omit hgc in
/-- Calls with related gradients correspond. -/
theorem course_perform (call : BasisCall α) (hgc : rel.gradients call.gradients gc')
    (hr : ∀ dec dec', kept dec dec' → dec.partition = dec'.partition ∧
      rel.symbolic dec.basis.symbolic dec'.basis.symbolic)
    (hprepare : PreparesAlike rel r s s' call gc') :
    Course (DecompError.Rel rel.error) r kept (s.perform call)
      (s'.perform (call.withGradients gc')) := by
  cases call with
  | set client gc => exact course_set hrel h hkept hrules hgc client hprepare
  | select nu gc => exact course_select hrel h hkept hrules hgc nu hprepare
  | update gc => exact course_update hrel h hkept hrules hgc hr hprepare

end Step

section Run

variable [Scalar α] [Factorization S N α] [DirectSolver σ α S N]

/-- No call changes the settings. -/
theorem settings_perform (s : Decomposer σ α S N) (call : BasisCall α) :
    (s.perform call).2.settings = s.settings := by
  have h := s.perform_outcome call
  generalize s.perform call = answer at h ⊢
  cases h with
  | failed => rfl
  | published => rfl

/-- What related calls preserve holds after related histories. -/
theorem run_related (invariant : Decomposer σ α S N → Decomposer σ α S N → Prop)
    (related : BasisCall α → SparseMatrix α → Prop)
    (hstep : ∀ s s', invariant s s' → ∀ call gc, related call gc →
      invariant (s.perform call).2 (s'.perform (call.withGradients gc)).2)
    (h : invariant s s') {history : List (BasisCall α × SparseMatrix α)}
    (hhistory : ∀ e ∈ history, related e.1 e.2) :
    invariant (s.run (history.map fun e => e.1))
      (s'.run (history.map fun e => e.1.withGradients e.2)) := by
  induction history generalizing s s' with
  | nil => exact h
  | cons e history ih =>
    exact ih (hstep s s' h e.1 e.2 (hhistory e List.mem_cons_self)) fun e' he' =>
      hhistory e' (List.mem_cons_of_mem _ he')

end Run

end Decomposer

end ReducedSpace
