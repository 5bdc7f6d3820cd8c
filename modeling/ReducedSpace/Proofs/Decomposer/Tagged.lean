import ReducedSpace.Proofs.Decomposition.Tagged
import ReducedSpace.Proofs.Decomposer.Errors
import ReducedSpace.Proofs.Decomposer.Invariant

/-!
# Solvers behind a tag

A solver may be wrapped together with the structures and the factors that it makes. If the wrapped
solver hands every call on to the plain one and wraps what comes back, a system with the wrapped
solver is in every history the wrapped system with the plain one. The wrapping is a homomorphism of
the calls, so what a solver can tell of its tag never shows in a decomposition.

The solver of the settings is such a wrapping of the solver that the settings name. Hence a system
never hands a structure to the wrong solver and never solves with factors that belong to another
structure, and the error and the value that are kept for these cases never occur.
-/

namespace ReducedSpace

variable {α σ S N σ' S' N' : Type}

/-- How the states, the structures and the factors of a solver are wrapped. -/
structure Tagging (σ S N σ' S' N' : Type) where
  solver : σ → σ'
  symbolic : S → S'
  numeric : N → N'

/-- The wrapped solver answers with the wrapped answers of the plain one, and the wrapped factors
solve like the plain ones. -/
structure Tagging.Faithful (t : Tagging σ S N σ' S' N') (α : Type) [Factorization S N α]
    [Factorization S' N' α] [DirectSolver σ α S N] [DirectSolver σ' α S' N'] : Prop where
  name_eq : ∀ s, DirectSolver.name (t.solver s) = DirectSolver.name s
  thresholdAffectsRank_eq : ∀ s,
    DirectSolver.thresholdAffectsRank (t.solver s) = DirectSolver.thresholdAffectsRank s
  analyze_eq : ∀ s a hints, DirectSolver.analyze (t.solver s) a hints =
    ((DirectSolver.analyze s a hints).1.map (.map t.symbolic t.numeric),
      t.solver (DirectSolver.analyze s a hints).2)
  refactor_eq : ∀ s block symbolic,
    DirectSolver.refactor (t.solver s) block (t.symbolic symbolic) =
      ((DirectSolver.refactor s block symbolic).1.map (.map t.symbolic t.numeric),
        t.solver (DirectSolver.refactor s block symbolic).2)
  solvesAlike : SolvesAlike α t.symbolic t.numeric

namespace Decomposer

/-- A system with a wrapped solver and wrapped factors. -/
def map (t : Tagging σ S N σ' S' N') (s : Decomposer σ α S N) : Decomposer σ' α S' N' :=
  { s with
    solver := t.solver s.solver
    current := s.current.map (.map t.symbolic t.numeric) }

/-- An answer and the state after it, both wrapped. -/
def mapAnswer (t : Tagging σ S N σ' S' N')
    (a : Attempt (DecompError α) (Decomposition α S N) × Decomposer σ α S N) :
    Attempt (DecompError α) (Decomposition α S' N') × Decomposer σ' α S' N' :=
  (a.1.map (.map t.symbolic t.numeric), a.2.map t)

section Homomorphism

variable [Scalar α] [Factorization S N α] [Factorization S' N' α] [DirectSolver σ α S N]
  [DirectSolver σ' α S' N'] {t : Tagging σ S N σ' S' N'}

omit [DirectSolver σ α S N] [DirectSolver σ' α S' N'] in
/-- A decomposition may be tagged before or after it is prepared. -/
theorem prepare_map {f : S → S'} {g : N → N'} (h : SolvesAlike α f g) (settings : Settings α)
    (partition : Partition) (basis : BasisMatrix S N) (gc : SparseMatrix α) (generation : Nat) :
    prepare settings partition (basis.map f g) gc generation =
      (prepare settings partition basis gc generation).map (Decomposition.map f g) := by
  rw [prepare, prepare, Decomposition.build_map h, map_bind_eq]
  cases Decomposition.build partition basis gc settings generation with
  | error e => rfl
  | ok dec =>
    show (if settings.testDecomposition then
      (dec.map f g).verify gc settings.testTol >>= fun _ => pure (dec.map f g)
        else pure (dec.map f g)) = Except.map _ (if _ then _ else _)
    rw [(Decomposition.actsAs_map h dec).verify_eq]
    split
    · rw [map_bind_eq]
      rfl
    · rfl

omit [DirectSolver σ α S N] [DirectSolver σ' α S' N'] in
/-- And before or after it is published. -/
theorem publish_map (h : SolvesAlike α t.symbolic t.numeric) (s : Decomposer σ α S N)
    (partition : Partition) (basis : BasisMatrix S N) (gc : SparseMatrix α) (generation : Nat) :
    (s.map t).publish partition (basis.map t.symbolic t.numeric) gc generation =
      mapAnswer t (s.publish partition basis gc generation) := by
  rw [publish, publish, prepare_map h]
  rw [show (s.map t).settings = s.settings from rfl]
  cases prepare s.settings partition basis gc generation with
  | error e => rfl
  | ok dec => rfl

variable (h : t.Faithful α) (s : Decomposer σ α S N)
include h

private theorem setBasis_map (client : Partition) (gc : SparseMatrix α) :
    (s.map t).setBasis client gc = mapAnswer t (s.setBasis client gc) := by
  rw [setBasis, setBasis]
  rw [show (s.map t).checkClient client gc = s.checkClient client gc from rfl]
  cases s.checkClient client gc with
  | error e => rfl
  | ok =>
    cases client.basisBlock gc with
    | error f => rfl
    | ok block =>
      dsimp only
      rw [show (s.map t).solver = t.solver s.solver from rfl, h.analyze_eq]
      generalize DirectSolver.analyze s.solver block (.ofRank client.rank) = answer
      obtain ⟨(fault | e) | an, solver⟩ := answer
      · rfl
      · rfl
      · dsimp only [Except.map, Attempt.mapError]
        rw [show (refine client (an.map t.symbolic t.numeric) (s.map t).n (s.map t).m :
          Attempt (DecompError α) _) = refine client an s.n s.m from rfl]
        cases (refine client an s.n s.m : Attempt (DecompError α) _) with
        | error e => rfl
        | ok partition => exact publish_map h.solvesAlike { s with solver := solver } _ _ _ _

private theorem selectFrom_map (preferred : Option (Array Bool)) (gc : SparseMatrix α)
    (left attempt : Nat) (last : SolverError α) :
    selectFrom preferred gc left attempt last (s.map t) =
      mapAnswer t (selectFrom preferred gc left attempt last s) := by
  induction left generalizing attempt last s with
  | zero => rfl
  | succ left ih =>
    rw [selectFrom, selectFrom]
    rw [show (s.map t).solver = t.solver s.solver from rfl, h.analyze_eq]
    rw [show (s.map t).requiredRank = s.requiredRank from rfl]
    generalize DirectSolver.analyze s.solver gc ⟨s.requiredRank, preferred, attempt⟩ = answer
    obtain ⟨(fault | e) | an, solver⟩ := answer
    · rfl
    · cases e with
      | singularBasis rank required => exact ih { s with solver := solver } _ _
      | _ => rfl
    · dsimp only [Except.map]
      rw [show (Partition.new (an.map t.symbolic t.numeric).rowPerm
        (an.map t.symbolic t.numeric).colPerm (an.map t.symbolic t.numeric).rank :
        Except (DecompError α) _) = Partition.new an.rowPerm an.colPerm an.rank from rfl]
      cases (Partition.new an.rowPerm an.colPerm an.rank : Except (DecompError α) _) with
      | error e => rfl
      | ok partition => exact publish_map h.solvesAlike { s with solver := solver } _ _ _ _

private theorem selectBasis_map (nu : Option (Array α)) (gc : SparseMatrix α) :
    (s.map t).selectBasis nu gc = mapAnswer t (s.selectBasis nu gc) := by
  have hattempts : (s.map t).attempts = s.attempts := by
    rw [attempts, attempts]
    rw [show (s.map t).solver = t.solver s.solver from rfl, h.thresholdAffectsRank_eq]
    rfl
  rw [selectBasis, selectBasis, hattempts]
  rw [show (s.map t).checkSelection nu gc = s.checkSelection nu gc from rfl]
  cases s.checkSelection nu gc with
  | error e => rfl
  | ok => exact selectFrom_map h s _ gc _ _ _

private theorem updateBasis_map (gc : SparseMatrix α) :
    (s.map t).updateBasis gc = mapAnswer t (s.updateBasis gc) := by
  rw [updateBasis, updateBasis]
  rw [show (s.map t).n = s.n from rfl, show (s.map t).m = s.m from rfl]
  cases (Partition.checkShape gc s.n s.m : Except (DecompError α) Unit) with
  | error e => rfl
  | ok =>
    have hdecomposition : (s.map t).decomposition =
        s.decomposition.map (Decomposition.map t.symbolic t.numeric) := by
      rw [decomposition, decomposition]
      rw [show (s.map t).current = s.current.map (.map t.symbolic t.numeric) from rfl]
      cases s.current with
      | none => rfl
      | some current => rfl
    dsimp only
    rw [hdecomposition]
    cases s.decomposition with
    | error e => rfl
    | ok current =>
      dsimp only [Except.map]
      rw [show (current.map t.symbolic t.numeric).partition = current.partition from rfl]
      cases current.partition.basisBlock gc with
      | error f => rfl
      | ok block =>
        have hrefactor : DirectSolver.refactor (s.map t).solver block
            (current.map t.symbolic t.numeric).basis.symbolic = _ :=
          h.refactor_eq s.solver block current.basis.symbolic
        dsimp only
        rw [hrefactor]
        generalize DirectSolver.refactor s.solver block current.basis.symbolic = answer
        obtain ⟨(fault | e) | basis, solver⟩ := answer
        · rfl
        · rfl
        · exact publish_map h.solvesAlike { s with solver := solver } _ _ _ _

/-- A call on the wrapped system is the wrapped call. -/
theorem perform_map (call : BasisCall α) :
    (s.map t).perform call = mapAnswer t (s.perform call) := by
  cases call with
  | set client gc => exact setBasis_map h s client gc
  | select nu gc => exact selectBasis_map h s nu gc
  | update gc => exact updateBasis_map h s gc

/-- So is every run. -/
theorem run_map (calls : List (BasisCall α)) : (s.map t).run calls = (s.run calls).map t := by
  induction calls generalizing s with
  | nil => rfl
  | cons call calls ih =>
    show ((s.map t).perform call).2.run calls = ((s.perform call).2.run calls).map t
    rw [perform_map h s call]
    exact ih (s.perform call).2

end Homomorphism

end Decomposer

end ReducedSpace
