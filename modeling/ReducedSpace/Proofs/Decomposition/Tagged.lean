import ReducedSpace.Proofs.Outcome
import ReducedSpace.Decomposition.SelfTest

/-!
# Factors behind a tag

The two halves of a factored block may be wrapped before they are paired. If the wrapped halves
solve like the plain ones, a decomposition with wrapped factors is the plain one with its factors
wrapped: it is built or refused for the same reasons, and all its operators, steps and tests are the
same.
-/

namespace ReducedSpace

variable {α S N S' N' : Type}

/-- A factored block with other halves. -/
def BasisMatrix.map (f : S → S') (g : N → N') (b : BasisMatrix S N) : BasisMatrix S' N' :=
  ⟨b.dim, f b.symbolic, g b.numeric⟩

/-- A decomposition whose factors have other halves. -/
def Decomposition.map (f : S → S') (g : N → N') (dec : Decomposition α S N) :
    Decomposition α S' N' :=
  { dec with basis := dec.basis.map f g }

/-- Wrapped halves solve like the plain ones. -/
def SolvesAlike (α : Type) [Factorization S N α] [Factorization S' N' α] (f : S → S')
    (g : N → N') : Prop :=
  ∀ s n o (x : Array α),
    Factorization.solve (f s) (g n) o x = Factorization.solve s n o x

variable [Factorization S N α] [Factorization S' N' α] {f : S → S'} {g : N → N'}

theorem SolvesAlike.solve_eq (h : SolvesAlike α f g) (b : BasisMatrix S N) :
    (b.map f g).solve = b.solve := by
  funext o x
  exact congrArg (Checked.sameLength b.dim x.size >>= fun _ => ·) (h b.symbolic b.numeric o x)

namespace Decomposition

variable [Scalar α]

/-- Two decompositions, perhaps with factors of different types, whose factors solve alike and which
have the same operators, steps, measures and tests. -/
structure ActsAs (dec : Decomposition α S N) (dec' : Decomposition α S' N') : Prop where
  partition_eq : dec.partition = dec'.partition
  generation_eq : dec.generation = dec'.generation
  dim_eq : dec.basis.dim = dec'.basis.dim
  solve_eq : dec.basis.solve = dec'.basis.solve
  toInverse_eq : dec.basis.toInverse = dec'.basis.toInverse
  formed_eq : dec.formed? = dec'.formed?
  c_eq : dec.c = dec'.c
  cInverse_eq : dec.cInverse = dec'.cInverse
  d_eq : dec.d = dec'.d
  y_eq : dec.y = dec'.y
  z_eq : dec.z = dec'.z
  r_eq : dec.r = dec'.r
  rInverse_eq : dec.rInverse = dec'.rInverse
  uy_eq : dec.uy? = dec'.uy?
  uz_eq : dec.uz? = dec'.uz?
  quasiNormalStep_eq : ∀ c, dec.quasiNormalStep c = dec'.quasiNormalStep c
  rangeResidual_eq : ∀ py c, dec.rangeResidual py c = dec'.rangeResidual py c
  rangeSpaceStep_eq : ∀ py, dec.rangeSpaceStep py = dec'.rangeSpaceStep py
  beta_eq : ∀ source py c, dec.beta source py c = dec'.beta source py c
  selfTest_eq : ∀ gc, dec.selfTest gc = dec'.selfTest gc
  verify_eq : ∀ gc tol, dec.verify gc tol = dec'.verify gc tol

/-- Wrapping the factors changes nothing that is computed with them. -/
theorem actsAs_map (h : SolvesAlike α f g) (dec : Decomposition α S N) :
    (dec.map f g).ActsAs dec := by
  have hsolve : (dec.map f g).basis.solve = dec.basis.solve := h.solve_eq dec.basis
  have hcInverse : (dec.map f g).cInverse = dec.cInverse := by
    show (⟨_, (dec.map f g).basis.solve .transposed, (dec.map f g).basis.solve .plain⟩ :
      InverseOperator α) = _
    rw [hsolve]
    rfl
  have hd : (dec.map f g).d = dec.d := by
    rw [d, hcInverse]
    rfl
  have hz : (dec.map f g).z = dec.z := congrArg nullSpace hd
  have hrInverse : (dec.map f g).rInverse = dec.rInverse := by
    rw [rInverse, hcInverse]
    rfl
  have htest (gc : SparseMatrix α) : (dec.map f g).selfTest gc = dec.selfTest gc := by
    unfold selfTest
    rw [hd, hz]
    rfl
  exact {
    partition_eq := rfl
    generation_eq := rfl
    dim_eq := rfl
    solve_eq := hsolve
    toInverse_eq := by
      rw [BasisMatrix.toInverse, hsolve]
      rfl
    formed_eq := rfl
    c_eq := rfl
    cInverse_eq := hcInverse
    d_eq := hd
    y_eq := rfl
    z_eq := hz
    r_eq := rfl
    rInverse_eq := hrInverse
    uy_eq := rfl
    uz_eq := congrArg (fun z => dec.undecomposed.map fun gu => projected gu z) hz
    quasiNormalStep_eq := fun c => by
      unfold quasiNormalStep
      rw [hrInverse]
      rfl
    rangeResidual_eq := fun _ _ => rfl
    rangeSpaceStep_eq := fun _ => rfl
    beta_eq := fun _ _ _ => rfl
    selfTest_eq := htest
    verify_eq := fun gc tol => by
      unfold verify
      rw [htest gc] }

variable (h : SolvesAlike α f g) (basis : BasisMatrix S N)
include h

theorem storeSensitivity_map (settings : Settings α) (rank : Nat) (n : SparseMatrix α) :
    storeSensitivity settings rank (basis.map f g) n = storeSensitivity settings rank basis n := by
  have hcolumn : sensitivityColumn (basis.map f g) n = sensitivityColumn basis n := by
    funext j
    unfold sensitivityColumn
    rw [h.solve_eq]
  unfold storeSensitivity formSensitivity
  rw [hcolumn]

/-- With wrapped factors the wrapped decomposition is built, or the same is reported. -/
theorem build_map (partition : Partition) (gc : SparseMatrix α) (settings : Settings α)
    (generation : Nat) :
    build partition (basis.map f g) gc settings generation =
      (build partition basis gc settings generation).map (Decomposition.map f g) := by
  unfold build
  simp only [storeSensitivity_map h]
  rw [show (basis.map f g).dim = basis.dim from rfl]
  split
  · rfl
  rw [map_bind_eq]
  refine congrArg _ (funext fun c => ?_)
  rw [map_bind_eq]
  refine congrArg _ (funext fun n => ?_)
  split
  · rw [map_bind_eq]
    refine congrArg _ (funext fun u => ?_)
    rw [map_bind_eq]
    rfl
  · rw [pure_bind, pure_bind, map_bind_eq]
    rfl

end Decomposition

end ReducedSpace
