import ReducedSpace.Decomposition.Views
import ReducedSpace.Conditioning

/-!
# Steps in the range space

The quasi-normal step, its residual and the step it makes in the space of all variables. Constraint
residuals and full steps are in the caller's order, range-space vectors in the order of the
decomposition. A vector of the wrong length is an error of the domain here.
-/

namespace ReducedSpace.Decomposition

variable {α S N : Type} [Scalar α] [Factorization S N α] (dec : Decomposition α S N)

omit [Factorization S N α] in
/-- The decomposed entries of a constraint residual. -/
def decomposedResidual (c : Array α) : Except (DecompError α) (Array α) :=
  if c.size = dec.partition.m then .ok (dec.partition.decompEqus.map fun j => c.getD j 0)
  else .error (.dimensionMismatch "constraint residual" dec.partition.m c.size)

omit [Scalar α] [Factorization S N α] in
/-- A range-space vector has one entry per decomposed equation. -/
def checkStep (py : Array α) : Except (DecompError α) Unit :=
  if py.size = dec.rank then .ok ()
  else .error (.dimensionMismatch "quasi-normal step" dec.rank py.size)

/-- The quasi-normal step: the negative solution of `R py = c` for the decomposed entries of `c`. -/
def quasiNormalStep (c : Array α) : Attempt (DecompError α) (Array α) := do
  let cd ← .ofExcept (dec.decomposedResidual c)
  let py ← .ofChecked (dec.rInverse.solve cd)
  return Vec.neg py

/-- The residual `R py + c` of the range-space solve. -/
def rangeResidual (py c : Array α) : Attempt (DecompError α) (Array α) := do
  let cd ← .ofExcept (dec.decomposedResidual c)
  .ofExcept (dec.checkStep py)
  let rpy ← .ofChecked (dec.r.apply py)
  return Vec.add cd rpy

/-- The step `Y py` in the caller's order of the variables. -/
def rangeSpaceStep (py : Array α) : Attempt (DecompError α) (Array α) := do
  .ofExcept (dec.checkStep py)
  let step ← .ofChecked (dec.y.apply py)
  .ofChecked (dec.partition.unpermuteVars step)

/-- The measure of conditioning for a step `py` and a constraint residual `c`. -/
def beta (source : BetaSource) (py c : Array α) : Attempt (DecompError α) α := do
  let cd ← .ofExcept (dec.decomposedResidual c)
  .ofExcept (dec.checkStep py)
  match source with
  | .quasiNormalStep => return Conditioning.betaFromStep py cd
  | .rangeResidual => return Conditioning.betaFromResidual (← dec.rangeResidual py c) cd

end ReducedSpace.Decomposition
