import ReducedSpace.Settings
import ReducedSpace.Vec

/-!
# Conditioning monitor

A cheap measure `beta` stands in for the condition number of the basis. The monitor keeps the
smallest measure seen since the basis last changed and asks for a new basis when the measure has
grown too far above that minimum, or when it passes an absolute bound. A measure that is not finite
always triggers.
-/

namespace ReducedSpace

/-- Why the monitor asks for a new basis. -/
inductive IllConditioned (α : Type) where
  /-- The measure grew by more than the allowed factor over its minimum. -/
  | degraded (beta betaMin ratio : α)
  /-- The measure passed the absolute bound or is not finite. -/
  | absoluteExceeded (beta maxCond : α)
  deriving DecidableEq, Repr

/-- The text of the reason. -/
def IllConditioned.message : IllConditioned Float → String
  | degraded beta betaMin ratio =>
    "conditioning degraded: beta = " ++ Decimal.scientific3 beta ++ ", beta_min = "
      ++ Decimal.scientific3 betaMin ++ ", ratio = " ++ Decimal.scientific3 ratio
  | absoluteExceeded beta maxCond =>
    "conditioning bound exceeded: beta = " ++ Decimal.scientific3 beta ++ " > "
      ++ Decimal.scientific3 maxCond

/-- What the monitor says about one measure. -/
inductive Verdict (α : Type) where
  | accept
  | illConditioned (reason : IllConditioned α)
  deriving DecidableEq, Repr

/-- Whether the verdict asks for a new basis. -/
def Verdict.isTrigger {α : Type} : Verdict α → Bool
  | accept => false
  | illConditioned _ => true

namespace Conditioning

variable {α : Type} [Scalar α]

/-- The size of a vector relative to the constraint residual; a tiny amount keeps the quotient
defined when the residual vanishes. -/
def relativeSize (x residual : Array α) : α :=
  Vec.normInf x / (Vec.normInf residual + Scalar.minPositive)

/-- The measure from the quasi-normal step. -/
def betaFromStep (py cDecomp : Array α) : α := relativeSize py cDecomp

/-- The measure from the residual of the range-space solve. -/
def betaFromResidual (residual cDecomp : Array α) : α := relativeSize residual cDecomp

end Conditioning

/-- The bounds of the monitor and what it remembers. -/
structure Monitor (α : Type) where
  maxCondChangeFrac : α
  maxCond : α
  /-- The smallest measure since the basis last changed. -/
  betaMin : α
  /-- The generation of the basis at the last observation. -/
  lastGeneration : Option Nat
  deriving DecidableEq, Repr

namespace Monitor

variable {α : Type} [Scalar α]

/-- A monitor without history. -/
def new (maxCondChangeFrac maxCond : α) : Monitor α :=
  ⟨maxCondChangeFrac, maxCond, Scalar.infinity, none⟩

/-- The monitor that the settings ask for. -/
def ofSettings (s : Settings α) : Monitor α := new s.maxCondChangeFrac s.maxCond

/-- Forget the history; the next observation starts a new baseline. -/
def reset (mon : Monitor α) : Monitor α :=
  { mon with betaMin := Scalar.infinity, lastGeneration := none }

/-- The absolute test, which closes every judgement of a finite measure. -/
def judgeAbsolute (mon : Monitor α) (beta : α) : Verdict α :=
  if Scalar.lt mon.maxCond beta then .illConditioned (.absoluteExceeded beta mon.maxCond)
  else .accept

/-- Judge a measure. A changed basis takes it as the new baseline, a zero measure says nothing, a
new minimum is kept, and any other measure is compared with the minimum. -/
def update (mon : Monitor α) (beta : α) (basisChanged : Bool) : Verdict α × Monitor α :=
  if !Scalar.isFinite beta then (.illConditioned (.absoluteExceeded beta mon.maxCond), mon)
  else if basisChanged then (.accept, { mon with betaMin := beta + Scalar.epsilon })
  else if Scalar.isZero beta then (.accept, mon)
  else if Scalar.lt beta mon.betaMin then
    let mon := { mon with betaMin := beta }
    (mon.judgeAbsolute beta, mon)
  else
    let ratio := beta / mon.betaMin
    if Scalar.lt mon.maxCondChangeFrac ratio then
      (.illConditioned (.degraded beta mon.betaMin ratio), mon)
    else (mon.judgeAbsolute beta, mon)

/-- Judge a measure for the basis of the given generation. -/
def observe (mon : Monitor α) (beta : α) (generation : Nat) : Verdict α × Monitor α :=
  let basisChanged := decide (mon.lastGeneration ≠ some generation)
  { mon with lastGeneration := some generation }.update beta basisChanged

end Monitor

end ReducedSpace
