import ReducedSpace.Proofs.Conditioning.Baseline
import ReducedSpace.Proofs.Sparse.NotANumber

/-!
# What the monitor makes of components that are no numbers

A measure of conditioning is the quotient of two largest magnitudes. So it is infinite or a NaN for
a vector with an infinite component, and for any other vector it is the measure of the components
that are numbers. The monitor triggers on the first and cannot see what is missing in the second.
-/

namespace ReducedSpace

variable {α : Type} [Scalar α]

section Measures

variable [SpecialValues α] {x c : Array α}

/-- A relative size is that of the numbers alone. -/
theorem relativeSize_numbers (x c : Array α) :
    Conditioning.relativeSize (Vec.numbers x) c = Conditioning.relativeSize x c := by
  rw [Conditioning.relativeSize, normInf_numbers]
  rfl

/-- With an infinite entry it is not finite. -/
theorem relativeSize_of_hasInfinite (h : Vec.HasInfinite x) (c : Array α) :
    Scalar.isFinite (Conditioning.relativeSize x c) = false := by
  rw [Conditioning.relativeSize, normInf_of_hasInfinite h]
  exact SpecialValues.isFinite_infinity_div _

/-- Without any number it is zero. -/
theorem relativeSize_of_allNaN (h : Vec.AllNaN x) (c : Array α) :
    Conditioning.relativeSize x c = 0 := by
  obtain ⟨v, hv, hnorm⟩ := isMagnitude_normInf c
  rw [Conditioning.relativeSize, normInf_of_allNaN h, hnorm]
  exact SpecialValues.zero_div (SpecialValues.abs_add_pos hv SpecialValues.zero_lt_minPositive)

/-- The monitor accepts the measure zero in every state. -/
theorem Monitor.observe_zero (mon : Monitor α) (generation : Nat) :
    (mon.observe 0 generation).1 = .accept := by
  by_cases hsame : mon.lastGeneration = some generation
  · have hold : ¬mon.lastGeneration ≠ some generation := fun hne => hne hsame
    rw [Monitor.observe, Monitor.update, SpecialValues.isFinite_zero, decide_eq_false hold,
      SpecialValues.isZero_zero]
    rfl
  · rw [Monitor.observe_of_new SpecialValues.isFinite_zero hsame]

/-- The monitor triggers on an infinite component, whatever it remembers. -/
theorem Monitor.observe_of_hasInfinite (mon : Monitor α) (h : Vec.HasInfinite x) (c : Array α)
    (generation : Nat) :
    (mon.observe (Conditioning.relativeSize x c) generation).1.isTrigger = true := by
  rw [Monitor.observe_of_not_finite (relativeSize_of_hasInfinite h c)]
  rfl

/-- The monitor accepts a vector without a number, whatever it remembers. -/
theorem Monitor.observe_of_allNaN (mon : Monitor α) (h : Vec.AllNaN x) (c : Array α)
    (generation : Nat) :
    (mon.observe (Conditioning.relativeSize x c) generation).1 = .accept := by
  rw [relativeSize_of_allNaN h, mon.observe_zero]

end Measures

end ReducedSpace
