/-!
# Faults and failures

A *fault* is a broken precondition of a vector or matrix operation: a vector of the wrong length or
an index outside its range. A *failure* of a larger operation is either such a fault or an error of
the domain, which the caller is expected to handle. The two are kept apart so that "never faults" is
a statement about values of this library.
-/

namespace ReducedSpace

/-- A broken precondition of a vector or matrix operation. -/
inductive Fault where
  /-- A vector or matrix has another size than the operation works on. -/
  | length
  /-- An index lies outside the vector, matrix or permutation it is used on. -/
  | index
  deriving DecidableEq, Repr

/-- The result of an operation that checks its preconditions. -/
abbrev Checked (β : Type) : Type := Except Fault β

namespace Checked

/-- Fails with `fault` unless the condition holds. -/
def require (condition : Bool) (fault : Fault) : Checked Unit :=
  if condition then .ok () else .error fault

@[simp] theorem require_true (fault : Fault) : require true fault = .ok () := rfl

@[simp] theorem require_false (fault : Fault) : require false fault = .error fault := rfl

/-- Fails unless the two sizes agree. -/
def sameLength (expected actual : Nat) : Checked Unit :=
  require (decide (expected = actual)) .length

@[simp] theorem sameLength_self (n : Nat) : sameLength n n = .ok () := by
  simp [sameLength]

/-- The check of two lengths passes if they are equal. -/
theorem sameLength_eq_ok_iff {expected actual : Nat} :
    sameLength expected actual = .ok () ↔ expected = actual := by
  rw [sameLength, require]
  split <;> simp_all

end Checked

/-- Why an operation of the domain gave no result. -/
inductive Failure (ε : Type) where
  /-- A precondition was broken. -/
  | fault (fault : Fault)
  /-- The operation reports an error. -/
  | error (error : ε)
  deriving DecidableEq, Repr

/-- The result of an operation that may fault or report an error. -/
abbrev Attempt (ε β : Type) : Type := Except (Failure ε) β

namespace Attempt

variable {ε ε' β : Type}

/-- Report an error of the domain. -/
def fail (e : ε) : Attempt ε β := .error (.error e)

/-- A checked operation inside a larger one. -/
def ofChecked : Checked β → Attempt ε β
  | .ok b => .ok b
  | .error f => .error (.fault f)

/-- An operation that reports errors but never faults, inside a larger one. -/
def ofExcept : Except ε β → Attempt ε β
  | .ok b => .ok b
  | .error e => .error (.error e)

/-- The same result with the errors reclassified; faults stay faults. -/
def mapError (f : ε → ε') : Attempt ε β → Attempt ε' β
  | .ok b => .ok b
  | .error (.fault fault) => .error (.fault fault)
  | .error (.error e) => .error (.error (f e))

@[simp] theorem ofChecked_ok (b : β) : (ofChecked (.ok b) : Attempt ε β) = .ok b := rfl

@[simp] theorem ofChecked_error (f : Fault) :
    (ofChecked (.error f) : Attempt ε β) = .error (.fault f) := rfl

@[simp] theorem ofExcept_ok (b : β) : (ofExcept (.ok b) : Attempt ε β) = .ok b := rfl

@[simp] theorem ofExcept_error (e : ε) :
    (ofExcept (.error e) : Attempt ε β) = .error (.error e) := rfl

@[simp] theorem mapError_ok (f : ε → ε') (b : β) : mapError f (.ok b) = .ok b := rfl

@[simp] theorem mapError_fault (f : ε → ε') (fault : Fault) :
    (mapError f (.error (.fault fault)) : Attempt ε' β) = .error (.fault fault) := rfl

@[simp] theorem mapError_error (f : ε → ε') (e : ε) :
    (mapError f (.error (.error e)) : Attempt ε' β) = .error (.error (f e)) := rfl

end Attempt

end ReducedSpace
