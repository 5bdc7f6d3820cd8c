import ReducedSpace.Fault

/-!
# Outcomes of composed operations

An operation that runs others in turn succeeds exactly when each of them does. The equivalences here
take such a composition apart, so that a later proof names the intermediate results and never
unfolds the monad.
-/

namespace ReducedSpace

variable {ε ε' β γ : Type}

/-- A composition succeeds exactly when both operations do, the second on the result of the
first. -/
theorem bind_eq_ok_iff {x : Except ε β} {f : β → Except ε γ} {c : γ} :
    (x >>= f) = .ok c ↔ ∃ b, x = .ok b ∧ f b = .ok c := by
  cases x with
  | error e =>
    constructor
    · intro h
      cases h
    · rintro ⟨b, hb, _⟩
      cases hb
  | ok b =>
    constructor
    · intro h
      exact ⟨b, rfl, h⟩
    · rintro ⟨b', hb, h⟩
      cases hb
      exact h

/-- Changing the result of an operation does not change whether it succeeds. -/
theorem map_eq_ok_iff {x : Except ε β} {f : β → γ} {c : γ} :
    x.map f = .ok c ↔ ∃ b, x = .ok b ∧ f b = c := by
  cases x <;> simp [Except.map]

/-- Nor does it change how the operation fails. -/
theorem map_eq_error_iff {x : Except ε β} {f : β → γ} {e : ε} :
    x.map f = .error e ↔ x = .error e := by
  cases x <;> simp [Except.map]

/-- Changing the result of a composition changes that of its second operation. -/
theorem map_bind_eq {δ : Type} (x : Except ε β) (f : β → Except ε γ) (g : γ → δ) :
    (x >>= f).map g = x >>= fun b => (f b).map g := by
  cases x <;> rfl

/-- An operation on every member of a list succeeds with the list of results. -/
theorem mapM_eq_ok {l : List β} {f : β → Except ε γ} {g : β → γ} (h : ∀ b ∈ l, f b = .ok (g b)) :
    l.mapM f = .ok (l.map g) := by
  induction l with
  | nil => rfl
  | cons b l ih =>
    have hb := h b List.mem_cons_self
    have hl := ih fun b' hb' => h b' (List.mem_cons_of_mem _ hb')
    rw [List.mapM_cons, hb, List.map_cons]
    show (l.mapM f >>= fun r => .ok (g b :: r)) = _
    rw [hl]
    rfl

/-- A requirement that holds lets an operation go on. -/
theorem Checked.require_decide {p : Prop} [Decidable p] (h : p) (f : Fault) :
    Checked.require (decide p) f = .ok () := by
  rw [decide_eq_true h]
  rfl

section Errors

/-- Every error of the operation has the property. -/
def RaisesOnly (p : ε → Prop) (x : Except ε β) : Prop := ∀ e, x = .error e → p e

variable {p : ε → Prop}

/-- A result raises nothing. -/
theorem raisesOnly_ok (b : β) : RaisesOnly p (.ok b) := fun e h => by cases h

/-- An error raises itself. -/
theorem raisesOnly_error {e : ε} (he : p e) : RaisesOnly p (.error e : Except ε β) :=
  fun e' h => by
    cases h
    exact he

/-- A composition has the errors of its parts. -/
theorem RaisesOnly.bind {x : Except ε β} {f : β → Except ε γ} (hx : RaisesOnly p x)
    (hf : ∀ b, RaisesOnly p (f b)) : RaisesOnly p (x >>= f) := by
  cases x with
  | ok b => exact hf b
  | error e => exact raisesOnly_error (hx e rfl)

variable {p : Failure ε → Prop}

/-- A checked operation raises faults only. -/
theorem raisesOnly_ofChecked (hp : ∀ f, p (.fault f)) (x : Checked β) :
    RaisesOnly p (Attempt.ofChecked x) := by
  cases x with
  | ok b => exact raisesOnly_ok b
  | error f => exact raisesOnly_error (hp f)

/-- An operation that cannot fault raises its errors only. -/
theorem raisesOnly_ofExcept {x : Except ε β} (hx : RaisesOnly (fun e => p (.error e)) x) :
    RaisesOnly p (Attempt.ofExcept x) := by
  cases x with
  | ok b => exact raisesOnly_ok b
  | error e => exact raisesOnly_error (hx e rfl)

end Errors

section Faults

/-- The operation does not fault. -/
def NoFault (x : Attempt ε β) : Prop := ∀ f, x ≠ .error (.fault f)

/-- A result is no fault. -/
theorem noFault_ok (b : β) : NoFault (.ok b : Attempt ε β) := fun f h => by cases h

/-- Nor is an error. -/
theorem noFault_fail (e : ε) : NoFault (Attempt.fail e : Attempt ε β) := fun f h => by cases h

/-- An operation that only reports errors does not fault. -/
theorem noFault_ofExcept (x : Except ε β) : NoFault (Attempt.ofExcept x) := by
  cases x with
  | ok b => exact noFault_ok b
  | error e => exact noFault_fail e

/-- An error that an operation without faults reports is not a fault for a larger one either. -/
theorem NoFault.of_error {x : Attempt ε β} (h : NoFault x) {e : Failure ε} (he : x = .error e) :
    NoFault (.error e : Attempt ε γ) :=
  fun f hf => h f (he.trans (congrArg _ (Except.error.inj hf)))

/-- Renaming errors brings in no fault. -/
theorem NoFault.mapError {x : Attempt ε β} (h : NoFault x) (f : ε → ε') :
    NoFault (x.mapError f) := by
  rcases x with (fault | e) | b
  · exact absurd rfl (h fault)
  · exact noFault_fail (f e)
  · exact noFault_ok b

/-- Nor does changing the result. -/
theorem NoFault.map {x : Attempt ε β} (h : NoFault x) (f : β → γ) :
    NoFault (x.map f : Attempt ε γ) := by
  rcases x with (fault | e) | b
  · exact absurd rfl (h fault)
  · exact noFault_fail e
  · exact noFault_ok (f b)

/-- A composition does not fault if its parts do not, the second one on results of the first. -/
theorem NoFault.bind {x : Attempt ε β} {f : β → Attempt ε γ} (hx : NoFault x)
    (hf : ∀ b, x = .ok b → NoFault (f b)) : NoFault (x >>= f) := by
  rcases x with (fault | e) | b
  · exact absurd rfl (hx fault)
  · exact noFault_fail e
  · exact hf b rfl

end Faults

section Correspondence

variable {β' γ' : Type}

/-- The same failure, or results that are related. -/
inductive SameAnswer (r : β → γ → Prop) : Except ε β → Except ε γ → Prop
  | ok {b : β} {c : γ} (related : r b c) : SameAnswer r (.ok b) (.ok c)
  | error (e : ε) : SameAnswer r (.error e) (.error e)

/-- An operation has its own answer. -/
theorem sameAnswer_self (x : Except ε β) : SameAnswer (fun b c => x = .ok b ∧ b = c) x x := by
  cases x with
  | ok b => exact .ok ⟨rfl, rfl⟩
  | error e => exact .error e

/-- Answers that agree in a strong sense agree in every weaker one. -/
theorem SameAnswer.imp {r r' : β → γ → Prop} {x : Except ε β} {y : Except ε γ}
    (h : SameAnswer r x y) (himp : ∀ b c, r b c → r' b c) : SameAnswer r' x y := by
  cases h with
  | ok h => exact .ok (himp _ _ h)
  | error e => exact .error e

/-- Compositions have the same answer if their parts do. -/
theorem SameAnswer.bind {r : β → γ → Prop} {r' : β' → γ' → Prop} {x : Except ε β}
    {y : Except ε γ} {f : β → Except ε β'} {g : γ → Except ε γ'} (h : SameAnswer r x y)
    (hfg : ∀ b c, r b c → SameAnswer r' (f b) (g c)) : SameAnswer r' (x >>= f) (y >>= g) := by
  cases h with
  | ok h => exact hfg _ _ h
  | error e => exact .error e

/-- Agreement is kept if both results are changed alike. -/
theorem SameAnswer.map {r : β → γ → Prop} {r' : β' → γ' → Prop} {x : Except ε β}
    {y : Except ε γ} {f : β → β'} {g : γ → γ'} (h : SameAnswer r x y)
    (hfg : ∀ b c, r b c → r' (f b) (g c)) : SameAnswer r' (x.map f) (y.map g) := by
  cases h with
  | ok h => exact .ok (hfg _ _ h)
  | error e => exact .error e

/-- Checked operations that agree still do where other errors are possible. -/
theorem SameAnswer.ofChecked {r : β → γ → Prop} {x : Checked β} {y : Checked γ}
    (h : SameAnswer r x y) :
    SameAnswer r (Attempt.ofChecked x : Attempt ε β) (Attempt.ofChecked y) := by
  cases h with
  | ok h => exact .ok h
  | error f => exact .error _

variable {q : ε → ε' → Prop} {r : β → γ → Prop} {r' : β' → γ' → Prop}

/-- Related failures, or results that are related. -/
inductive Corresponds (q : ε → ε' → Prop) (r : β → γ → Prop) : Except ε β → Except ε' γ → Prop
  | ok {b : β} {c : γ} (related : r b c) : Corresponds q r (.ok b) (.ok c)
  | error {e : ε} {e' : ε'} (related : q e e') : Corresponds q r (.error e) (.error e')

/-- Compositions correspond if their parts do. -/
theorem Corresponds.bind {x : Except ε β} {y : Except ε' γ} {f : β → Except ε β'}
    {g : γ → Except ε' γ'} (h : Corresponds q r x y)
    (hfg : ∀ b c, r b c → Corresponds q r' (f b) (g c)) :
    Corresponds q r' (x >>= f) (y >>= g) := by
  cases h with
  | ok h => exact hfg _ _ h
  | error h => exact .error h

/-- Correspondence is kept if both results are changed alike. -/
theorem Corresponds.map {x : Except ε β} {y : Except ε' γ} {f : β → β'} {g : γ → γ'}
    (h : Corresponds q r x y) (hfg : ∀ b c, r b c → r' (f b) (g c)) :
    Corresponds q r' (x.map f) (y.map g) := by
  cases h with
  | ok h => exact .ok (hfg _ _ h)
  | error h => exact .error h

/-- Operations that correspond both succeed or both fail. -/
theorem Corresponds.isOk_eq {x : Except ε β} {y : Except ε' γ} (h : Corresponds q r x y) :
    x.isOk = y.isOk := by
  cases h <;> rfl

/-- The same answers correspond if every error corresponds to itself. -/
theorem SameAnswer.corresponds {q : ε → ε → Prop} (hq : ∀ e, q e e) {x : Except ε β}
    {y : Except ε γ} (h : SameAnswer r x y) : Corresponds q r x y := by
  cases h with
  | ok h => exact .ok h
  | error e => exact .error (hq e)

/-- The same fault, or related errors. -/
inductive Failure.Rel (p : ε → ε' → Prop) : Failure ε → Failure ε' → Prop
  | fault (f : Fault) : Rel p (.fault f) (.fault f)
  | error {e : ε} {e' : ε'} (related : p e e') : Rel p (.error e) (.error e')

/-- If every error is related to itself, so is every failure. -/
theorem Failure.Rel.refl {p : ε → ε → Prop} (hp : ∀ e, p e e) (f : Failure ε) : f.Rel p f := by
  cases f with
  | fault f => exact .fault f
  | error e => exact .error (hp e)

/-- A fault is no error, so that nothing is asked of the errors. -/
theorem Corresponds.ofChecked {p : ε → ε' → Prop} {x : Checked β} {y : Checked γ}
    (h : SameAnswer r x y) :
    Corresponds (Failure.Rel p) r (Attempt.ofChecked x) (Attempt.ofChecked y) := by
  cases h with
  | ok h => exact .ok h
  | error f => exact .error (.fault f)

/-- Operations that correspond still do where faults are possible. -/
theorem Corresponds.ofExcept {p : ε → ε' → Prop} {x : Except ε β} {y : Except ε' γ}
    (h : Corresponds p r x y) :
    Corresponds (Failure.Rel p) r (Attempt.ofExcept x) (Attempt.ofExcept y) := by
  cases h with
  | ok h => exact .ok h
  | error h => exact .error (.error h)

end Correspondence

namespace Attempt

@[simp] theorem ofChecked_eq_ok_iff {x : Checked β} {b : β} :
    (ofChecked x : Attempt ε β) = .ok b ↔ x = .ok b := by
  cases x <;> simp [ofChecked]

@[simp] theorem ofExcept_eq_ok_iff {x : Except ε β} {b : β} :
    ofExcept x = .ok b ↔ x = .ok b := by
  cases x <;> simp [ofExcept]

@[simp] theorem mapError_eq_ok_iff {f : ε → ε'} {x : Attempt ε β} {b : β} :
    mapError f x = .ok b ↔ x = .ok b := by
  rcases x with (fault | e) | b' <;> simp [mapError]

@[simp] theorem fail_ne_ok {e : ε} {b : β} : (fail e : Attempt ε β) = .ok b ↔ False := by
  simp [fail]

end Attempt

end ReducedSpace
