import ReducedSpace.Operator
import ReducedSpace.Proofs.Outcome
import ReducedSpace.Proofs.Permutation.Tables

/-!
# The laws of permutations

A permutation acts on vectors by gathering, and a composite is the outer permutation first, then the
inner one in the order that the outer one produced. The laws are stated for the checked operations,
so that they also say when an operation is refused. Entries are only copied, hence nothing depends
on the arithmetic.
-/

namespace ReducedSpace

namespace Permutation

variable {p q s : Permutation}

section Composition

/-- Permutations of one length compose. -/
theorem compose_eq_ok (h : p.size = q.size) : p.compose q = .ok (p.after q h) := dif_pos h

/-- Permutations of different lengths do not. -/
theorem compose_eq_error (h : p.size ≠ q.size) : p.compose q = .error .length := dif_neg h

/-- A permutation extends to every length that is not less than its own. -/
theorem extendIdentity_eq_ok {n : Nat} (h : p.size ≤ n) :
    p.extendIdentity n = .ok (p.extend n h) := dif_pos h

/-- It does not extend to less. -/
theorem extendIdentity_eq_error {n : Nat} (h : ¬p.size ≤ n) :
    p.extendIdentity n = .error .length := dif_neg h

/-- The inverse of a composition composes the inverses in the opposite order. -/
theorem inverse_after (h : p.size = q.size) :
    (p.after q h).inverse = q.inverse.after p.inverse (by simp [h]) :=
  ext_old (by simp [h]) (by simp)

/-- The inverse of an extension extends the inverse. -/
theorem inverse_extend {n : Nat} (h : p.size ≤ n) :
    (p.extend n h).inverse = p.inverse.extend n (by simpa using h) :=
  ext_old (by simp) (by simp)

/-- Extending a composition is composing the extensions. -/
theorem extend_after {n : Nat} (h : p.size = q.size) (hn : q.size ≤ n) :
    (p.after q h).extend n (by simpa using hn) =
      (p.extend n (h ▸ hn)).after (q.extend n hn) (by simp) :=
  ext_old (by simp) (by simp)

/-- Whatever the sizes, three permutations compose in either order of doing it. -/
theorem compose_assoc (p q s : Permutation) :
    (p.compose q >>= fun r => r.compose s) = q.compose s >>= p.compose := by
  by_cases hpq : p.size = q.size
  · by_cases hqs : q.size = s.size
    · rw [compose_eq_ok hpq, compose_eq_ok hqs]
      show (p.after q hpq).compose s = p.compose (q.after s hqs)
      rw [compose_eq_ok (by simpa using hqs), compose_eq_ok (by simpa [← hqs] using hpq)]
      exact congrArg Except.ok (ext_old (by simp) (by simp))
    · rw [compose_eq_ok hpq, compose_eq_error hqs]
      exact compose_eq_error (by simpa using hqs)
  · rw [compose_eq_error hpq]
    by_cases hqs : q.size = s.size
    · rw [compose_eq_ok hqs]
      exact (compose_eq_error (by simpa [← hqs] using hpq)).symm
    · rw [compose_eq_error hqs]
      rfl

/-- The inverse of a composite composes the inverses the other way round. -/
theorem map_inverse_compose (p q : Permutation) :
    (p.compose q).map inverse = q.inverse.compose p.inverse := by
  by_cases h : p.size = q.size
  · rw [compose_eq_ok h, compose_eq_ok (by simp [h]), ← inverse_after h]
    rfl
  · rw [compose_eq_error h, compose_eq_error (by simpa using Ne.symm h)]
    rfl

/-- The identity in front changes nothing. -/
theorem identity_compose (p : Permutation) : (identity p.size).compose p = .ok p := by
  rw [compose_eq_ok (size_identity _)]
  exact congrArg Except.ok (ext_old (by simp) (by simp))

/-- Nor does the identity behind. -/
theorem compose_identity (p : Permutation) : p.compose (identity p.size) = .ok p := by
  rw [compose_eq_ok (size_identity _).symm]
  exact congrArg Except.ok (ext_old (by simp) (by simp))

/-- A permutation and its inverse compose to the identity. -/
theorem compose_inverse (p : Permutation) : p.compose p.inverse = .ok (identity p.size) := by
  rw [compose_eq_ok p.size_inverse.symm]
  exact congrArg Except.ok (ext_old (by simp) (by simp))

/-- In either order. -/
theorem inverse_compose (p : Permutation) : p.inverse.compose p = .ok (identity p.size) := by
  rw [compose_eq_ok p.size_inverse]
  exact congrArg Except.ok (ext_old (by simp) (by simp))

/-- Extending and inverting may be exchanged, also where the extension is refused. -/
theorem map_inverse_extendIdentity (p : Permutation) (n : Nat) :
    (p.extendIdentity n).map inverse = p.inverse.extendIdentity n := by
  by_cases h : p.size ≤ n
  · rw [extendIdentity_eq_ok h, extendIdentity_eq_ok (by simpa using h), ← inverse_extend h]
    rfl
  · rw [extendIdentity_eq_error h, extendIdentity_eq_error (by simpa using h)]
    rfl

/-- Composites may be formed before or after their parts are extended. -/
theorem extendIdentity_compose (h : p.size = q.size) (n : Nat) :
    (p.compose q >>= fun r => r.extendIdentity n) =
      p.extendIdentity n >>= fun p' => q.extendIdentity n >>= p'.compose := by
  rw [compose_eq_ok h]
  show (p.after q h).extendIdentity n = _
  by_cases hn : q.size ≤ n
  · rw [extendIdentity_eq_ok (by simpa using hn), extendIdentity_eq_ok (h ▸ hn),
      extendIdentity_eq_ok hn, extend_after h hn]
    exact (compose_eq_ok (by simp)).symm
  · rw [extendIdentity_eq_error (by simpa using hn), extendIdentity_eq_error (h ▸ hn)]
    rfl

end Composition

variable {α : Type} [Scalar α]

section Vectors

variable {x : Array α}

/-- Vectors of its length are permuted. -/
theorem apply_eq_ok (h : x.size = p.size) : p.apply x = .ok (p.gather x) := by
  rw [apply, h, Checked.sameLength_self]
  rfl

/-- No others are. -/
theorem apply_eq_error (h : x.size ≠ p.size) : p.apply x = .error .length := by
  rw [apply, Checked.sameLength, decide_eq_false h.symm]
  rfl

/-- Scattering by a permutation is gathering by its inverse. -/
theorem scatter_eq (p : Permutation) (x : Array α) : p.scatter x = p.inverse.gather x := by
  rw [scatter, gather, size_inverse]
  rfl

/-- Undoing a permutation is applying its inverse. -/
theorem applyInverse_eq (p : Permutation) (x : Array α) : p.applyInverse x = p.inverse.apply x := by
  rw [applyInverse, apply, scatter_eq, size_inverse]

/-- Gathering by a composition gathers by the outer permutation first. -/
theorem gather_after (h : p.size = q.size) (x : Array α) :
    (p.after q h).gather x = q.gather (p.gather x) := by
  rw [gather, gather, size_after]
  refine tabulate_congr fun i hi => ?_
  rw [getD_gather, if_pos (h ▸ q.old_lt_iff.2 hi), old_after]

/-- The identity leaves every vector as it is. -/
theorem apply_identity (h : x.size = p.size) : (identity p.size).apply x = .ok x := by
  rw [apply_eq_ok (h.trans (size_identity _).symm), gather, size_identity, ← h]
  simp only [old_identity]
  rw [tabulate_getD x 0]

/-- Applying a composite is applying its parts, and it is refused if one of them is. -/
theorem apply_compose (p q : Permutation) (x : Array α) :
    (p.compose q >>= fun r => r.apply x) = p.apply x >>= q.apply := by
  by_cases hx : x.size = p.size
  · rw [apply_eq_ok hx]
    by_cases hpq : p.size = q.size
    · rw [compose_eq_ok hpq]
      show (p.after q hpq).apply x = q.apply (p.gather x)
      rw [apply_eq_ok (by simpa [← hpq] using hx), apply_eq_ok (by simpa using hpq),
        gather_after]
    · rw [compose_eq_error hpq]
      exact (apply_eq_error (by simpa using hpq)).symm
  · rw [apply_eq_error hx]
    by_cases hpq : p.size = q.size
    · rw [compose_eq_ok hpq]
      exact apply_eq_error (by simpa [← hpq] using hx)
    · rw [compose_eq_error hpq]
      rfl

/-- The inverse of a composition is applied one inverse after the other. -/
theorem applyInverse_compose (p q : Permutation) (x : Array α) :
    (p.compose q >>= fun r => r.applyInverse x) = q.applyInverse x >>= p.applyInverse := by
  have happly (r : Permutation) : (r.applyInverse : Array α → _) = r.inverse.apply :=
    funext r.applyInverse_eq
  rw [happly, happly, ← apply_compose, ← map_inverse_compose]
  simp only [applyInverse_eq]
  cases p.compose q with
  | error e => rfl
  | ok r => rfl

/-- Applying a permutation and then its inverse gives the vector back. -/
theorem apply_bind_applyInverse (h : x.size = p.size) :
    (p.apply x >>= p.applyInverse) = .ok x := by
  rw [show (p.applyInverse : Array α → _) = p.inverse.apply from funext p.applyInverse_eq,
    ← apply_compose, compose_inverse]
  exact apply_identity h

/-- So does the opposite order. -/
theorem applyInverse_bind_apply (h : x.size = p.size) :
    (p.applyInverse x >>= p.apply) = .ok x := by
  rw [applyInverse_eq, ← apply_compose, inverse_compose]
  exact apply_identity h

/-- As an operator a permutation reads the entries that it needs and does not mind further ones. -/
theorem toOperator_apply (p : Permutation) (x : Array α) : p.toOperator.apply x =
    if p.size ≤ x.size then p.apply (Vec.take x p.size) else .error .index := by
  show (Checked.require (decide (p.size ≤ x.size)) .index >>= fun _ => pure (p.gather x)) = _
  by_cases h : p.size ≤ x.size
  · have htake : (Vec.take x p.size).size = p.size := by
      rw [Vec.size_take]
      omega
    rw [if_pos h, Checked.require_decide h, apply_eq_ok htake, gather, gather]
    refine congrArg Except.ok (tabulate_congr fun i hi => ?_)
    have hold : p.old i < p.size := p.old_lt_iff.2 hi
    rw [Vec.take, Array.getD_eq_getD_getElem?, Array.getD_eq_getD_getElem?,
      Array.getElem?_extract, if_pos (by omega), Nat.zero_add]
  · rw [if_neg h, decide_eq_false h]
    rfl

/-- The transposed view applies the inverse to the leading entries of its argument. -/
theorem toOperator_applyTranspose (p : Permutation) (x : Array α) :
    p.toOperator.applyTranspose x =
      if p.size ≤ x.size then p.applyInverse (Vec.take x p.size) else .error .index := by
  have hop : p.toOperator.applyTranspose x = p.inverse.toOperator.apply x := by
    show (Checked.require (decide (p.size ≤ x.size)) .index >>= fun _ => pure (p.scatter x)) = _
    rw [scatter_eq, ← p.size_inverse]
    rfl
  rw [hop, toOperator_apply, size_inverse, applyInverse_eq]

end Vectors

/-- How a permutation acts on vectors: gathering by its table, undone exactly by its inverse, and
the same as an operator. -/
structure ActsOnVectors (α : Type) [Scalar α] (p : Permutation) : Prop where
  apply_eq_ok : ∀ x : Array α, x.size = p.size → ∃ y, p.apply x = .ok y ∧ y.size = p.size ∧
    ∀ i, i < p.size → y[i]? = x[p.old i]?
  applyInverse_eq : ∀ x : Array α, p.applyInverse x = p.inverse.apply x
  round_trip : ∀ x : Array α, x.size = p.size →
    (p.apply x >>= p.applyInverse) = .ok x ∧ (p.applyInverse x >>= p.apply) = .ok x
  refuses : ∀ x : Array α, x.size ≠ p.size →
    p.apply x = .error .length ∧ p.applyInverse x = .error .length
  operator_size : (p.toOperator : LinearOperator α).rows = p.size ∧
    (p.toOperator : LinearOperator α).cols = p.size
  operator_eq : ∀ x : Array α, x.size = p.size →
    p.toOperator.apply x = p.apply x ∧ p.toOperator.applyTranspose x = p.applyInverse x

/-- How permutations compose: as a group, and as they act on vectors one after the other. -/
structure Composes (α : Type) [Scalar α] (p q s : Permutation) : Prop where
  compose_eq_ok : p.size = q.size → ∃ r, p.compose q = .ok r ∧ r.size = q.size
  apply_compose : ∀ x : Array α, (p.compose q >>= fun r => r.apply x) = p.apply x >>= q.apply
  applyInverse_compose : ∀ x : Array α,
    (p.compose q >>= fun r => r.applyInverse x) = q.applyInverse x >>= p.applyInverse
  compose_assoc : (p.compose q >>= fun r => r.compose s) = q.compose s >>= p.compose
  identity_compose : (identity p.size).compose p = .ok p
  compose_identity : p.compose (identity p.size) = .ok p
  compose_inverse : p.compose p.inverse = .ok (identity p.size)
  inverse_compose : p.inverse.compose p = .ok (identity p.size)
  map_inverse_compose : (p.compose q).map inverse = q.inverse.compose p.inverse

/-- How extensions go with inverses and composites. -/
structure Extends (p q : Permutation) (n : Nat) : Prop where
  extendIdentity_eq_ok : p.size ≤ n → ∃ r, p.extendIdentity n = .ok r ∧ r.size = n ∧
    ∀ i, r.old i = p.old i
  map_inverse : (p.extendIdentity n).map inverse = p.inverse.extendIdentity n
  extendIdentity_compose : p.size = q.size → (p.compose q >>= fun r => r.extendIdentity n) =
    p.extendIdentity n >>= fun p' => q.extendIdentity n >>= p'.compose

/-- A table is read exactly if it is a bijection, and the loop that fills the other table sees this.
The tables that any operations make of tables undo each other. Permutations compose like a group,
their action on vectors composes with them and is undone exactly, and extensions respect all
this. -/
theorem permutation_laws (α : Type) [Scalar α] :
    (∀ map : Array Nat, ((ofMap? map).isSome = true ↔
        Set.BijOn (fun i => map.getD i 0) (Set.Iio map.size) (Set.Iio map.size)) ∧
      ∀ free, map.size ≤ free → fillPositions free map = (ofMap? map).map fun p => p.news) ∧
    (∀ olds news, Written olds news → InverseTables olds news) ∧
    (∀ olds news, Written olds news ↔ ∃ p : Permutation, p.olds = olds ∧ p.news = news) ∧
    (∀ p : Permutation, p.ActsOnVectors α) ∧
    (∀ p q s : Permutation, p.Composes α q s) ∧ ∀ (p q : Permutation) n, p.Extends q n := by
  refine ⟨fun map => ⟨isSome_ofMap?_iff, fun free => fillPositions_eq⟩,
    fun _ _ h => h.inverseTables, fun _ _ => written_iff, fun p => ?_, fun p q s => ?_,
    fun p q n => ?_⟩
  · refine {
      apply_eq_ok := fun x hx => ⟨p.gather x, apply_eq_ok hx, size_gather p x, fun i hi => ?_⟩
      applyInverse_eq := p.applyInverse_eq
      round_trip := fun x hx => ⟨apply_bind_applyInverse hx, applyInverse_bind_apply hx⟩
      refuses := fun x hx => ⟨apply_eq_error hx, ?_⟩
      operator_size := ⟨rfl, rfl⟩
      operator_eq := fun x hx => ?_ }
    · have hold : p.old i < x.size := hx ▸ p.old_lt_iff.2 hi
      rw [gather, getElem?_tabulate, if_pos hi, Array.getD_eq_getD_getElem?,
        Array.getElem?_eq_getElem hold, Option.getD_some]
    · rw [applyInverse_eq]
      exact apply_eq_error (by simpa using hx)
    · have htake : Vec.take x p.size = x := by
        rw [Vec.take, ← hx]
        exact Array.extract_size
      rw [toOperator_apply, toOperator_applyTranspose, if_pos hx.ge, if_pos hx.ge, htake]
      exact ⟨rfl, rfl⟩
  · exact {
      compose_eq_ok := fun h => ⟨p.after q h, compose_eq_ok h, size_after h⟩
      apply_compose := apply_compose p q
      applyInverse_compose := applyInverse_compose p q
      compose_assoc := compose_assoc p q s
      identity_compose := identity_compose p
      compose_identity := compose_identity p
      compose_inverse := compose_inverse p
      inverse_compose := inverse_compose p
      map_inverse_compose := map_inverse_compose p q }
  · exact {
      extendIdentity_eq_ok := fun h =>
        ⟨p.extend n h, extendIdentity_eq_ok h, size_extend p n h, old_extend p n h⟩
      map_inverse := map_inverse_extendIdentity p n
      extendIdentity_compose := fun h => extendIdentity_compose h n }

/-- A table of four old indices is read, and one with a repeated index is not. -/
theorem permutation_laws_sample :
    fillPositions 4 #[2, 0, 3, 1] = some #[1, 3, 0, 2] ∧ fillPositions 3 #[0, 0, 1] = none ∧
      InverseTables #[2, 0, 3, 1] #[1, 3, 0, 2] := by
  have hfilled : fillPositions 4 #[2, 0, 3, 1] = some #[1, 3, 0, 2] := by decide
  exact ⟨hfilled, by decide, (permutation_laws Float).2.1 _ _ (.read 4 (by decide) hfilled)⟩

end Permutation

end ReducedSpace
