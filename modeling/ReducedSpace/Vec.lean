import ReducedSpace.Scalar
import ReducedSpace.Fault

/-!
# Vectors

A vector is an array of scalars. `tabulate` builds one from its entries, and every component is read
with `getD`, so that an operation is described by one equation on entries. Operations that demand a
length are checked where they are offered to callers.
-/

namespace ReducedSpace

/-- The vector of length `n` with the entries `f 0, …, f (n - 1)`. -/
def tabulate {β : Type} (n : Nat) (f : Nat → β) : Array β := Array.ofFn fun i : Fin n => f i

@[simp] theorem size_tabulate {β : Type} (n : Nat) (f : Nat → β) : (tabulate n f).size = n := by
  simp [tabulate]

/-- Looking up an entry of a tabulated array evaluates the rule, in range. -/
theorem getElem?_tabulate {β : Type} (n : Nat) (f : Nat → β) (i : Nat) :
    (tabulate n f)[i]? = if i < n then some (f i) else none := by
  rw [tabulate]
  split <;> simp_all

/-- A table lists its entries in order. -/
theorem toList_tabulate {β : Type} (n : Nat) (f : Nat → β) :
    (tabulate n f).toList = (List.range n).map f := by
  refine List.ext_getElem? fun i => ?_
  rw [Array.getElem?_toList, getElem?_tabulate, List.getElem?_map]
  by_cases hi : i < n <;> simp [hi]

/-- An operation on the entries of a table. -/
theorem map_tabulate {β γ : Type} (n : Nat) (f : Nat → β) (g : β → γ) :
    (tabulate n f).map g = tabulate n fun i => g (f i) := by
  refine Array.toList_inj.1 ?_
  rw [Array.toList_map, toList_tabulate, toList_tabulate, List.map_map]
  rfl

/-- With a default out of range. -/
theorem getD_tabulate {β : Type} (n : Nat) (f : Nat → β) (i : Nat) (d : β) :
    (tabulate n f).getD i d = if i < n then f i else d := by
  rw [Array.getD_eq_getD_getElem?, getElem?_tabulate]
  split <;> rfl

/-- Two tables with the same entries are equal. -/
theorem tabulate_congr {β : Type} {n : Nat} {f g : Nat → β} (h : ∀ i, i < n → f i = g i) :
    tabulate n f = tabulate n g := by
  refine Array.ext_getElem? fun i => ?_
  rw [getElem?_tabulate, getElem?_tabulate]
  split
  · rename_i hi
    rw [h i hi]
  · rfl

/-- A vector is the table of its entries. -/
theorem tabulate_getD {β : Type} (x : Array β) (d : β) :
    tabulate x.size (fun i => x.getD i d) = x := by
  apply Array.ext_getElem?
  intro i
  rw [getElem?_tabulate]
  split
  · rename_i h
    simp [h]
  · rename_i h
    simp at h
    simp [h]

/-- A table is a vector if it has its length and its entries. -/
theorem tabulate_eq {β : Type} {n : Nat} {f : Nat → β} {x : Array β} (hn : x.size = n) (d : β)
    (h : ∀ i, i < n → f i = x.getD i d) : tabulate n f = x := by
  subst hn
  exact (tabulate_congr h).trans (tabulate_getD x d)

/-- Changing one entry leaves the others as they are. -/
theorem getD_modify {β : Type} (xs : Array β) (i k : Nat) (f : β → β) (d : β) :
    (xs.modify i f).getD k d = if k = i ∧ i < xs.size then f (xs.getD i d) else xs.getD k d := by
  simp only [Array.getD_eq_getD_getElem?, Array.getElem?_modify]
  by_cases hk : k = i
  · subst hk
    by_cases hi : k < xs.size <;> simp [hi]
  · have hk' : ¬ i = k := fun h => hk h.symm
    simp [hk, hk']

/-- Replacing one entry leaves the others as they are. -/
theorem getD_setIfInBounds {β : Type} (xs : Array β) (i k : Nat) (x d : β) :
    (xs.setIfInBounds i x).getD k d = if k = i ∧ i < xs.size then x else xs.getD k d := by
  simp only [Array.getD_eq_getD_getElem?, Array.getElem?_setIfInBounds]
  by_cases hk : k = i
  · subst hk
    by_cases hi : k < xs.size <;> simp [hi]
  · have hk' : ¬ i = k := fun h => hk h.symm
    simp [hk, hk']

/-- A further entry at the end leaves the others as they are. -/
theorem getD_push {β : Type} (xs : Array β) (x : β) (k : Nat) (d : β) :
    (xs.push x).getD k d = if k = xs.size then x else xs.getD k d := by
  simp only [Array.getD_eq_getD_getElem?, Array.getElem?_push]
  by_cases hk : k = xs.size <;> simp [hk]

/-- Changing entries in turn keeps the length. -/
theorem size_foldl_modify {β γ : Type} (l : List γ) (position : γ → Nat) (g : γ → β → β)
    (y : Array β) : (l.foldl (fun y t => y.modify (position t) (g t)) y).size = y.size := by
  induction l generalizing y with
  | nil => rfl
  | cons t l ih =>
    rw [List.foldl_cons, ih, Array.size_modify]

namespace Vec

section Shape

variable {β : Type}

/-- The first `n` entries. -/
def take (x : Array β) (n : Nat) : Array β := x.extract 0 n

/-- All entries but the first `n`. -/
def drop (x : Array β) (n : Nat) : Array β := x.extract n x.size

/-- Replaces the entries at the listed indices in turn; each new entry is computed from the vector
as it then stands. Substitution in a triangular system is a sweep. -/
def sweep (order : List Nat) (step : Nat → Array β → β) (x : Array β) : Array β :=
  order.foldl (fun x k => x.setIfInBounds k (step k x)) x

@[simp] theorem size_take (x : Array β) (n : Nat) : (take x n).size = min n x.size := by
  simp [take]

@[simp] theorem size_drop (x : Array β) (n : Nat) : (drop x n).size = x.size - n := by
  simp [drop]

/-- A sweep keeps the length. -/
@[simp] theorem size_sweep (order : List Nat) (step : Nat → Array β → β) (x : Array β) :
    (sweep order step x).size = x.size := by
  rw [sweep]
  induction order generalizing x with
  | nil => rfl
  | cons k order ih =>
    rw [List.foldl_cons, ih]
    simp

/-- A sweep changes no entry that is not listed. -/
theorem getElem?_sweep_of_not_mem {order : List Nat} {k : Nat} (h : k ∉ order)
    (step : Nat → Array β → β) (x : Array β) : (sweep order step x)[k]? = x[k]? := by
  rw [sweep]
  induction order generalizing x with
  | nil => rfl
  | cons j order ih =>
    have hj : j ≠ k := fun hjk => h (hjk ▸ List.mem_cons_self)
    rw [List.foldl_cons, ih fun hk => h (List.mem_cons_of_mem _ hk),
      Array.getElem?_setIfInBounds_ne hj]

end Shape

section Arithmetic

variable {α : Type} [Scalar α]

/-- The vector of `n` zeros. -/
def zero (n : Nat) : Array α := tabulate n fun _ => 0

/-- The `j`-th unit vector of length `n`. -/
def unit (n j : Nat) : Array α := tabulate n fun i => if i = j then 1 else 0

/-- The largest magnitude of an entry, zero for the empty vector. Entries that are a NaN do not
count. -/
def normInf (x : Array α) : α := x.foldl (fun acc v => Scalar.max acc (Scalar.abs v)) 0

/-- Entrywise negation. -/
def neg (x : Array α) : Array α := x.map fun v => -v

/-- Adds the entries of `y` to those of `x`, as far as `y` goes. -/
def add (x y : Array α) : Array α :=
  tabulate x.size fun i => if i < y.size then x.getD i 0 + y.getD i 0 else x.getD i 0

/-- Subtracts the entries of `y` from those of `x`, as far as `y` goes. -/
def sub (x y : Array α) : Array α :=
  tabulate x.size fun i => if i < y.size then x.getD i 0 - y.getD i 0 else x.getD i 0

@[simp] theorem size_zero (n : Nat) : (zero n : Array α).size = n := by simp [zero]

/-- All entries of a zero vector are zero, also those out of range. -/
@[simp] theorem getD_zero (n i : Nat) : (zero n : Array α).getD i 0 = 0 := by
  rw [zero]
  rw [getD_tabulate]
  split <;> rfl

@[simp] theorem size_unit (n j : Nat) : (unit n j : Array α).size = n := by simp [unit]

@[simp] theorem size_neg (x : Array α) : (neg x).size = x.size := by simp [neg]

@[simp] theorem size_add (x y : Array α) : (add x y).size = x.size := by simp [add]

/-- An entry of a sum. -/
theorem getD_add {x y : Array α} (h : x.size ≤ y.size) (i : Nat) :
    (add x y).getD i 0 = if i < x.size then x.getD i 0 + y.getD i 0 else 0 := by
  rw [add]
  rw [getD_tabulate]
  split
  · rw [if_pos (by omega)]
  · rfl

@[simp] theorem size_sub (x y : Array α) : (sub x y).size = x.size := by simp [sub]

/-- An entry of a difference. -/
theorem getD_sub {x y : Array α} (h : x.size ≤ y.size) (i : Nat) :
    (sub x y).getD i 0 = if i < x.size then x.getD i 0 - y.getD i 0 else 0 := by
  rw [sub]
  rw [getD_tabulate]
  split
  · rw [if_pos (by omega)]
  · rfl

end Arithmetic

end Vec

end ReducedSpace
