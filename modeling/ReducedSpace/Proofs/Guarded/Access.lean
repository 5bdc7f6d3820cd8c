import ReducedSpace.Vec
import ReducedSpace.Proofs.Outcome

/-!
# Guarded accesses

The operations of the library read with `getD` and change with `modify`, which mean something at
every index. A guarded access demands that its index is in range and faults if it is not. The
modules over this one write the algorithms of the library with guarded accesses and prove that they
answer the same, so that no default is ever read and no change is ever lost.
-/

namespace ReducedSpace.Guarded

variable {β γ : Type}

/-- The entry at an index, which must be in range. -/
def read (xs : Array β) (i : Nat) : Checked β :=
  match xs[i]? with
  | some x => .ok x
  | none => .error .index

/-- Changes the entry at an index, which must be in range. -/
def change (xs : Array β) (i : Nat) (f : β → β) : Checked (Array β) :=
  if i < xs.size then .ok (xs.modify i f) else .error .index

/-- Replaces the entry at an index, which must be in range. -/
def write (xs : Array β) (i : Nat) (x : β) : Checked (Array β) :=
  if i < xs.size then .ok (xs.setIfInBounds i x) else .error .index

/-- Exchanges two entries, whose indices must be in range. -/
def swap (xs : Array β) (i j : Nat) : Checked (Array β) :=
  if i < xs.size ∧ j < xs.size then .ok (xs.swapIfInBounds i j) else .error .index

/-- The difference of two counts, of which the second must not exceed the first. -/
def minus (n k : Nat) : Checked Nat := if k ≤ n then .ok (n - k) else .error .index

/-- The entries from index `b` up to index `e`, which must be in order and in range. -/
def slice (xs : Array β) (b e : Nat) : Checked (Array β) :=
  if b ≤ e ∧ e ≤ xs.size then .ok (xs.extract b e) else .error .index

/-- The entries at the listed indices. -/
def pick (xs : Array β) (indices : Array Nat) : Checked (Array β) := do
  let entries ← indices.toList.mapM (read xs)
  return entries.toArray

/-- An entry in range can be read. -/
theorem read_eq_ok {xs : Array β} {i : Nat} (hi : i < xs.size) (d : β) :
    read xs i = .ok (xs.getD i d) := by
  rw [read]
  simp [hi]

/-- And changed. -/
theorem change_eq_ok {xs : Array β} {i : Nat} (hi : i < xs.size) (f : β → β) :
    change xs i f = .ok (xs.modify i f) :=
  if_pos hi

/-- And overwritten. -/
theorem write_eq_ok {xs : Array β} {i : Nat} (hi : i < xs.size) (x : β) :
    write xs i x = .ok (xs.setIfInBounds i x) :=
  if_pos hi

/-- Two entries in range can be exchanged. -/
theorem swap_eq_ok {xs : Array β} {i j : Nat} (hi : i < xs.size) (hj : j < xs.size) :
    swap xs i j = .ok (xs.swapIfInBounds i j) :=
  if_pos ⟨hi, hj⟩

/-- A difference that is not negative can be formed. -/
theorem minus_eq_ok {n k : Nat} (h : k ≤ n) : minus n k = .ok (n - k) :=
  if_pos h

/-- A part in range can be taken. -/
theorem slice_eq_ok {xs : Array β} {b e : Nat} (hb : b ≤ e) (he : e ≤ xs.size) :
    slice xs b e = .ok (xs.extract b e) :=
  if_pos ⟨hb, he⟩

/-- After a success an operation goes on with its result. -/
@[simp] theorem ok_bind {ε : Type} (b : β) (f : β → Except ε γ) : (Except.ok b >>= f) = f b := rfl

/-- Entries can be picked by indices in range. -/
theorem pick_eq_ok {xs : Array β} {indices : Array Nat} (h : ∀ i ∈ indices, i < xs.size) (d : β) :
    pick xs indices = .ok (indices.map fun i => xs.getD i d) := by
  have hentries : indices.toList.mapM (read xs) =
      .ok (indices.toList.map fun i => xs.getD i d) :=
    mapM_eq_ok fun i hi => read_eq_ok (h i (Array.mem_toList_iff.1 hi)) d
  rw [pick]
  rw [hentries, ok_bind]
  refine congrArg Except.ok (Array.toList_inj.1 ?_)
  rw [Array.toList_map]

/-- Behind a check of lengths two operations need to agree only if the lengths do. -/
theorem sameLength_bind {n k : Nat} {f g : Unit → Checked β} (h : n = k → f () = g ()) :
    (Checked.sameLength n k >>= f) = (Checked.sameLength n k >>= g) := by
  by_cases hnk : n = k
  · rw [Checked.sameLength_eq_ok_iff.2 hnk]
    exact h hnk
  · rw [Checked.sameLength, decide_eq_false hnk]
    rfl

/-- A loop whose steps succeed as long as an invariant holds is the loop over their results. -/
theorem foldlM_eq_ok {ε : Type} {P : β → Prop} {f : β → γ → Except ε β} {g : β → γ → β}
    {l : List γ} {b : β} (hb : P b)
    (hstep : ∀ b, P b → ∀ c ∈ l, f b c = .ok (g b c) ∧ P (g b c)) :
    l.foldlM f b = .ok (l.foldl g b) := by
  induction l generalizing b with
  | nil => rfl
  | cons c l ih =>
    obtain ⟨hc, hP⟩ := hstep b hb c List.mem_cons_self
    rw [List.foldlM_cons, hc]
    exact ih hP fun b hb c hc => hstep b hb c (List.mem_cons_of_mem _ hc)

/-- A loop whose steps succeed without an invariant. -/
theorem foldlM_eq_ok_of_forall {ε : Type} {f : β → γ → Except ε β} {g : β → γ → β} {l : List γ}
    (hstep : ∀ b, ∀ c ∈ l, f b c = .ok (g b c)) (b : β) : l.foldlM f b = .ok (l.foldl g b) :=
  foldlM_eq_ok (P := fun _ => True) trivial fun b _ c hc => ⟨hstep b c hc, trivial⟩

section Consecutive

variable {ε : Type} {f : β → Nat → Except ε β} {b c : β} {e n s : Nat}

/-- A loop over the indices from `s` up to `e` that passes through the states of a family ends in
the state after the last index. -/
theorem foldlM_range'_eq_ok (u : Nat → β) (hs : s ≤ e) (hfirst : u s = b) (hlast : u e = c)
    (hstep : ∀ i, s ≤ i → i < e → f (u i) i = .ok (u (i + 1))) :
    (List.range' s (e - s)).foldlM f b = .ok c := by
  subst hfirst hlast
  obtain ⟨n, rfl⟩ := Nat.exists_eq_add_of_le hs
  rw [Nat.add_sub_cancel_left]
  clear hs
  induction n generalizing s with
  | zero => rfl
  | succ n ih =>
    have hrest := ih (s := s + 1) fun i hi hin => hstep i (by omega) (by omega)
    rw [List.range'_succ, List.foldlM_cons, hstep s (Nat.le_refl s) (by omega), ok_bind, hrest]
    exact congrArg (fun k => Except.ok (u k)) (by omega)

/-- The loop from the first index on. -/
theorem foldlM_range_eq_ok (u : Nat → β) (hfirst : u 0 = b) (hlast : u n = c)
    (hstep : ∀ i < n, f (u i) i = .ok (u (i + 1))) : (List.range n).foldlM f b = .ok c := by
  rw [List.range_eq_range']
  exact foldlM_range'_eq_ok u (Nat.zero_le n) hfirst hlast fun i _ hi => hstep i hi

/-- The loop from the last index down. -/
theorem foldlM_range_reverse_eq_ok (u : Nat → β) (hfirst : u n = b) (hlast : u 0 = c)
    (hstep : ∀ k < n, f (u (k + 1)) k = .ok (u k)) :
    (List.range n).reverse.foldlM f b = .ok c := by
  subst hfirst hlast
  induction n with
  | zero => rfl
  | succ n ih =>
    rw [List.range_succ, List.reverse_append, List.reverse_singleton, List.singleton_append,
      List.foldlM_cons, hstep n (Nat.lt_succ_self n), ok_bind]
    exact ih fun k hk => hstep k (Nat.lt_succ_of_lt hk)

end Consecutive

/-- The entries from index `b` up to index `e` replaced by functions of what they held. -/
def overwritten (g : Nat → β → β) (d : β) (xs : Array β) (b e : Nat) : Array β :=
  tabulate xs.size fun i => if b ≤ i ∧ i < e then g i (xs.getD i d) else xs.getD i d

@[simp] theorem size_overwritten (g : Nat → β → β) (d : β) (xs : Array β) (b e : Nat) :
    (overwritten g d xs b e).size = xs.size :=
  size_tabulate _ _

/-- An array of which a stretch was overwritten is tabulated by any rule that fits both parts. -/
theorem overwritten_eq_tabulate {g : Nat → β → β} {d : β} {xs : Array β} {b e n : Nat}
    {h : Nat → β} (hn : xs.size = n) (hout : ∀ i < n, ¬(b ≤ i ∧ i < e) → xs.getD i d = h i)
    (hin : ∀ i < n, b ≤ i → i < e → g i (xs.getD i d) = h i) :
    overwritten g d xs b e = tabulate n h := by
  subst hn
  refine tabulate_congr fun i hi => ?_
  by_cases hbe : b ≤ i ∧ i < e
  · rw [if_pos hbe]
    exact hin i hi hbe.1 hbe.2
  · rw [if_neg hbe]
    exact hout i hi hbe

/-- An empty stretch changes nothing. -/
theorem overwritten_self (g : Nat → β → β) (d : β) (xs : Array β) (b : Nat) :
    overwritten g d xs b b = xs := by
  refine tabulate_eq rfl d fun i _ => if_neg ?_
  omega

/-- A loop that overwrites one entry of a stretch after the other reads each of them as it was
before the loop. -/
theorem foldlM_overwrite_eq_ok {f : Array β → Nat → Checked (Array β)} {g : Nat → β → β} {d : β}
    {xs : Array β} {s e : Nat} (hs : s ≤ e) (he : e ≤ xs.size)
    (hstep : ∀ ys : Array β, ys.size = xs.size → ∀ i, s ≤ i → i < e →
      f ys i = .ok (ys.setIfInBounds i (g i (ys.getD i d)))) :
    (List.range' s (e - s)).foldlM f xs = .ok (overwritten g d xs s e) := by
  refine foldlM_range'_eq_ok (overwritten g d xs s) hs (overwritten_self g d xs s) rfl
    fun i hi hie => ?_
  rw [hstep _ (size_overwritten _ _ _ _ _) i hi hie]
  refine congrArg Except.ok (Array.ext_getElem? fun k => ?_)
  have hsize : i < xs.size := by omega
  rw [Array.getElem?_setIfInBounds]
  unfold overwritten
  rw [getElem?_tabulate, getElem?_tabulate, getD_tabulate, size_tabulate]
  grind

section Faithful

variable {ε : Type}

/-- A guarded operation has the outcome of the plain one, and neither of them faults. -/
structure Faithful (guarded plain : Attempt ε β) : Prop where
  eq : guarded = plain
  noFault : NoFault plain

/-- An operation without accesses is its own guarded form. -/
theorem faithful_self {x : Attempt ε β} (h : NoFault x) : Faithful x x := ⟨rfl, h⟩

/-- A checked operation that finds a result is faithful to any other with the same one. -/
theorem faithful_ofChecked {x y : Checked β} {b : β} (hx : x = .ok b) (hy : y = .ok b) :
    Faithful (Attempt.ofChecked x : Attempt ε β) (Attempt.ofChecked y) := by
  rw [hx, hy]
  exact faithful_self (noFault_ok b)

/-- Operations may be composed; the second ones run on a result of the first. -/
theorem Faithful.bind {x y : Attempt ε β} {f g : β → Attempt ε γ} (h : Faithful x y)
    (hfg : ∀ b, y = .ok b → Faithful (f b) (g b)) : Faithful (x >>= f) (y >>= g) := by
  rw [h.eq]
  refine ⟨?_, h.noFault.bind fun b hb => (hfg b hb).noFault⟩
  cases hy : y with
  | error e => rfl
  | ok b => exact (hfg b hy).eq

end Faithful

end ReducedSpace.Guarded
