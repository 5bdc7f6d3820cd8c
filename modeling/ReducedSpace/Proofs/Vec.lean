import ReducedSpace.Vec

/-!
# Sweeps

A sweep over the indices in ascending order computes each entry from the final entries before it and
the given ones from it on; a sweep in descending order the other way round. So what a triangular
solve computes is read off as one equation per entry.
-/

namespace ReducedSpace.Vec

variable {β : Type}

private theorem getD_sweep_append {pre post : List Nat} {k : Nat} (h : k ∉ post)
    (step : Nat → Array β → β) (x : Array β) (d : β) :
    (sweep (pre ++ post) step x).getD k d = (sweep pre step x).getD k d := by
  have happend : sweep (pre ++ post) step x = sweep post step (sweep pre step x) := by
    unfold sweep
    rw [List.foldl_append]
  rw [happend, Array.getD_eq_getD_getElem?, getElem?_sweep_of_not_mem h,
    ← Array.getD_eq_getD_getElem?]

/-- An entry of a sweep, from a vector that holds the final entries at the indices before it in the
order and the given ones at all others. -/
theorem getD_sweep {order pre post : List Nat} {k : Nat} (hsplit : order = pre ++ k :: post)
    (hnodup : order.Nodup) (step : Nat → Array β → β) {x : Array β} (hk : k < x.size) (d : β) :
    ∃ z : Array β, (sweep order step x).getD k d = step k z ∧
      (∀ i ∈ pre, z.getD i d = (sweep order step x).getD i d) ∧
      ∀ i, i ∉ pre → z.getD i d = x.getD i d := by
  subst hsplit
  obtain ⟨-, hcons, hdisjoint⟩ := List.nodup_append.1 hnodup
  refine ⟨sweep pre step x, ?_, fun i hi => ?_, fun i hi => ?_⟩
  · have hlt : k < (sweep pre step x).size := by
      rw [size_sweep]
      exact hk
    have hone : sweep (pre ++ [k]) step x =
        (sweep pre step x).setIfInBounds k (step k (sweep pre step x)) := by
      unfold sweep
      rw [List.foldl_append, List.foldl_cons, List.foldl_nil]
    rw [List.append_cons, getD_sweep_append (List.nodup_cons.1 hcons).1, hone,
      Array.getD_eq_getD_getElem?, Array.getElem?_setIfInBounds_self, if_pos hlt, Option.getD_some]
  · rw [getD_sweep_append]
    intro hmem
    exact hdisjoint i hi i hmem rfl
  · rw [Array.getD_eq_getD_getElem?, getElem?_sweep_of_not_mem hi, ← Array.getD_eq_getD_getElem?]

private theorem range_split {n k : Nat} (hk : k < n) :
    List.range n = List.range k ++ k :: List.range' (k + 1) (n - (k + 1)) := by
  have h := List.range'_append_1 (s := 0) (m := k) (n := n - k)
  rw [Nat.zero_add, Nat.add_sub_of_le (Nat.le_of_lt hk)] at h
  have hcons : List.range' k (n - k) = k :: List.range' (k + 1) (n - (k + 1)) := by
    rw [show n - k = (n - (k + 1)) + 1 by omega, List.range'_succ]
  rw [List.range_eq_range', List.range_eq_range', ← hcons]
  exact h.symm

/-- An entry of an ascending sweep, from the final entries before it and the given ones from it
on. -/
theorem getD_sweep_ascending {n k : Nat} (hk : k < n) (step : Nat → Array β → β) {x : Array β}
    (hn : n ≤ x.size) (d : β) :
    ∃ z : Array β, (sweep (List.range n) step x).getD k d = step k z ∧
      (∀ i, i < k → z.getD i d = (sweep (List.range n) step x).getD i d) ∧
      ∀ i, k ≤ i → z.getD i d = x.getD i d := by
  obtain ⟨z, hstep, hbefore, hafter⟩ :=
    getD_sweep (range_split hk) List.nodup_range step (Nat.lt_of_lt_of_le hk hn) d
  refine ⟨z, hstep, fun i hi => ?_, fun i hi => ?_⟩
  · exact hbefore i (List.mem_range.2 hi)
  · exact hafter i fun hmem => Nat.not_lt.2 hi (List.mem_range.1 hmem)

/-- An entry of a descending sweep, from the final entries after it and the given ones up to it. -/
theorem getD_sweep_descending {n k : Nat} (hk : k < n) (step : Nat → Array β → β) {x : Array β}
    (hn : n ≤ x.size) (d : β) :
    ∃ z : Array β, (sweep (List.range n).reverse step x).getD k d = step k z ∧
      (∀ i, k < i → i < n → z.getD i d = (sweep (List.range n).reverse step x).getD i d) ∧
      ∀ i, i ≤ k → z.getD i d = x.getD i d := by
  have hsplit : (List.range n).reverse =
      (List.range' (k + 1) (n - (k + 1))).reverse ++ k :: (List.range k).reverse := by
    rw [range_split hk, List.reverse_append, List.reverse_cons, List.append_assoc]
    rfl
  have hmem : ∀ i, i ∈ (List.range' (k + 1) (n - (k + 1))).reverse ↔ k < i ∧ i < n := by
    intro i
    rw [List.mem_reverse, List.mem_range'_1]
    omega
  obtain ⟨z, hstep, hbefore, hafter⟩ :=
    getD_sweep hsplit (List.pairwise_reverse.2 (List.nodup_range.imp Ne.symm)) step
      (Nat.lt_of_lt_of_le hk hn) d
  refine ⟨z, hstep, fun i hi hin => ?_, fun i hi => ?_⟩
  · exact hbefore i ((hmem i).2 ⟨hi, hin⟩)
  · exact hafter i fun h => Nat.not_lt.2 hi ((hmem i).1 h).1

end ReducedSpace.Vec
