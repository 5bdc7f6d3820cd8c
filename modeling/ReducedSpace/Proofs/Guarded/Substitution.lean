import ReducedSpace.Proofs.Basis.Triangular
import ReducedSpace.Proofs.Guarded.Access

/-!
# Substitution reads final entries

A substitution overwrites the right-hand side entry by entry. It is sound because an entry is passed
on to others only when it has its final value, and is not touched again in the same loop. Here the
loops of a solve run on a vector that marks its final entries: passing on an entry that is not
final, changing one that is, and leaving the vector all fault. With triangular factors none of this
happens, and the loops answer what the plain ones do.
-/

namespace ReducedSpace

/-- A vector and the indices of its final entries. -/
structure Marked (α : Type) where
  entries : Array α
  final : List Nat

namespace Marked

variable {α : Type} {m m' m'' : Marked α} {i k : Nat}

/-- A vector without final entries. -/
def start (x : Array α) : Marked α := ⟨x, []⟩

/-- The entry at an index, which must be final. -/
def readFinal (m : Marked α) (i : Nat) : Checked α := do
  Checked.require (m.final.contains i) .index
  Guarded.read m.entries i

/-- Changes the entry at an index, which must not be final. -/
def changeOpen (m : Marked α) (i : Nat) (f : α → α) : Checked (Marked α) := do
  Checked.require (!m.final.contains i) .index
  return { m with entries := ← Guarded.change m.entries i f }

/-- From now on the entry at an index is final. -/
def finish (m : Marked α) (i : Nat) : Marked α := { m with final := m.final ++ [i] }

/-- Computes the final value of an entry, which must not be final, from its present value. -/
def settle (m : Marked α) (i : Nat) (f : α → Checked α) : Checked (Marked α) := do
  Checked.require (!m.final.contains i) .index
  let x ← f (← Guarded.read m.entries i)
  return { m with entries := ← Guarded.write m.entries i x }.finish i

/-- Final entries stay final and keep their values. -/
def Extends (m m' : Marked α) : Prop :=
  ∀ i ∈ m.final, i ∈ m'.final ∧ m'.entries[i]? = m.entries[i]?

/-- Nothing changes, so every final entry stays. -/
theorem Extends.refl (m : Marked α) : m.Extends m := fun _ hi => ⟨hi, rfl⟩

/-- Final entries stay through several steps. -/
theorem Extends.trans (h : m.Extends m') (h' : m'.Extends m'') : m.Extends m'' := fun i hi =>
  ⟨(h' i (h i hi).1).1, (h' i (h i hi).1).2.trans (h i hi).2⟩

/-- Finishing another entry changes no final one. -/
theorem extends_finish (m : Marked α) (i : Nat) : m.Extends (m.finish i) := fun _ hk =>
  ⟨List.mem_append_left _ hk, rfl⟩

private theorem require_final (hi : i ∈ m.final) :
    Checked.require (m.final.contains i) .index = .ok () := by
  rw [List.contains_iff_mem.2 hi]
  rfl

private theorem require_open (hi : i ∉ m.final) :
    Checked.require (!m.final.contains i) .index = .ok () := by
  rw [Bool.eq_false_iff.2 (mt List.contains_iff_mem.1 hi)]
  rfl

private theorem ne_of_open (hopen : Checked.require (!m.final.contains i) .index = .ok ())
    (hk : k ∈ m.final) : i ≠ k := by
  rintro rfl
  rw [List.contains_iff_mem.2 hk] at hopen
  cases hopen

/-- Only open entries are changed. -/
theorem extends_changeOpen {f : α → α} (h : m.changeOpen i f = .ok m') : m.Extends m' := by
  obtain ⟨⟨⟩, hopen, h⟩ := bind_eq_ok_iff.1 h
  obtain ⟨y, hy, h⟩ := bind_eq_ok_iff.1 h
  obtain rfl := Except.ok.inj h
  refine fun k hk => ⟨hk, ?_⟩
  rw [Guarded.change] at hy
  split at hy
  · obtain rfl := Except.ok.inj hy
    exact Array.getElem?_modify.trans (if_neg (ne_of_open hopen hk))
  · cases hy

/-- An entry that is settled was open. -/
theorem extends_settle {f : α → Checked α} (h : m.settle i f = .ok m') : m.Extends m' := by
  obtain ⟨⟨⟩, hopen, h⟩ := bind_eq_ok_iff.1 h
  obtain ⟨old, -, h⟩ := bind_eq_ok_iff.1 h
  obtain ⟨x, -, h⟩ := bind_eq_ok_iff.1 h
  obtain ⟨y, hy, h⟩ := bind_eq_ok_iff.1 h
  obtain rfl := Except.ok.inj h
  refine fun k hk => ⟨List.mem_append_left _ hk, ?_⟩
  rw [Guarded.write] at hy
  split at hy
  · obtain rfl := Except.ok.inj hy
    exact Array.getElem?_setIfInBounds_ne (ne_of_open hopen hk)
  · cases hy

/-- A loop keeps final entries if each of its steps does. -/
theorem extends_foldlM {β : Type} {l : List β} {f : Marked α → β → Checked (Marked α)}
    (hf : ∀ m b m', f m b = .ok m' → m.Extends m')
    (h : l.foldlM f m = .ok m') : m.Extends m' := by
  induction l generalizing m with
  | nil =>
    cases h
    exact .refl _
  | cons b l ih =>
    rw [List.foldlM_cons] at h
    obtain ⟨m₁, hm₁, h⟩ := bind_eq_ok_iff.1 h
    exact (hf m b m₁ hm₁).trans (ih h)

/-- A final entry in range can be read. -/
theorem readFinal_eq (hi : i ∈ m.final) (hsize : i < m.entries.size) (d : α) :
    m.readFinal i = .ok (m.entries.getD i d) :=
  bind_eq_ok_iff.2 ⟨(), require_final hi, Guarded.read_eq_ok hsize d⟩

/-- An open entry in range can be changed. -/
theorem changeOpen_eq (hi : i ∉ m.final) (hsize : i < m.entries.size) (f : α → α) :
    m.changeOpen i f = .ok { m with entries := m.entries.modify i f } :=
  bind_eq_ok_iff.2 ⟨(), require_open hi,
    bind_eq_ok_iff.2 ⟨_, Guarded.change_eq_ok hsize f, rfl⟩⟩

/-- An open entry in range is settled with the value that is computed from it. -/
theorem settle_eq (hi : i ∉ m.final) (hsize : i < m.entries.size) {f : α → Checked α} {x d : α}
    (hx : f (m.entries.getD i d) = .ok x) :
    m.settle i f = .ok (finish { m with entries := m.entries.setIfInBounds i x } i) :=
  bind_eq_ok_iff.2 ⟨(), require_open hi, bind_eq_ok_iff.2 ⟨_, Guarded.read_eq_ok hsize d,
    bind_eq_ok_iff.2 ⟨x, hx, bind_eq_ok_iff.2 ⟨_, Guarded.write_eq_ok hsize x, rfl⟩⟩⟩⟩

end Marked

section Loops

variable {α : Type} {step : Marked α → Nat → Checked (Marked α)} {order : List Nat} {x y : Array α}

/-- A loop from `x` to `y` that makes the entries final in the given order: it never faults, and
what is final along the way has its value in `y`. -/
structure InOrder (order : List Nat) (step : Marked α → Nat → Checked (Marked α))
    (x y : Array α) : Prop where
  result : order.foldlM step (.start x) = .ok ⟨y, order⟩
  settled : ∀ before after, order = before ++ after →
    ∃ z, before.foldlM step (.start x) = .ok ⟨z, before⟩ ∧ ∀ i ∈ before, z[i]? = y[i]?

/-- A loop runs in order if each step makes its own entry final, whatever comes before it. -/
theorem inOrder_foldl {P : Array α → Prop} {g : Array α → Nat → Array α}
    (hextends : ∀ m k m', step m k = .ok m' → m.Extends m')
    (hstep : ∀ before k after, order = before ++ k :: after → ∀ y, P y →
      step ⟨y, before⟩ k = .ok ⟨g y k, before ++ [k]⟩ ∧ P (g y k)) (hx : P x) :
    InOrder order step x (order.foldl g x) := by
  have hinitial : ∀ before after, order = before ++ after →
      before.foldlM step (.start x) = .ok ⟨before.foldl g x, before⟩ ∧ P (before.foldl g x) := by
    intro before
    induction before using List.reverseRecOn with
    | nil => exact fun _ _ => ⟨rfl, hx⟩
    | append_singleton before k ih =>
      intro after horder
      rw [List.append_assoc, List.singleton_append] at horder
      obtain ⟨hrun, hP⟩ := ih (k :: after) horder
      obtain ⟨hk, hP⟩ := hstep before k after horder _ hP
      rw [List.foldlM_append, List.foldl_append]
      exact ⟨bind_eq_ok_iff.2 ⟨_, hrun, bind_eq_ok_iff.2 ⟨_, hk, rfl⟩⟩, hP⟩
  have hresult := (hinitial order [] (List.append_nil order).symm).1
  refine ⟨hresult, fun before after horder => ⟨_, (hinitial before after horder).1, ?_⟩⟩
  subst horder
  rw [List.foldlM_append] at hresult
  obtain ⟨m, hm, hrest⟩ := bind_eq_ok_iff.1 hresult
  obtain rfl := Except.ok.inj ((hinitial before after rfl).1.symm.trans hm)
  exact fun i hi => ((Marked.extends_foldlM hextends hrest i hi).2).symm

/-- In a loop upwards the indices behind the present one are not final. -/
theorem not_mem_ascending {n k i : Nat} {before after : List Nat}
    (h : List.range n = before ++ k :: after) (hki : k ≤ i) : i ∉ before := by
  have hsorted := List.pairwise_lt_range (n := n)
  rw [h, List.pairwise_append] at hsorted
  intro hi
  have hlt := hsorted.2.2 i hi k List.mem_cons_self
  omega

/-- In a loop downwards the indices behind the present one are final, and it is not. -/
theorem mem_descending {n k i : Nat} {before after : List Nat}
    (h : (List.range n).reverse = before ++ k :: after) (hin : i < n) : i ∈ before ↔ k < i := by
  have hsorted := List.pairwise_reverse.2 (List.pairwise_lt_range (n := n))
  rw [h, List.pairwise_append, List.pairwise_cons] at hsorted
  have hmem : i ∈ before ++ k :: after := h ▸ List.mem_reverse.2 (List.mem_range.2 hin)
  refine ⟨fun hi => hsorted.2.2 i hi k List.mem_cons_self, fun hki => ?_⟩
  rcases List.mem_append.1 hmem with hi | hi
  · exact hi
  · rcases List.mem_cons.1 hi with rfl | hi
    · omega
    · have hlt := hsorted.2.1.1 i hi
      omega

end Loops

section Solves

variable {α : Type} [Scalar α]

/-- Subtracts the multiple `x` of a sparse vector from entries that are not final. -/
def spread (v : SparseVec α) (x : α) (m : Marked α) : Checked (Marked α) :=
  v.entries.foldlM (fun m e => m.changeOpen e.1 fun s => s - e.2 * x) m

/-- Subtracts the products of a sparse vector with final entries from a number. -/
def gather (v : SparseVec α) (s : α) (m : Marked α) : Checked α :=
  v.entries.foldlM (fun s e => do return s - e.2 * (← m.readFinal e.1)) s

/-- Solves with column `k` of `L`: entry `k` is final, and its multiple leaves the others. -/
def lowerStep (f : SparseLu α) (m : Marked α) (k : Nat) : Checked (Marked α) := do
  let m := m.finish k
  spread (← Guarded.read f.lowerCols k) (← m.readFinal k) m

/-- Solves with row `k` of `U` for entry `k`. -/
def upperStep (f : SparseLu α) (m : Marked α) (k : Nat) : Checked (Marked α) :=
  m.settle k fun x => do
    let s ← gather (← Guarded.read f.upperRows k) x m
    return s / (← Guarded.read f.diagonal k)

/-- Solves with row `k` of `U` as a column of `Uᵀ`. -/
def upperTransposeStep (f : SparseLu α) (m : Marked α) (k : Nat) : Checked (Marked α) := do
  let m ← m.settle k fun x => do return x / (← Guarded.read f.diagonal k)
  spread (← Guarded.read f.upperRows k) (← m.readFinal k) m

/-- Solves with column `k` of `L` as a row of `Lᵀ`. -/
def lowerTransposeStep (f : SparseLu α) (m : Marked α) (k : Nat) : Checked (Marked α) :=
  m.settle k fun x => do gather (← Guarded.read f.lowerCols k) x m

/-- Both loops of either solve run in order, and the last vector is the answer. -/
structure SolvesInOrder (f : SparseLu α) (b : Array α) : Prop where
  plain : ∃ y x, InOrder (List.range f.dim) (lowerStep f) b y ∧
    InOrder (List.range f.dim).reverse (upperStep f) y x ∧ f.solveIn .plain b = .ok x
  transposed : ∃ y x, InOrder (List.range f.dim) (upperTransposeStep f) b y ∧
    InOrder (List.range f.dim).reverse (lowerTransposeStep f) y x ∧
    f.solveIn .transposed b = .ok x

variable {f : SparseLu α} {v : SparseVec α} {m m' : Marked α} {k n : Nat} {x : α}

/-- Spreading a multiple of a sparse vector changes open entries only. -/
theorem extends_spread (h : spread v x m = .ok m') : m.Extends m' :=
  Marked.extends_foldlM (fun _ _ _ => Marked.extends_changeOpen) h

/-- If the entries of the vector are open and in range, the multiple is subtracted from them. -/
theorem spread_eq (hv : ∀ i, v.contains i = true → i ∉ m.final ∧ i < m.entries.size) (x : α) :
    spread v x m = .ok { m with entries := SparseLu.subtractMultiple v x m.entries } := by
  obtain ⟨y, final⟩ := m
  have hloop : ∀ (l : List (Nat × α)) (y : Array α), (∀ e ∈ l, e.1 ∉ final ∧ e.1 < y.size) →
      l.foldlM (fun (m : Marked α) e => m.changeOpen e.1 fun s => s - e.2 * x) ⟨y, final⟩ =
        .ok ⟨l.foldl (fun y e => y.modify e.1 fun s => s - e.2 * x) y, final⟩ := by
    intro l y hl
    induction l generalizing y with
    | nil => rfl
    | cons e l ih =>
      obtain ⟨⟨hopen, hsize⟩, hl⟩ := List.forall_mem_cons.1 hl
      rw [List.foldlM_cons, Marked.changeOpen_eq hopen hsize]
      refine ih _ fun e' he' => ?_
      rw [Array.size_modify]
      exact hl e' he'
  exact hloop v.entries y fun e he =>
    hv e.1 (SparseVec.mem_indices_iff.1 (List.mem_map_of_mem he))

/-- If they are final and in range, their products are subtracted. -/
theorem gather_eq (hv : ∀ i, v.contains i = true → i ∈ m.final ∧ i < m.entries.size) (s : α) :
    gather v s m = .ok (SparseLu.subtractProducts v s m.entries) := by
  refine Guarded.foldlM_eq_ok_of_forall (fun s e he => ?_) s
  obtain ⟨hfinal, hsize⟩ := hv e.1 (SparseVec.mem_indices_iff.1 (List.mem_map_of_mem he))
  rw [Marked.readFinal_eq hfinal hsize 0]
  rfl

/-- A step of the forward substitution keeps what is final. -/
theorem extends_lowerStep (h : lowerStep f m k = .ok m') : m.Extends m' := by
  obtain ⟨v, -, h⟩ := bind_eq_ok_iff.1 h
  obtain ⟨x, -, h⟩ := bind_eq_ok_iff.1 h
  exact (Marked.extends_finish m k).trans (extends_spread h)

/-- So does a step of the transposed substitution with `U`. -/
theorem extends_upperTransposeStep (h : upperTransposeStep f m k = .ok m') : m.Extends m' := by
  obtain ⟨m₁, hm₁, h⟩ := bind_eq_ok_iff.1 h
  obtain ⟨v, -, h⟩ := bind_eq_ok_iff.1 h
  obtain ⟨x, -, h⟩ := bind_eq_ok_iff.1 h
  exact (Marked.extends_settle hm₁).trans (extends_spread h)

private theorem not_mem_finished {before after : List Nat} {i : Nat}
    (h : List.range n = before ++ k :: after) (hki : k < i) : i ∉ before ++ [k] := by
  rw [List.mem_append, List.mem_singleton, not_or]
  exact ⟨not_mem_ascending h (Nat.le_of_lt hki), Nat.ne_of_gt hki⟩

variable (hf : f.Triangular n n) {b : Array α}
include hf

/-- The forward substitution reads an entry only after the last change to it. -/
theorem inOrder_solveLower (hb : n ≤ b.size) :
    InOrder (List.range n) (lowerStep f) b (f.solveLower b) := by
  rw [SparseLu.solveLower, SparseLu.dim, hf.size_diagonal]
  refine inOrder_foldl (P := fun y => n ≤ y.size) (fun _ _ _ => extends_lowerStep)
    (fun before k after h y hy => ?_) hb
  have hk : k < n := List.mem_range.1 (h ▸ List.mem_append_right _ List.mem_cons_self)
  have hcolumn : Guarded.read f.lowerCols k = .ok (f.lowerCol k) :=
    Guarded.read_eq_ok (hf.size_lowerCols.symm ▸ hk) .empty
  have hentry : Marked.readFinal ⟨y, before ++ [k]⟩ k = .ok (y.getD k 0) :=
    Marked.readFinal_eq (List.mem_append_right _ List.mem_cons_self) (Nat.lt_of_lt_of_le hk hy) 0
  refine ⟨bind_eq_ok_iff.2 ⟨_, hcolumn, bind_eq_ok_iff.2 ⟨_, hentry, spread_eq ?_ _⟩⟩, ?_⟩
  · intro i hi
    obtain ⟨hki, hin⟩ := hf.lower_lt k i hi
    exact ⟨not_mem_finished h hki, Nat.lt_of_lt_of_le hin hy⟩
  · rwa [SparseLu.size_subtractMultiple]

/-- So does the transposed substitution with `U`, in the same order. -/
theorem inOrder_solveUpperTranspose (hb : n ≤ b.size) :
    InOrder (List.range n) (upperTransposeStep f) b (f.solveUpperTranspose b) := by
  rw [SparseLu.solveUpperTranspose, SparseLu.dim, hf.size_diagonal]
  refine inOrder_foldl (P := fun y => n ≤ y.size) (fun _ _ _ => extends_upperTransposeStep)
    (fun before k after h y hy => ?_) hb
  have hk : k < n := List.mem_range.1 (h ▸ List.mem_append_right _ List.mem_cons_self)
  have hky : k < y.size := Nat.lt_of_lt_of_le hk hy
  have hpivot : Guarded.read f.diagonal k = .ok (f.diagonal.getD k 0) :=
    Guarded.read_eq_ok (hf.size_diagonal.symm ▸ hk) 0
  have hrow : Guarded.read f.upperRows k = .ok (f.upperRow k) :=
    Guarded.read_eq_ok (hf.size_upperRows.symm ▸ hk) .empty
  have hsettle := Marked.settle_eq (m := ⟨y, before⟩)
    (f := fun x => do return x / (← Guarded.read f.diagonal k)) (d := 0)
    (not_mem_ascending h (Nat.le_refl k)) hky (bind_eq_ok_iff.2 ⟨_, hpivot, rfl⟩)
  have hsize : n ≤ (y.setIfInBounds k (y.getD k 0 / f.diagonal.getD k 0)).size := by
    rwa [Array.size_setIfInBounds]
  have hentry : Marked.readFinal
      ⟨y.setIfInBounds k (y.getD k 0 / f.diagonal.getD k 0), before ++ [k]⟩ k =
      .ok (y.getD k 0 / f.diagonal.getD k 0) := by
    rw [Marked.readFinal_eq (List.mem_append_right _ List.mem_cons_self)
      (Nat.lt_of_lt_of_le hk hsize) 0]
    simp [hky]
  refine ⟨bind_eq_ok_iff.2 ⟨_, hsettle, bind_eq_ok_iff.2 ⟨_, hrow,
    bind_eq_ok_iff.2 ⟨_, hentry, spread_eq ?_ _⟩⟩⟩, ?_⟩
  · intro j hj
    obtain ⟨hkj, hjn⟩ := hf.upper_lt k j hj
    exact ⟨not_mem_finished h hkj, Nat.lt_of_lt_of_le hjn hsize⟩
  · rwa [SparseLu.size_subtractMultiple]

omit hf in
/-- A loop downwards that computes each entry from those behind it runs in order. -/
private theorem inOrder_sweep {compute : Marked α → Nat → α → Checked α} {g : Nat → Array α → α}
    (hcompute : ∀ before k, k < n → (∀ i, i < n → (i ∈ before ↔ k < i)) → ∀ y, n ≤ y.size →
      compute ⟨y, before⟩ k (y.getD k 0) = .ok (g k y)) (hb : n ≤ b.size) :
    InOrder (List.range n).reverse (fun m k => m.settle k (compute m k)) b
      (Vec.sweep (List.range n).reverse g b) := by
  refine inOrder_foldl (P := fun y => n ≤ y.size) (fun _ _ _ => Marked.extends_settle)
    (fun before k after h y hy => ⟨?_, by rwa [Array.size_setIfInBounds]⟩) hb
  have hmem : k ∈ (List.range n).reverse := h ▸ List.mem_append_right _ List.mem_cons_self
  have hk : k < n := List.mem_range.1 (List.mem_reverse.1 hmem)
  have hbefore : ∀ i, i < n → (i ∈ before ↔ k < i) := fun i => mem_descending h
  exact Marked.settle_eq (mt (hbefore k hk).1 (Nat.lt_irrefl k)) (Nat.lt_of_lt_of_le hk hy)
    (hcompute before k hk hbefore y hy)

/-- The backward substitution does so in the opposite order. -/
theorem inOrder_solveUpper (hb : n ≤ b.size) :
    InOrder (List.range n).reverse (upperStep f) b (f.solveUpper b) := by
  rw [SparseLu.solveUpper, SparseLu.dim, hf.size_diagonal]
  refine inOrder_sweep (fun before k hk hbefore y hy => ?_) hb
  have hrow : Guarded.read f.upperRows k = .ok (f.upperRow k) :=
    Guarded.read_eq_ok (hf.size_upperRows.symm ▸ hk) .empty
  have hpivot : Guarded.read f.diagonal k = .ok (f.diagonal.getD k 0) :=
    Guarded.read_eq_ok (hf.size_diagonal.symm ▸ hk) 0
  refine bind_eq_ok_iff.2 ⟨_, hrow, bind_eq_ok_iff.2
    ⟨_, gather_eq (fun j hj => ?_) _, bind_eq_ok_iff.2 ⟨_, hpivot, rfl⟩⟩⟩
  obtain ⟨hkj, hjn⟩ := hf.upper_lt k j hj
  exact ⟨(hbefore j hjn).2 hkj, Nat.lt_of_lt_of_le hjn hy⟩

/-- And so does the transposed one with `L`. -/
theorem inOrder_solveLowerTranspose (hb : n ≤ b.size) :
    InOrder (List.range n).reverse (lowerTransposeStep f) b (f.solveLowerTranspose b) := by
  rw [SparseLu.solveLowerTranspose, SparseLu.dim, hf.size_diagonal]
  refine inOrder_sweep (fun before k hk hbefore y hy => ?_) hb
  have hcolumn : Guarded.read f.lowerCols k = .ok (f.lowerCol k) :=
    Guarded.read_eq_ok (hf.size_lowerCols.symm ▸ hk) .empty
  refine bind_eq_ok_iff.2 ⟨_, hcolumn, gather_eq (fun i hi => ?_) _⟩
  obtain ⟨hki, hin⟩ := hf.lower_lt k i hi
  exact ⟨(hbefore i hin).2 hki, Nat.lt_of_lt_of_le hin hy⟩

/-- Solving with triangular factors runs in order. -/
theorem solvesInOrder (hb : n ≤ b.size) : SolvesInOrder f b := by
  have hlower : n ≤ (f.solveLower b).size := by rwa [SparseLu.size_solveLower]
  have hupper : n ≤ (f.solveUpperTranspose b).size := by rwa [SparseLu.size_solveUpperTranspose]
  have hdim : Checked.require (decide (f.dim ≤ b.size)) .index = .ok () :=
    Checked.require_decide (Nat.le_trans (Nat.le_of_eq hf.size_diagonal) hb) _
  refine ⟨?_, ?_⟩ <;> rw [SparseLu.dim, hf.size_diagonal]
  · exact ⟨_, _, inOrder_solveLower hf hb, inOrder_solveUpper hf hlower,
      bind_eq_ok_iff.2 ⟨(), hdim, rfl⟩⟩
  · exact ⟨_, _, inOrder_solveUpperTranspose hf hb, inOrder_solveLowerTranspose hf hupper,
      bind_eq_ok_iff.2 ⟨(), hdim, rfl⟩⟩

end Solves

open Elimination in
/-- A factorization in natural order answers with as many columns of `L`, rows of `U` and pivots as
the block has rows, and what a program lists by appending ascends behind the diagonal. With such
factors both loops of either solve keep to the right-hand side and to final entries. Exact factors
without a zero pivot multiply to the block. -/
theorem factors_triangular (α K : Type) [Scalar α] [ExactScalar K] :
    (∀ (refactorTol : α) (block : SparseMatrix α) (f : SparseLu α), block.cols = block.rows →
      SparseLu.factor refactorTol block = .ok f →
      SparseLu.listFactors refactorTol block = .ok f.listed ∧ f.listed.Triangular block.rows ∧
        ∀ b : Array α, block.rows ≤ b.size → SolvesInOrder f b) ∧
    ∀ (refactorTol : K) (block : SparseMatrix K) (f : SparseLu K), block.cols = block.rows →
      SparseLu.factor refactorTol block = .ok f →
      (0 ≤ refactorTol ∨ ∀ t, t < block.rows → f.diagonal.getD t 0 ≠ 0) →
      UnitTriangles f.lowerEntry f.upperEntry block.rows ∧
        ∀ i j, i < block.rows → j < block.rows →
          triangleProduct f.lowerEntry f.upperEntry block.rows i j = block.entry i j := by
  refine ⟨fun refactorTol block f hsquare h => ?_, fun refactorTol block f hsquare h hpivots => ?_⟩
  · have htriangular := SparseLu.triangular_factor hsquare h
    refine ⟨?_, htriangular.listed, fun b => solvesInOrder htriangular⟩
    rw [SparseLu.listFactors_eq, h]
    rfl
  · refine SparseLu.product_factor hsquare h fun t ht => ?_
    rcases hpivots with htol | hpivots
    · exact SparseLu.diagonal_ne_zero htol hsquare h ht
    · exact hpivots t ht

open Elimination SparseLu in
/-- In the first step the third row loses its entry in the second column. The pattern of that column
keeps the row, and the second step finds nothing there to take. -/
theorem factors_triangular_sample :
    let block : SparseMatrix ℚ := .ofEntries 3 3 fun i j => [((0, 0), 2), ((0, 1), 1), ((0, 2), 3),
      ((1, 0), 4), ((1, 1), 3), ((2, 0), 2), ((2, 1), 1), ((2, 2), 5)].lookup (i, j)
    ∃ f, factor 0 block = .ok f ∧
      f.listed = ⟨#[[(1, 2), (2, 1)], [], []], #[[(1, 1), (2, 3)], [(2, -6)], []], #[2, 1, 2]⟩ ∧
      f.listed.Triangular 3 ∧ SolvesInOrder f #[1, 2, 3] ∧
      UnitTriangles f.lowerEntry f.upperEntry 3 ∧
      triangleProduct f.lowerEntry f.upperEntry 3 1 2 = 0 := by
  intro block
  have hlisted : (factor 0 block).map listed =
      .ok ⟨#[[(1, 2), (2, 1)], [], []], #[[(1, 1), (2, 3)], [(2, -6)], []], #[2, 1, 2]⟩ := by
    decide +kernel
  obtain ⟨f, hf, hlisted⟩ := map_eq_ok_iff.1 hlisted
  obtain ⟨hany, hexact⟩ := factors_triangular ℚ ℚ
  obtain ⟨-, htriangular, hsolves⟩ := hany 0 block f rfl hf
  obtain ⟨hunit, hproduct⟩ := hexact 0 block f rfl hf (.inl (le_refl 0))
  have hentry : block.entry 1 2 = 0 := by decide +kernel
  exact ⟨f, hf, hlisted, htriangular, hsolves #[1, 2, 3] (Nat.le_refl 3), hunit,
    (hproduct 1 2 (by decide) (by decide)).trans hentry⟩

end ReducedSpace
