import ReducedSpace.Proofs.Sparse.Selection

/-!
# The blocks of a partition tile the gradients

In the order of a partition every position belongs to one of three blocks: to the undecomposed
columns, or else to the basis or the nonbasis rows of the decomposed ones. A block stores what the
gradients store in its region and nothing else. The blocks therefore hold together every stored
entry of the gradients, each of them once and at its permuted place; explicit zeros are not dropped.
-/

namespace ReducedSpace

namespace Partition

/-- The blocks of the gradients that a decomposition is made of. -/
inductive Block
  | basis
  | nonbasis
  | undecomposed
  deriving DecidableEq

/-- The blocks, each of them once. -/
def Block.all : List Block := [.basis, .nonbasis, .undecomposed]

/-- Every block is listed. -/
theorem Block.mem_all (b : Block) : b ∈ all := by
  cases b <;> decide

/-- Once. -/
theorem Block.nodup_all : all.Nodup := by decide

variable {α : Type}

/-- The variables of the rows of a block. -/
def rowsOf (p : Partition) : Block → Array Nat
  | .basis => p.depVars
  | .nonbasis => p.indepVars
  | .undecomposed => p.varPerm.olds

/-- The equations of the columns of a block. -/
def colsOf (p : Partition) : Block → Array Nat
  | .basis | .nonbasis => p.decompEqus
  | .undecomposed => p.undecompEqus

/-- The number of rows and of columns of a block. -/
def sizeOf (p : Partition) : Block → Nat × Nat
  | .basis => (p.rank, p.rank)
  | .nonbasis => (p.n - p.rank, p.rank)
  | .undecomposed => (p.n, p.m - p.rank)

/-- Where a block begins in the order of the partition. -/
def origin (p : Partition) : Block → Nat × Nat
  | .basis => (0, 0)
  | .nonbasis => (p.rank, 0)
  | .undecomposed => (0, p.rank)

/-- The block that a position in the order of the partition belongs to. -/
def blockAt (p : Partition) (i j : Nat) : Block :=
  if p.rank ≤ j then .undecomposed else if p.rank ≤ i then .nonbasis else .basis

/-- Extracts a block. -/
def extract (p : Partition) (gc : SparseMatrix α) : Block → Checked (SparseMatrix α)
  | .basis => p.basisBlock gc
  | .nonbasis => p.nonbasisBlock gc
  | .undecomposed => p.undecomposedBlock gc

/-- An entry of the gradients in the order of the partition. -/
def moved (p : Partition) (t : Nat × Nat × α) : Nat × Nat × α :=
  (p.varPerm.new t.1, p.equPerm.new t.2.1, t.2.2)

/-- An entry of a block in the order of the partition. -/
def placed (p : Partition) (b : Block) (t : Nat × Nat × α) : Nat × Nat × α :=
  ((p.origin b).1 + t.1, (p.origin b).2 + t.2.1, t.2.2)

/-- The entries of all blocks in the order of the partition. -/
def blockEntries (p : Partition) (part : Block → SparseMatrix α) : List (Nat × Nat × α) :=
  Block.all.flatMap fun b => (part b).toTriplets.map (p.placed b)

variable {p : Partition} {gc : SparseMatrix α} {part : Block → SparseMatrix α} {b : Block}

/-- Taking a block is selecting its rows and columns. -/
theorem extract_eq_select : p.extract gc b = gc.select (p.rowsOf b) (p.colsOf b) := by
  cases b <;> rfl

/-- All blocks of gradients of the right shape can be taken. -/
theorem exists_extract (hrows : gc.rows = p.n) (hcols : gc.cols = p.m) :
    ∃ part : Block → SparseMatrix α, ∀ b, p.extract gc b = .ok (part b) := by
  obtain ⟨⟨basis, hbasis⟩, ⟨nonbasis, hnonbasis⟩, undecomposed, hundecomposed⟩ :=
    p.exists_blocks hrows hcols
  refine ⟨fun | .basis => basis | .nonbasis => nonbasis | .undecomposed => undecomposed,
    fun b => ?_⟩
  cases b with
  | basis => exact hbasis
  | nonbasis => exact hnonbasis
  | undecomposed => exact hundecomposed

/-- A block has the size that the partition gives it. -/
theorem size_extract {block : SparseMatrix α} (h : p.extract gc b = .ok block) :
    (block.rows, block.cols) = p.sizeOf b := by
  cases b with
  | basis => exact Prod.ext (basisBlock_spec h).1 (basisBlock_spec h).2.1
  | nonbasis => exact Prod.ext (nonbasisBlock_spec h).1 (nonbasisBlock_spec h).2.1
  | undecomposed => exact Prod.ext (undecomposedBlock_spec h).1 (undecomposedBlock_spec h).2.1

/-- Its rows and columns are as many. -/
theorem size_rowsOf : ((p.rowsOf b).size, (p.colsOf b).size) = p.sizeOf b := by
  cases b with
  | basis => exact Prod.ext p.size_depVars p.size_decompEqus
  | nonbasis => exact Prod.ext p.size_indepVars p.size_decompEqus
  | undecomposed => exact Prod.ext rfl p.size_undecompEqus

/-- No block exceeds the gradients. -/
theorem sizeOf_le : (p.sizeOf b).1 ≤ p.n ∧ (p.sizeOf b).2 ≤ p.m := by
  have hrank : p.rank ≤ p.n := p.rank_le_n
  have hrank' : p.rank ≤ p.m := p.rank_le_m
  cases b <;> simp only [sizeOf] <;> omega

/-- A block stores what the gradients store at its place. -/
theorem find?_extract {block : SparseMatrix α} (h : p.extract gc b = .ok block) {i j : Nat}
    (hi : i < (p.sizeOf b).1) (hj : j < (p.sizeOf b).2) : block.find? i j =
      gc.find? (p.varPerm.old ((p.origin b).1 + i)) (p.equPerm.old ((p.origin b).2 + j)) := by
  cases b with
  | basis =>
    rw [(basisBlock_spec h).2.2 i j hi hj, origin, Nat.zero_add, Nat.zero_add]
  | nonbasis =>
    rw [(nonbasisBlock_spec h).2.2 i j hi hj, origin, Nat.zero_add]
  | undecomposed =>
    rw [(undecomposedBlock_spec h).2.2 i j hi hj, origin, Nat.zero_add]

/-- The positions of a block are those of its region. -/
theorem blockAt_eq_iff {i j : Nat} (hi : i < p.n) (hj : j < p.m) :
    p.blockAt i j = b ↔ ∃ k l, k < (p.sizeOf b).1 ∧ l < (p.sizeOf b).2 ∧
      (p.origin b).1 + k = i ∧ (p.origin b).2 + l = j := by
  rw [blockAt]
  constructor
  · intro h
    refine ⟨i - (p.origin b).1, j - (p.origin b).2, ?_⟩
    split at h
    · subst h
      simp only [sizeOf, origin]
      omega
    · split at h <;> subst h <;> simp only [sizeOf, origin] <;> omega
  · rintro ⟨k, l, hk, hl, hrow, hcol⟩
    cases b <;> simp only [sizeOf, origin] at hk hl hrow hcol
    · rw [if_neg (by omega), if_neg (by omega)]
    · rw [if_neg (by omega), if_pos (by omega)]
    · rw [if_pos (by omega)]

/-- The rearranged entries are the entries at the old positions. -/
theorem mem_map_moved_iff {t : Nat × Nat × α} : t ∈ gc.toTriplets.map p.moved ↔
    gc.find? (p.varPerm.old t.1) (p.equPerm.old t.2.1) = some t.2.2 := by
  rw [List.mem_map]
  constructor
  · rintro ⟨t, ht, rfl⟩
    rw [moved, p.varPerm.old_new, p.equPerm.old_new]
    exact SparseMatrix.mem_toTriplets_iff.1 ht
  · intro ht
    refine ⟨(p.varPerm.old t.1, p.equPerm.old t.2.1, t.2.2),
      SparseMatrix.mem_toTriplets_iff.2 ht, ?_⟩
    rw [moved, p.varPerm.new_old, p.equPerm.new_old]

/-- The entries of a block are the moved entries of the gradients in its region. -/
theorem mem_map_placed_iff (hrows : gc.rows = p.n) (hcols : gc.cols = p.m)
    {block : SparseMatrix α} (h : p.extract gc b = .ok block) {t : Nat × Nat × α} :
    t ∈ block.toTriplets.map (p.placed b) ↔
      t ∈ gc.toTriplets.map p.moved ∧ p.blockAt t.1 t.2.1 = b := by
  obtain ⟨hblockRows, hblockCols⟩ := Prod.mk.injEq .. ▸ size_extract h
  rw [List.mem_map, mem_map_moved_iff]
  constructor
  · rintro ⟨⟨k, l, v⟩, ht, rfl⟩
    have hstored : block.find? k l = some v := SparseMatrix.mem_toTriplets_iff.1 ht
    obtain ⟨hk, hl⟩ := SparseMatrix.lt_of_find?_eq_some hstored
    rw [find?_extract h (hblockRows ▸ hk) (hblockCols ▸ hl)] at hstored
    obtain ⟨hi, hj⟩ := SparseMatrix.lt_of_find?_eq_some hstored
    refine ⟨hstored, (blockAt_eq_iff ?_ ?_).2 ⟨k, l, hblockRows ▸ hk, hblockCols ▸ hl, rfl, rfl⟩⟩
    · exact p.varPerm.old_lt_iff.1 (hi.trans_eq hrows)
    · exact p.equPerm.old_lt_iff.1 (hj.trans_eq hcols)
  · obtain ⟨i, j, v⟩ := t
    rintro ⟨hstored, hregion⟩
    obtain ⟨hi, hj⟩ := SparseMatrix.lt_of_find?_eq_some hstored
    obtain ⟨k, l, hk, hl, rfl, rfl⟩ := (blockAt_eq_iff (p.varPerm.old_lt_iff.1 (hi.trans_eq hrows))
      (p.equPerm.old_lt_iff.1 (hj.trans_eq hcols))).1 hregion
    refine ⟨(k, l, v), SparseMatrix.mem_toTriplets_iff.2 ?_, rfl⟩
    rw [find?_extract h hk hl]
    exact hstored

/-- The entries of all blocks are the rearranged entries. -/
theorem mem_blockEntries_iff (hrows : gc.rows = p.n) (hcols : gc.cols = p.m)
    (h : ∀ b, p.extract gc b = .ok (part b)) {t : Nat × Nat × α} :
    t ∈ p.blockEntries part ↔ t ∈ gc.toTriplets.map p.moved := by
  rw [blockEntries, List.mem_flatMap]
  constructor
  · rintro ⟨b, -, ht⟩
    exact ((mem_map_placed_iff hrows hcols (h b)).1 ht).1
  · intro ht
    exact ⟨p.blockAt t.1 t.2.1, Block.mem_all _,
      (mem_map_placed_iff hrows hcols (h _)).2 ⟨ht, rfl⟩⟩

/-- Different entries of a block have different places. -/
theorem placed_injective : Function.Injective (p.placed b (α := α)) := by
  rintro ⟨i, j, v⟩ ⟨i', j', v'⟩ h
  simp only [placed, Prod.mk.injEq, Nat.add_left_cancel_iff] at h
  obtain ⟨rfl, rfl, rfl⟩ := h
  rfl

/-- No entry of the blocks stands twice: a position is in the region of one block only. -/
theorem nodup_blockEntries (hrows : gc.rows = p.n) (hcols : gc.cols = p.m)
    (h : ∀ b, p.extract gc b = .ok (part b)) : (p.blockEntries part).Nodup := by
  rw [blockEntries, List.nodup_flatMap]
  refine ⟨fun b _ => (part b).nodup_toTriplets.map placed_injective,
    Block.nodup_all.imp fun {b b'} hne => ?_⟩
  refine List.disjoint_left.2 fun t ht ht' => hne ?_
  rw [← ((mem_map_placed_iff hrows hcols (h b)).1 ht).2,
    ← ((mem_map_placed_iff hrows hcols (h b')).1 ht').2]

/-- The gradients in the order of the partition, cut into blocks. -/
structure Tiles (p : Partition) (gc : SparseMatrix α) (part : Block → SparseMatrix α) : Prop where
  size_eq : ∀ b, ((part b).rows, (part b).cols) = p.sizeOf b
  /-- The blocks hold the moved entries of the gradients, no entry more and none twice. -/
  entries_perm : (p.blockEntries part).Perm (gc.toTriplets.map p.moved)
  /-- No two entries stand at one position, be it in one block or in two. -/
  nodup_position : ((p.blockEntries part).map SparseMatrix.position).Nodup
  /-- An entry of the gradients is in the block of its region, and in no other. -/
  mem_iff : ∀ t ∈ gc.toTriplets, ∀ b, p.moved t ∈ (part b).toTriplets.map (p.placed b) ↔
    p.blockAt (p.varPerm.new t.1) (p.equPerm.new t.2.1) = b

/-- So the blocks hold every rearranged entry exactly once. -/
theorem tiles (hrows : gc.rows = p.n) (hcols : gc.cols = p.m)
    (h : ∀ b, p.extract gc b = .ok (part b)) : p.Tiles gc part := by
  have hmoved : (gc.toTriplets.map p.moved).Perm
      ((gc.reorderRows p.varPerm).reorderCols p.equPerm).toTriplets :=
    gc.map_perm_reorder hrows.symm hcols.symm
  have hperm : (p.blockEntries part).Perm (gc.toTriplets.map p.moved) :=
    (List.perm_ext_iff_of_nodup (nodup_blockEntries hrows hcols h)
      (hmoved.nodup_iff.2 (SparseMatrix.nodup_toTriplets _))).2
      fun t => mem_blockEntries_iff hrows hcols h
  refine ⟨fun b => size_extract (h b), hperm,
    (SparseMatrix.perm_toTriplets_iff.1 (hperm.trans hmoved)).1, fun t ht b => ?_⟩
  rw [mem_map_placed_iff hrows hcols (h b), and_iff_right (List.mem_map_of_mem ht)]
  rfl

/-- All of the gradients in the order of the partition. -/
structure Rearranged (p : Partition) (gc whole : SparseMatrix α) : Prop where
  selected : gc.select p.varPerm.olds p.equPerm.olds = .ok whole
  permuted : (gc.permuteRows p.varPerm >>= SparseMatrix.permuteCols p.equPerm) = .ok whole
  entries_perm : (gc.toTriplets.map p.moved).Perm whole.toTriplets

/-- Reordering rows and columns rearranges the entries. -/
theorem rearranged (hrows : gc.rows = p.n) (hcols : gc.cols = p.m) :
    p.Rearranged gc ((gc.reorderRows p.varPerm).reorderCols p.equPerm) where
  selected := by
    refine SparseMatrix.select_eq_ok_iff.2 ⟨fun i hi => ?_, fun j hj => ?_,
      gc.submatrix_olds_eq_reorder hrows.symm hcols.symm⟩
    · exact hrows ▸ Permutation.lt_of_mem_olds hi
    · exact hcols ▸ Permutation.lt_of_mem_olds hj
  permuted := gc.permute_eq_ok hrows.symm hcols.symm
  entries_perm := gc.map_perm_reorder hrows.symm hcols.symm

/-- A program that inverts the lists of rows and columns with a mark for what is not listed, and
that reorders by the stored inverse tables, gets the same blocks and the same reordered
gradients. -/
structure ComputedByTables [Add α] (p : Partition) (gc : SparseMatrix α) (free : Nat) : Prop where
  extract_eq : ∀ b, p.extract gc b = gc.selectByTables free (p.rowsOf b) (p.colsOf b)
  select_eq : gc.select p.varPerm.olds p.equPerm.olds =
    gc.selectByTables free p.varPerm.olds p.equPerm.olds
  permute_eq : (gc.permuteRows p.varPerm >>= SparseMatrix.permuteCols p.equPerm) =
    gc.permuteRowsByTable p.varPerm >>= SparseMatrix.permuteColsByTable p.equPerm

/-- Any index beyond the sizes will do as the mark. -/
theorem computedByTables [Add α] (hrows : gc.rows = p.n) (hcols : gc.cols = p.m) {free : Nat}
    (hn : p.n ≤ free) (hm : p.m ≤ free) : p.ComputedByTables gc free where
  extract_eq b := by
    obtain ⟨part, hpart⟩ := exists_extract hrows hcols
    obtain ⟨hrow, hcol⟩ := Prod.mk.injEq .. ▸ p.size_rowsOf (b := b)
    have hselect : gc.select (p.rowsOf b) (p.colsOf b) = .ok (part b) :=
      extract_eq_select.symm.trans (hpart b)
    exact extract_eq_select.trans (SparseMatrix.select_eq_selectByTables hselect
      (hrow ▸ p.sizeOf_le.1.trans hn) (hcol ▸ p.sizeOf_le.2.trans hm))
  select_eq := SparseMatrix.select_eq_selectByTables (rearranged hrows hcols).selected hn hm
  permute_eq := by
    have hcols' : p.equPerm.size = (gc.reorderRows p.varPerm).cols := hcols.symm
    rw [← gc.permuteRows_eq_permuteRowsByTable hrows.symm, gc.permuteRows_eq_ok hrows.symm]
    exact (gc.reorderRows p.varPerm).permuteCols_eq_permuteColsByTable hcols'

/-- The blocks of gradients of the size of a partition exist and tile the gradients, whatever the
rank. The whole selection is the reordering, and tables and triplets compute all of this. -/
theorem blocks_tile [Add α] (p : Partition) (gc : SparseMatrix α) (hrows : gc.rows = p.n)
    (hcols : gc.cols = p.m) :
    (∃ part : Block → SparseMatrix α, (∀ b, p.extract gc b = .ok (part b)) ∧ p.Tiles gc part) ∧
      (∃ whole, p.Rearranged gc whole) ∧
      ∀ free, p.n ≤ free → p.m ≤ free → p.ComputedByTables gc free := by
  obtain ⟨part, hpart⟩ := exists_extract hrows hcols
  exact ⟨⟨part, hpart, tiles hrows hcols hpart⟩, ⟨_, rearranged hrows hcols⟩,
    fun _ hn hm => computedByTables hrows hcols hn hm⟩

/-- A dependent variable and a decomposed equation of three and two, in an order of their own. -/
def sampleOrder : Partition where
  varPerm := (Permutation.identity 3).swap 0 2
  equPerm := (Permutation.identity 2).swap 0 1
  rank := 1
  rank_le_n := by simp
  rank_le_m := by simp

/-- Gradients with five stored entries, one of them a zero. -/
def sampleEntries : SparseMatrix Int :=
  .ofEntries 3 2 fun i j =>
    if i = 1 then (if j = 0 then some 0 else none) else some (10 * i + j + 1)

/-- The five entries of the sample stand in the blocks, the zero in the undecomposed one. -/
theorem blocks_tile_sample : ∃ part : Block → SparseMatrix Int,
    (∀ b, sampleOrder.extract sampleEntries b = .ok (part b)) ∧
      sampleOrder.Tiles sampleEntries part ∧ (part .basis).toTriplets = [(0, 0, 22)] ∧
      (part .nonbasis).toTriplets = [(1, 0, 2)] ∧
      (part .undecomposed).toTriplets = [(0, 0, 21), (1, 0, 0), (2, 0, 1)] := by
  obtain ⟨⟨part, hpart, htiles⟩, -⟩ := blocks_tile sampleOrder sampleEntries rfl rfl
  have hread (b : Block) {entries : List (Nat × Nat × Int)}
      (h : (sampleOrder.extract sampleEntries b).toOption.map SparseMatrix.toTriplets =
        some entries) : (part b).toTriplets = entries := by
    rw [hpart] at h
    exact Option.some.inj h
  exact ⟨part, hpart, htiles, hread .basis (by decide +kernel), hread .nonbasis (by decide +kernel),
    hread .undecomposed (by decide +kernel)⟩

end Partition

end ReducedSpace
