import Mathlib
import ReducedSpace.Proofs.Basis.NaturalOrder
import ReducedSpace.Proofs.Decomposer.Updates
import ReducedSpace.Proofs.Sparse.Selection

/-!
# The sets of a client

A basis of the caller's choice is adopted with the caller's sets. The solver orders the basis block
only, so the orders of the partition change in front of the rank and nowhere else, and the basis
block of the partition that is published is the caller's block in the order of the solver: the one
that the published factors belong to.
-/

namespace ReducedSpace

namespace Permutation

/-- No index stands twice in a part of the table. -/
theorem nodup_extract_olds (p : Permutation) (start stop : ℕ) :
    (p.olds.extract start stop).toList.Nodup := by
  have hnodup : p.olds.toList.Nodup := p.olds_perm.nodup_iff.2 List.nodup_range
  rw [Array.toList_extract]
  exact hnodup.sublist ((List.take_sublist _ _).trans (List.drop_sublist _ _))

/-- Parts of two tables with the same indices are reorderings of each other. -/
theorem extract_olds_perm {p q : Permutation} {start stop start' stop' : ℕ}
    (h : ∀ i, i ∈ p.olds.extract start stop ↔ i ∈ q.olds.extract start' stop') :
    (p.olds.extract start stop).toList.Perm (q.olds.extract start' stop').toList := by
  refine (List.perm_ext_iff_of_nodup (p.nodup_extract_olds _ _) (q.nodup_extract_olds _ _)).2
    fun i => ?_
  rw [Array.mem_toList_iff, Array.mem_toList_iff]
  exact h i

end Permutation

namespace SparseMatrix

variable {α : Type} {rowPerm colPerm : Permutation}

/-- Orders of all rows and columns of a block lead to the reordered block. -/
theorem leadingBlock_eq_reorder (a : SparseMatrix α) {r : ℕ} (hrows : a.rows = r)
    (hcols : a.cols = r) (hrow : rowPerm.size = r) (hcol : colPerm.size = r) :
    MarkowitzSolver.leadingBlock a rowPerm colPerm r =
      (a.reorderRows rowPerm).reorderCols colPerm := by
  have hwholeRow : rowPerm.olds.extract 0 r = rowPerm.olds := hrow ▸ Array.extract_size
  have hwholeCol : colPerm.olds.extract 0 r = colPerm.olds := hcol ▸ Array.extract_size
  rw [MarkowitzSolver.leadingBlock, hwholeRow, hwholeCol]
  exact a.submatrix_olds_eq_reorder (hrow.trans hrows.symm) (hcol.trans hcols.symm)

end SparseMatrix

namespace Partition

variable {p q : Partition}

/-- The same choice lists the same variables and equations in front, in some order. -/
theorem SameChoice.depVars_perm (h : p.SameChoice q) :
    p.depVars.toList.Perm q.depVars.toList :=
  Permutation.extract_olds_perm h.depVars_iff

/-- The same choice lists the same decomposed equations, in some order. -/
theorem SameChoice.decompEqus_perm (h : p.SameChoice q) :
    p.decompEqus.toList.Perm q.decompEqus.toList :=
  Permutation.extract_olds_perm h.decompEqus_iff

end Partition

namespace Decomposer

variable {σ α S N : Type} [Scalar α] [Factorization S N α] [DirectSolver σ α S N]
  [NaturalSolver σ]

/-- A decomposition with the sets of a client and with the factors of the client's basis block. -/
structure KeepsClient (s : Decomposer σ α S N) (client : Partition) (gc : SparseMatrix α)
    (dec : Decomposition α S N) : Prop where
  rank_eq : dec.partition.rank = client.rank
  depVars_perm : dec.partition.depVars.toList.Perm client.depVars.toList
  decompEqus_perm : dec.partition.decompEqus.toList.Perm client.decompEqus.toList
  indepVars_eq : dec.partition.indepVars = client.indepVars
  undecompEqus_eq : dec.partition.undecompEqus = client.undecompEqus
  /-- The solver answers an analysis of the client's block with orders of its rows and columns. The
  block in these orders is the basis block of the decomposition, and the factors belong to it. -/
  basisBlock_eq : ∃ block an reordered,
    client.basisBlock gc = .ok block ∧
    (DirectSolver.analyze s.solver block (.ofRank client.rank)).1 = .ok an ∧
    (block.permuteRows an.rowPerm >>= SparseMatrix.permuteCols an.colPerm) = .ok reordered ∧
    dec.partition.basisBlock gc = .ok reordered ∧
    dec.basis = an.basis ∧ NaturalSolver.FactorsInPlace s.solver reordered dec.basis

/-- The decomposition that adopts a client's partition is published and keeps the client's sets. -/
def KeepsClients (s : Decomposer σ α S N) : Prop :=
  ∀ client gc dec, (s.setBasis client gc).1 = .ok dec →
    (s.setBasis client gc).2.current = some dec ∧ s.KeepsClient client gc dec

variable [Dimensioned S N] [SizedSolver σ]

/-- Every adopted choice is kept if the answers of the solver have the right sizes. -/
theorem keepsClients (s : Decomposer σ α S N) : s.KeepsClients := by
  intro client gc dec h
  have hchoice := setBasis_sameChoice h
  refine ⟨((s.advances (.set client gc)).succeeded dec h).2, ?_⟩
  have houtcome := s.perform_outcome (.set client gc)
  have hanswer : (s.perform (.set client gc)).1 = .ok dec := h
  generalize s.perform (.set client gc) = answer at houtcome hanswer
  cases houtcome with
  | failed e solver => cases hanswer
  | @published partition basis d solver settled prepared =>
    cases hanswer
    have hbuilt := (prepare_eq_ok_iff.1 prepared).1
    refine ⟨(Partition.sameChoice_iff.1 hchoice).1, hchoice.depVars_perm, hchoice.decompEqus_perm,
      hchoice.indepVars_eq, hchoice.undecompEqus_eq, ?_⟩
    cases settled with
    | @set _ _ block an _ checked extracted analyzed refined =>
      have hp := refines_of_refine refined
      have hfits := SizedSolver.analyze_fits analyzed
      obtain ⟨hrows, hcols, -⟩ := Partition.basisBlock_spec extracted
      have hrow : an.rowPerm.size = client.rank := hfits.size_rowPerm.trans hrows
      have hcol : an.colPerm.size = client.rank := hfits.size_colPerm.trans hcols
      have hrank : an.rank = client.rank :=
        (hfits.hasDim.dim_eq.symm.trans hbuilt.dim_eq).trans hp.rank_eq
      have hleading : MarkowitzSolver.leadingBlock block an.rowPerm an.colPerm an.rank =
          (block.reorderRows an.rowPerm).reorderCols an.colPerm := by
        rw [hrank]
        exact block.leadingBlock_eq_reorder hrows hcols hrow hcol
      refine ⟨block, an, (block.reorderRows an.rowPerm).reorderCols an.colPerm, extracted, analyzed,
        block.permute_eq_ok hfits.size_rowPerm hfits.size_colPerm, ?_, hbuilt.basis_eq, ?_⟩
      · have hblock : partition.basisBlock gc = .ok dec.basisBlock := hbuilt.basisBlock_eq
        rw [hp.leadingBlock_eq hrank hrow hcol extracted hblock] at hleading
        rw [hbuilt.partition_eq, hblock, hleading]
      · rw [hbuilt.basis_eq, ← hleading]
        exact NaturalSolver.analyze_inPlace analyzed

end Decomposer

open Decomposer in
/-- Every solver of the library, in every state of a system and in any arithmetic, keeps the sets of
a client: a basis that is adopted has the client's rank, the client's lists up to the order in front
of the rank, and the factors of the client's basis block in that order. -/
theorem client_sets_kept {α : Type} [Scalar α] :
    (∀ s : Decomposer (DenseSolver α) α DenseStructure (DenseLu α), s.KeepsClients) ∧
      (∀ s : Decomposer (MarkowitzSolver α) α MarkowitzStructure (SparseLu α), s.KeepsClients) ∧
      ∀ s : Decomposer (ChosenSolver α) α ChosenStructure (ChosenFactors α), s.KeepsClients :=
  ⟨keepsClients, keepsClients, keepsClients⟩

open Decomposer in
/-- The sparse solver exchanges the decomposed equations of the sample client. -/
theorem client_sets_kept_sample :
    let s : Decomposer (ChosenSolver Rat) Rat ChosenStructure (ChosenFactors Rat) :=
      .sample (.markowitz (.ofSettings (sampleSettings .markowitz))) (sampleSettings .markowitz)
    ∃ dec, (s.setBasis sampleClient sampleGradients).1 = .ok dec ∧
      sampleClient.decompEqus = #[1, 0] ∧ dec.partition.decompEqus = #[0, 1] ∧
      (s.setBasis sampleClient sampleGradients).2.current = some dec ∧
      s.KeepsClient sampleClient sampleGradients dec := by
  intro s
  have hequs : (s.setBasis sampleClient sampleGradients).1.toOption.map
      (fun dec => dec.partition.decompEqus) = some #[0, 1] := by decide +kernel
  obtain ⟨-, -, hchosen⟩ := @client_sets_kept Rat _
  cases hanswer : (s.setBasis sampleClient sampleGradients).1 with
  | error e =>
    rw [hanswer] at hequs
    cases hequs
  | ok dec =>
    rw [hanswer] at hequs
    obtain ⟨hcurrent, hkeeps⟩ := hchosen s sampleClient sampleGradients dec hanswer
    exact ⟨dec, rfl, by decide +kernel, Option.some.inj hequs, hcurrent, hkeeps⟩

end ReducedSpace
