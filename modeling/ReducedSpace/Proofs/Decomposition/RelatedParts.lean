import ReducedSpace.Proofs.Outcome
import ReducedSpace.Decomposition.Views

/-!
# Decompositions with related parts

Gradients whose blocks are related are built into decompositions whose parts are related, if the
same sensitivity is stored for both. Then all views that are about the sensitivity and the partition
alone are equal. What relates matrices and factors is a parameter.
-/

namespace ReducedSpace

/-- Blocks and transposes of related matrices are related. -/
structure BlockRelation {α : Type} (related : SparseMatrix α → SparseMatrix α → Prop) : Prop where
  select : ∀ {a a'}, related a a' → ∀ rows cols,
    SameAnswer related (a.select rows cols) (a'.select rows cols)
  transpose : ∀ {a a'}, related a a' → related a.transpose a'.transpose

namespace Decomposition

variable {α S N : Type}

/-- The same choice with the same sensitivity, and related matrices and factors. -/
structure RelatedParts (matrices : SparseMatrix α → SparseMatrix α → Prop)
    (factors : BasisMatrix S N → BasisMatrix S N → Prop) (dec dec' : Decomposition α S N) :
    Prop where
  partition_eq : dec.partition = dec'.partition
  generation_eq : dec.generation = dec'.generation
  basis : factors dec.basis dec'.basis
  basisBlock : matrices dec.basisBlock dec'.basisBlock
  nonbasis : matrices dec.nonbasis dec'.nonbasis
  sensitivity_eq : dec.sensitivity = dec'.sensitivity
  undecomposed : Option.Rel matrices dec.undecomposed dec'.undecomposed

variable {matrices : SparseMatrix α → SparseMatrix α → Prop}
  {factors : BasisMatrix S N → BasisMatrix S N → Prop} {dec dec' : Decomposition α S N}

section Views

variable (h : RelatedParts matrices factors dec dec')
include h

theorem RelatedParts.kind_eq : dec.kind = dec'.kind := by
  rw [kind, kind, h.sensitivity_eq]

theorem RelatedParts.formed_eq : dec.formed? = dec'.formed? := by
  rw [formed?, formed?, h.sensitivity_eq]

theorem RelatedParts.woodbury_eq : dec.woodbury? = dec'.woodbury? := by
  rw [woodbury?, woodbury?, h.sensitivity_eq]

theorem RelatedParts.y_eq [Scalar α] : dec.y = dec'.y := by
  rw [y, y, h.sensitivity_eq, rank, rank, h.partition_eq]

end Views

/-- Decompositions are built from related gradients or not, for the same reason. -/
theorem build_relatedParts [Scalar α] [Factorization S N α] (hblocks : BlockRelation matrices)
    {gc gc' : SparseMatrix α} (hgc : matrices gc gc') {basis basis' : BasisMatrix S N}
    (hdim : basis.dim = basis'.dim) (hbasis : factors basis basis') (partition : Partition)
    {settings : Settings α} (hstored : ∀ n n', matrices n n' →
      storeSensitivity settings partition.rank basis n =
        storeSensitivity settings partition.rank basis' n') (generation : Nat) :
    SameAnswer (RelatedParts matrices factors) (build partition basis gc settings generation)
      (build partition basis' gc' settings generation) := by
  have hblock (rows cols : Array Nat) :=
    (hblocks.select hgc rows cols).ofChecked (ε := DecompError α)
  rw [build, build, ← hdim]
  split
  · exact .error _
  refine (hblock _ _).bind fun block block' hblock' => ?_
  refine (hblock _ _).bind fun nonbasis nonbasis' hnonbasis => ?_
  have hnonbasis := hblocks.transpose hnonbasis
  have hparts (u u' : Option (SparseMatrix α)) (hu : Option.Rel matrices u u') :
      SameAnswer (RelatedParts matrices factors)
        (storeSensitivity settings partition.rank basis nonbasis.transpose >>= fun stored =>
          pure ⟨partition, generation, basis, block, nonbasis.transpose, stored, u⟩)
        (storeSensitivity settings partition.rank basis' nonbasis'.transpose >>= fun stored =>
          pure ⟨partition, generation, basis', block', nonbasis'.transpose, stored, u'⟩) := by
    rw [hstored _ _ hnonbasis]
    refine (sameAnswer_self _).bind ?_
    rintro stored _ ⟨-, rfl⟩
    exact .ok ⟨rfl, rfl, hbasis, hblock', hnonbasis, rfl, hu⟩
  dsimp only
  split
  · exact ((hblock _ _).map fun _ _ h => .some h).bind hparts
  · exact hparts none none .none

end Decomposition

end ReducedSpace
