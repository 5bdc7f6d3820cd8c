import ReducedSpace.Proofs.Outcome
import ReducedSpace.Proofs.Sparse.Submatrix
import ReducedSpace.Decomposition.Basic

/-!
# The parts of a decomposition

A decomposition that `build` returns has all its parts from one partition, one factorization and one
matrix of gradients. `BuiltFrom` says so part by part, and `build_eq_ok_iff` says that nothing else
is returned and that nothing else is needed.
-/

namespace ReducedSpace.Decomposition

variable {α S N : Type} [Scalar α] [Factorization S N α]

/-- Every part of the decomposition comes from the same partition, factors and gradients. -/
structure BuiltFrom (dec : Decomposition α S N) (partition : Partition) (basis : BasisMatrix S N)
    (gc : SparseMatrix α) (settings : Settings α) (generation : Nat) : Prop where
  partition_eq : dec.partition = partition
  generation_eq : dec.generation = generation
  basis_eq : dec.basis = basis
  /-- The factors have the size of the basis block. -/
  dim_eq : basis.dim = partition.rank
  basisBlock_eq : partition.basisBlock gc = .ok dec.basisBlock
  nonbasis_eq : ∃ block, partition.nonbasisBlock gc = .ok block ∧ dec.nonbasis = block.transpose
  undecomposed_some : partition.rank < partition.m →
    ∃ block, partition.undecomposedBlock gc = .ok block ∧ dec.undecomposed = some block
  undecomposed_none : partition.m ≤ partition.rank → dec.undecomposed = none
  sensitivity_eq : storeSensitivity settings partition.rank basis dec.nonbasis =
    .ok dec.sensitivity

private theorem BuiltFrom.eq_of_parts {dec : Decomposition α S N} {partition : Partition}
    {basis : BasisMatrix S N} {gc n : SparseMatrix α} {settings : Settings α} {generation : Nat}
    {u : Option (SparseMatrix α)} (h : dec.BuiltFrom partition basis gc settings generation)
    (hn : dec.nonbasis = n) (hu : dec.undecomposed = u) :
    ⟨partition, generation, basis, dec.basisBlock, n, dec.sensitivity, u⟩ = dec := by
  cases dec
  cases h.partition_eq
  cases h.generation_eq
  cases h.basis_eq
  cases hn
  cases hu
  rfl

/-- A decomposition is returned exactly when all its parts can be formed, and it consists of
them. -/
theorem build_eq_ok_iff {dec : Decomposition α S N} {partition : Partition}
    {basis : BasisMatrix S N} {gc : SparseMatrix α} {settings : Settings α} {generation : Nat} :
    build partition basis gc settings generation = .ok dec ↔
      dec.BuiltFrom partition basis gc settings generation := by
  rw [build]
  by_cases hdim : basis.dim = partition.rank
  · by_cases hr : partition.rank < partition.m
    · simp only [hdim, hr, ne_eq, not_true_eq_false, if_false, if_true, bind_eq_ok_iff,
        map_eq_ok_iff, Attempt.ofChecked_eq_ok_iff]
      constructor
      · rintro ⟨c, hc, n, hn, _, ⟨u, hu, rfl⟩, s, hs, hdec⟩
        cases hdec
        exact ⟨rfl, rfl, rfl, hdim, hc, ⟨n, hn, rfl⟩, fun _ => ⟨u, hu, rfl⟩,
          fun hm => absurd hr (Nat.not_lt.2 hm), hs⟩
      · intro h
        obtain ⟨n, hn, hnt⟩ := h.nonbasis_eq
        obtain ⟨u, hu, hus⟩ := h.undecomposed_some hr
        have hs := h.sensitivity_eq
        rw [hnt] at hs
        exact ⟨_, h.basisBlock_eq, n, hn, _, ⟨u, hu, rfl⟩, _, hs, congrArg Except.ok <|
          h.eq_of_parts hnt hus⟩
    · simp only [hdim, hr, ne_eq, not_true_eq_false, if_false, bind_eq_ok_iff,
        Attempt.ofChecked_eq_ok_iff]
      constructor
      · rintro ⟨c, hc, n, hn, _, hu, s, hs, hdec⟩
        cases hu
        cases hdec
        exact ⟨rfl, rfl, rfl, hdim, hc, ⟨n, hn, rfl⟩, fun hm => absurd hm hr, fun _ => rfl, hs⟩
      · intro h
        obtain ⟨n, hn, hnt⟩ := h.nonbasis_eq
        have hs := h.sensitivity_eq
        rw [hnt] at hs
        exact ⟨_, h.basisBlock_eq, n, hn, none, rfl, _, hs, congrArg Except.ok <|
          h.eq_of_parts hnt (h.undecomposed_none (Nat.not_lt.1 hr))⟩
  · simp only [ne_eq, hdim, not_false_eq_true, if_true, Attempt.fail_ne_ok, false_iff]
    intro h
    exact hdim h.dim_eq

theorem BuiltFrom.size_nonbasis {dec : Decomposition α S N} {partition : Partition}
    {basis : BasisMatrix S N} {gc : SparseMatrix α} {settings : Settings α} {generation : Nat}
    (h : dec.BuiltFrom partition basis gc settings generation) :
    dec.nonbasis.rows = partition.rank ∧ dec.nonbasis.cols = partition.n - partition.rank := by
  obtain ⟨block, hblock, hn⟩ := h.nonbasis_eq
  obtain ⟨hrows, hcols, -⟩ := Partition.nonbasisBlock_spec hblock
  rw [hn]
  exact ⟨hcols, hrows⟩

/-- What is stored is the matrix that was formed, if anything is stored. -/
theorem storeSensitivity_cases {settings : Settings α} {rank : Nat} {basis : BasisMatrix S N}
    {n : SparseMatrix α} {d : DenseMatrix α} {stored : StoredSensitivity α}
    (hd : formSensitivity basis n = .ok d)
    (h : storeSensitivity settings rank basis n = .ok stored) :
    stored = .implicit ∨ stored = .explicit d ∨ ∃ gram, stored = .orthogonal d gram := by
  rw [storeSensitivity] at h
  split at h
  · cases h
    exact .inl rfl
  · obtain ⟨a, ha, h⟩ := bind_eq_ok_iff.1 h
    rw [Attempt.ofChecked_eq_ok_iff, hd] at ha
    cases ha
    cases h
    exact .inr (.inl rfl)
  · obtain ⟨a, ha, h⟩ := bind_eq_ok_iff.1 h
    rw [Attempt.ofChecked_eq_ok_iff, hd] at ha
    cases ha
    obtain ⟨gram, -, h⟩ := bind_eq_ok_iff.1 h
    cases h
    exact .inr (.inr ⟨gram, rfl⟩)

end ReducedSpace.Decomposition
