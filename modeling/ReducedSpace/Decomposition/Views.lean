import ReducedSpace.Decomposition.Basic

/-!
# Operator views of a decomposition

The matrices of a decomposition as operators on vectors in the order of its partition. Besides `C`
and `D` these are

```text
Z  = [D; I]                               n × (n - r)
Y  = [I; 0]      (coordinate)             n × r
Y  = [I; -Dᵀ]    (orthogonal)             n × r
R  = Gc(:, decomposed)ᵀ Y                 r × r
Uy = Gc(:, undecomposed)ᵀ Y               (m - r) × r
Uz = Gc(:, undecomposed)ᵀ Z               (m - r) × (n - r)
```

`R` is `C` for the coordinate kind and `C (I + D Dᵀ)` for the orthogonal one, whose inverse is
applied as `I - D (I + Dᵀ D)⁻¹ Dᵀ`.
-/

namespace ReducedSpace

/-- The matrix `I + D Dᵀ` of the orthogonal kind. -/
structure Woodbury (α : Type) where
  d : DenseMatrix α
  /-- The factors of `I + Dᵀ D`, unless `D` has no columns. -/
  gram : Option (Cholesky α)

namespace Woodbury

variable {α : Type} [Scalar α]

/-- The product with `I + D Dᵀ`. -/
def apply (w : Woodbury α) (x : Array α) : Checked (Array α) := do
  Checked.sameLength w.d.rows x.size
  return Vec.add x (w.d.mulVecChained (w.d.transpose.mulVecChained x))

/-- The solution with `I + D Dᵀ`, by way of the smaller matrix `I + Dᵀ D`. -/
def solve (w : Woodbury α) (x : Array α) : Checked (Array α) :=
  match w.gram with
  | none => .ok x
  | some gram => do
    Checked.sameLength w.d.rows x.size
    return Vec.sub x (w.d.mulVecChained (gram.solve (w.d.transpose.mulVecChained x)))

end Woodbury

/-- `D` applied as `-C⁻¹ N`. -/
def implicitSensitivity {α : Type} [Scalar α] (c : InverseOperator α) (n : SparseMatrix α) :
    LinearOperator α where
  rows := n.rows
  cols := n.cols
  apply x := do
    let t ← n.mulVec (-1) x
    c.solve t
  applyTranspose x := do
    let t ← c.solveTranspose x
    n.mulVecTranspose (-1) t

/-- The matrix `[D; I]`. Its transpose wants at least the entries that meet `D`; of the others it
adds those that are there. -/
def nullSpace {α : Type} [Scalar α] (d : LinearOperator α) : LinearOperator α where
  rows := d.rows + d.cols
  cols := d.cols
  apply x := do
    let dep ← d.apply x
    return dep ++ x
  applyTranspose x := do
    Checked.require (decide (d.rows ≤ x.size)) .index
    let y ← d.applyTranspose (Vec.take x d.rows)
    return Vec.add y (Vec.drop x d.rows)

/-- The matrix `[I; 0]` with `n` rows and `r` columns. Its transpose reads no more than it needs. -/
def coordinateRange {α : Type} [Scalar α] (n r : Nat) : LinearOperator α where
  rows := n
  cols := r
  apply x := do
    Checked.sameLength r x.size
    return x ++ Vec.zero (n - r)
  applyTranspose x := do
    Checked.require (decide (r ≤ x.size)) .index
    return Vec.take x r

/-- The matrix `[I; -Dᵀ]`. -/
def orthogonalRange {α : Type} [Scalar α] (d : DenseMatrix α) : LinearOperator α where
  rows := d.rows + d.cols
  cols := d.rows
  apply x := do
    let indep ← d.mulVecTranspose x
    return x ++ Vec.neg indep
  applyTranspose x := do
    Checked.require (decide (d.rows ≤ x.size)) .index
    let dx ← d.mulVec (Vec.drop x d.rows)
    return Vec.sub (Vec.take x d.rows) dx

/-- The product of the transpose of some gradients with a basis. -/
def projected {α : Type} [Scalar α] (gradients : SparseMatrix α) (basis : LinearOperator α) :
    LinearOperator α where
  rows := gradients.cols
  cols := basis.cols
  apply x := do
    let w ← basis.apply x
    gradients.mulVecTranspose 1 w
  applyTranspose x := do
    let w ← gradients.mulVec 1 x
    basis.applyTranspose w

namespace Decomposition

variable {α S N : Type} [Scalar α] [Factorization S N α] (dec : Decomposition α S N)

/-- The matrix `C`, whose transpose is stored. -/
def c : LinearOperator α where
  rows := dec.basis.dim
  cols := dec.basis.dim
  apply := dec.basisBlock.mulVecTranspose 1
  applyTranspose := dec.basisBlock.mulVec 1

/-- Solves with `C`, whose transpose is factored. -/
def cInverse : InverseOperator α where
  dim := dec.basis.dim
  solve := dec.basis.solve .transposed
  solveTranspose := dec.basis.solve .plain

/-- The matrix `D`. -/
def d : LinearOperator α :=
  match dec.formed? with
  | some d => d.toOperator
  | none => implicitSensitivity dec.cInverse dec.nonbasis

/-- The basis `Z` of the null space. -/
def z : LinearOperator α := nullSpace dec.d

/-- The basis `Y` of the range space. -/
def y : LinearOperator α :=
  match dec.sensitivity with
  | .orthogonal d _ => orthogonalRange d
  | _ => coordinateRange dec.partition.n dec.rank

/-- The matrix `I + D Dᵀ`, for the orthogonal kind. -/
def woodbury? : Option (Woodbury α) :=
  match dec.sensitivity with
  | .orthogonal d gram => some ⟨d, gram⟩
  | _ => none

omit [Factorization S N α] in
variable {dec} in
/-- Unless the kind is orthogonal, `Y` selects the dependent variables and `R` is `C`. -/
theorem views_of_coordinate (h : dec.kind = .coordinate) :
    dec.y = coordinateRange dec.partition.n dec.rank ∧ dec.woodbury? = none := by
  unfold kind at h
  unfold y woodbury?
  cases hs : dec.sensitivity with
  | implicit => exact ⟨rfl, rfl⟩
  | explicit d => exact ⟨rfl, rfl⟩
  | orthogonal d gram =>
    rw [hs] at h
    cases h

/-- The matrix `R`. -/
def r : LinearOperator α :=
  match dec.woodbury? with
  | none => dec.c
  | some w => {
    rows := dec.c.rows
    cols := dec.c.cols
    apply := fun x => do
      let t ← w.apply x
      dec.c.apply t
    applyTranspose := fun x => do
      let t ← dec.c.applyTranspose x
      w.apply t }

/-- Solves with `R`. -/
def rInverse : InverseOperator α :=
  match dec.woodbury? with
  | none => dec.cInverse
  | some w => {
    dim := dec.cInverse.dim
    solve := fun b => do
      let t ← dec.cInverse.solve b
      w.solve t
    solveTranspose := fun b => do
      let t ← w.solve b
      dec.cInverse.solveTranspose t }

/-- The matrix `Uy`, if there are undecomposed equations. -/
def uy? : Option (LinearOperator α) := dec.undecomposed.map fun gu => projected gu dec.y

/-- The matrix `Uz`, if there are undecomposed equations. -/
def uz? : Option (LinearOperator α) := dec.undecomposed.map fun gu => projected gu dec.z

end Decomposition

end ReducedSpace
