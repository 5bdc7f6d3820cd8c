import ReducedSpace.Basis.ActiveMatrix

/-!
# Markowitz pivot search

A pivot should cause little fill-in and yet be large enough in its column. Columns are scanned in
the order of their number of entries; in a column every entry of sufficient magnitude is a
candidate, and the best candidate so far is kept. The search ends after a given number of columns
with candidates.
-/

namespace ReducedSpace

/-- An entry that may become a pivot. -/
structure PivotCandidate (α : Type) where
  row : Nat
  col : Nat
  preferred : Bool
  /-- An upper bound for the fill-in that the pivot causes. -/
  cost : Nat
  magnitude : α

namespace PivotCandidate

variable {α : Type} [Scalar α]

/-- A preferred row wins, then the lower cost, then the larger magnitude. -/
def beats (c best : PivotCandidate α) : Bool :=
  if c.preferred != best.preferred then c.preferred
  else if c.cost ≠ best.cost then decide (c.cost < best.cost)
  else Scalar.lt best.magnitude c.magnitude

/-- The better of the best candidate so far and a further one; a draw keeps the former. -/
def improve (best : Option (PivotCandidate α)) (c : PivotCandidate α) :
    Option (PivotCandidate α) :=
  match best with
  | none => some c
  | some b => if c.beats b then some c else some b

end PivotCandidate

namespace ActiveMatrix

variable {α : Type} [Scalar α]

/-- The columns that are not empty, by their number of entries and then by index. -/
def scanOrder (a : ActiveMatrix α) : List Nat :=
  let counts := a.cols.map SparseVec.size
  (List.range' 1 a.rows.size).flatMap fun count =>
    (List.range counts.size).filter fun j => counts.getD j 0 == count

/-- The largest magnitude in a column. -/
def columnMax (a : ActiveMatrix α) (j : Nat) : α :=
  (a.column j).indices.foldl (fun acc i => Scalar.max acc (Scalar.abs (a.value i j))) 0

/-- The candidates of a column: entries above the absolute tolerance that are not below the multiple
`u` of the largest magnitude. -/
def candidates (a : ActiveMatrix α) (u absTol : α) (hints : AnalysisHints) (j : Nat) :
    List (PivotCandidate α) :=
  let top := a.columnMax j
  let acceptable := (a.column j).indices.filter fun i =>
    let magnitude := Scalar.abs (a.value i j)
    !(Scalar.lt magnitude (u * top) || Scalar.le magnitude absTol)
  acceptable.map fun i => {
    row := i
    col := j
    preferred := hints.isPreferred i
    cost := ((a.row i).size - 1) * ((a.column j).size - 1)
    magnitude := Scalar.abs (a.value i j) }

/-- Scans columns until `limit` of them had candidates. -/
def scan (a : ActiveMatrix α) (u absTol : α) (hints : AnalysisHints) :
    (order : List Nat) → (limit : Nat) → Option (PivotCandidate α) → Option (PivotCandidate α)
  | [], _, best => best
  | j :: rest, limit, best =>
    if Scalar.le (a.columnMax j) absTol then a.scan u absTol hints rest limit best
    else match a.candidates u absTol hints j with
      | [] => a.scan u absTol hints rest limit best
      | cs =>
        let best := cs.foldl PivotCandidate.improve best
        if limit ≤ 1 then best else a.scan u absTol hints rest (limit - 1) best

/-- The best candidate of the first `limit` columns that have any. -/
def search (a : ActiveMatrix α) (u absTol : α) (hints : AnalysisHints) (limit : Nat) :
    Option (PivotCandidate α) :=
  a.scan u absTol hints a.scanOrder limit none

/-- The pivot of a limited search, or of a search of all columns if that finds none. -/
def choosePivot (a : ActiveMatrix α) (u absTol : α) (hints : AnalysisHints) (limit : Nat) :
    Option (PivotCandidate α) :=
  (a.search u absTol hints limit).or (a.search u absTol hints a.cols.size)

/-- Chooses and eliminates at most `steps` pivots; answers their positions in order. -/
def pivots (u absTol : α) (hints : AnalysisHints) (limit : Nat) :
    (steps : Nat) → ActiveMatrix α → List (Nat × Nat)
  | 0, _ => []
  | steps + 1, a =>
    match a.choosePivot u absTol hints limit with
    | none => []
    | some c => (c.row, c.col) :: pivots u absTol hints limit steps (a.eliminate c.row c.col)

end ActiveMatrix

end ReducedSpace
