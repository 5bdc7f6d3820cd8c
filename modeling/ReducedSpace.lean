import ReducedSpace.Settings.Environment
import ReducedSpace.Recovery
import ReducedSpace.Proofs.Decomposer.Selection
import ReducedSpace.Proofs.Basis.Solves
import ReducedSpace.Proofs.Dense.Packed
import ReducedSpace.Proofs.Decomposition.CallerOrder
import ReducedSpace.Proofs.Decomposer.Independence
import ReducedSpace.Proofs.Conditioning.Baseline
import ReducedSpace.Proofs.Conditioning.NotANumber
import ReducedSpace.Proofs.Decomposition.NotANumber
import ReducedSpace.Proofs.Recovery.Escalation
import ReducedSpace.Proofs.Decomposer.Operators
import ReducedSpace.Proofs.Decomposer.Updates
import ReducedSpace.Proofs.Guarded.Session
import ReducedSpace.Proofs.Recovery.Accounting
import ReducedSpace.Proofs.Basis.StoredValues
import ReducedSpace.Proofs.Basis.SearchFactors
import ReducedSpace.Proofs.Basis.PivotMagnitudes
import ReducedSpace.Proofs.Basis.Thresholds
import ReducedSpace.Proofs.Decomposer.Retries
import ReducedSpace.Proofs.Decomposer.Attempts
import ReducedSpace.Proofs.Decomposer.ClientSets
import ReducedSpace.Proofs.Basis.WellFormed
import ReducedSpace.Proofs.Basis.Exhaustion
import ReducedSpace.Proofs.Basis.Refactorization
import ReducedSpace.Proofs.Basis.Multipliers
import ReducedSpace.Proofs.Decomposer.Interchange
import ReducedSpace.Proofs.Decomposer.Testing
import ReducedSpace.Proofs.Decomposer.Scaling
import ReducedSpace.Proofs.Decomposer.StoredZeros
import ReducedSpace.Proofs.Basis.OptimalPivot
import ReducedSpace.Proofs.Conditioning.Monotone
import ReducedSpace.Proofs.Decomposer.Chosen
import ReducedSpace.Proofs.Permutation.Laws
import ReducedSpace.Proofs.Sparse.Blocks
import ReducedSpace.Proofs.Basis.ActiveInvariant
import ReducedSpace.Proofs.Basis.RetryThresholds
import ReducedSpace.Proofs.Guarded.Substitution
import ReducedSpace.Proofs.Sparse.DenseAgreement
