import JointMax.Table.Condition
import JointMax.Table.Marginal
import JointMax.Table.Reduce
import JointMax.Table.Storage
import JointMax.Table.Grid
import JointMax.Graph.Cycle
import JointMax.Solver.Run
import JointMax.Wire.Values
import JointMax.Proofs.Conformity
import JointMax.Proofs.Slices
import JointMax.Proofs.Runs
import JointMax.Proofs.Histories
import JointMax.Proofs.Forest
import JointMax.Proofs.Settling
import JointMax.Proofs.Calibration
import JointMax.Proofs.Credence
import JointMax.Proofs.FixedPoints
import JointMax.Proofs.ForestOptimum
import JointMax.Proofs.Stopping
import JointMax.Proofs.Convergence
import JointMax.Proofs.Combination
import JointMax.Proofs.Equations
import JointMax.Proofs.GraphHistories
import JointMax.Proofs.CycleDetection
import JointMax.Proofs.Traversal
import JointMax.Proofs.Cursors
import JointMax.Proofs.Ties
import JointMax.Proofs.Workbench
import JointMax.Proofs.Likeness
import JointMax.Proofs.Resumption
import JointMax.Proofs.Exchange
import JointMax.Proofs.Recentring
import JointMax.Proofs.Spreads
import JointMax.Proofs.MaxMarginals
import JointMax.Proofs.Locality
import JointMax.Proofs.Invalidation
import JointMax.Proofs.Renaming
import JointMax.Proofs.RenamedRuns
import JointMax.Proofs.Encodings
import JointMax.Proofs.Selection
import JointMax.Proofs.Conditioning
import JointMax.Proofs.Precedence
import JointMax.Proofs.MarginalAlgebra
import JointMax.Proofs.Joins
import JointMax.Proofs.Expansion
import JointMax.Proofs.Accumulation
import JointMax.Proofs.Interchange
import JointMax.Proofs.Ranks
import JointMax.Proofs.Equality
import JointMax.Proofs.BestPlaces
import JointMax.Proofs.Atomicity
import JointMax.Proofs.Merging
import JointMax.Proofs.Acceptance
import JointMax.Proofs.Unification
import JointMax.Proofs.Radices
import JointMax.Proofs.Printing
import JointMax.Proofs.Reports
