import LeastCost.Catalogue
import LeastCost.Config.Server
import LeastCost.Proofs.Hungarian.Optimality
import LeastCost.Proofs.Hungarian.Termination
import LeastCost.Proofs.Simplex.Optimality
import LeastCost.Proofs.Simplex.Margins
import LeastCost.Proofs.Simplex.Scatter
import LeastCost.Proofs.Simplex.Tolerance
import LeastCost.Proofs.Simplex.Values
import LeastCost.Proofs.Problem.Reports
import LeastCost.Proofs.Transport.Optimality
import LeastCost.Proofs.Transport.Totality
import LeastCost.Scalar.Exact
import LeastCost.Service.Rpc
import LeastCost.Proofs.Simplex.Truncation
import LeastCost.Proofs.Simplex.Mirroring
import LeastCost.Proofs.Engines.Caps
import LeastCost.Proofs.Engines.Agreement
import LeastCost.Proofs.Transport.Integral
import LeastCost.Proofs.Service.Dispatch
import LeastCost.Proofs.Simplex.Bounds
import LeastCost.Proofs.Double.Quotients
import LeastCost.Proofs.Json.Grammar
import LeastCost.Proofs.Json.Skipping
import LeastCost.Proofs.Json.Laws
import LeastCost.Proofs.Json.Members
import LeastCost.Proofs.Wire.Records
import LeastCost.Proofs.Wire.RoundTrips
import LeastCost.Proofs.Service.Replies
import LeastCost.Proofs.Service.Calls
import LeastCost.Proofs.Hungarian.Settings
import LeastCost.Proofs.Transport.FirstPlan
import LeastCost.Proofs.Transport.Shift
import LeastCost.Proofs.Simplex.Invariants
import LeastCost.Proofs.Service.Routes
import LeastCost.Proofs.Config.Lookups
import LeastCost.Proofs.Transport.NearTies
import LeastCost.Proofs.Hungarian.Passes
import LeastCost.Proofs.Hungarian.Pointers
import LeastCost.Proofs.Simplex.Columns
import LeastCost.Proofs.Simplex.Redundancy
import LeastCost.Proofs.Transport.Classes
import LeastCost.Proofs.Transport.Trees
import LeastCost.Proofs.Transport.TreePaths
