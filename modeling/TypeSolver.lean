import TypeSolver.Main
import TypeSolver.Program.Builder
import TypeSolver.Signature.Encode
import TypeSolver.Proofs.Attribution
import TypeSolver.Proofs.Caps
import TypeSolver.Proofs.Circles
import TypeSolver.Proofs.Compression
import TypeSolver.Proofs.Dealiased
import TypeSolver.Proofs.Health
import TypeSolver.Proofs.Instances
import TypeSolver.Proofs.Levels
import TypeSolver.Proofs.Lifecycle
import TypeSolver.Proofs.Monomorphic
import TypeSolver.Proofs.MostGeneral
import TypeSolver.Proofs.Names
import TypeSolver.Proofs.Poison
import TypeSolver.Proofs.Polytypes
import TypeSolver.Proofs.Satisfaction
import TypeSolver.Proofs.Tails
import TypeSolver.Proofs.Transparency
import TypeSolver.Proofs.Renaming
import TypeSolver.Proofs.Successes
import TypeSolver.Proofs.Traces
import TypeSolver.Proofs.Coverage
import TypeSolver.Proofs.Mirrors
import TypeSolver.Proofs.Confluence
import TypeSolver.Proofs.Commutation
import TypeSolver.Proofs.Footprint
import TypeSolver.Proofs.Minima
import TypeSolver.Proofs.AliasCycles
import TypeSolver.Proofs.Constructors
import TypeSolver.Proofs.Normalization
import TypeSolver.Proofs.Binders
import TypeSolver.Proofs.Bracketing
import TypeSolver.Proofs.Unambiguous
import TypeSolver.Proofs.RoundTrip
