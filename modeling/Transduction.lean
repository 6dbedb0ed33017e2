import Transduction.Acceptor.Intersection
import Transduction.Exploration.Complete
import Transduction.Exploration.Queue
import Transduction.Json.RoundTrip
import Transduction.Machine.Run
import Transduction.Main
import Transduction.Relation
import Transduction.Proofs.Explored
import Transduction.Proofs.Trim
import Transduction.Proofs.Simulation
import Transduction.Proofs.RealTime
import Transduction.Proofs.TrimmedForm
import Transduction.Proofs.Composition
import Transduction.Proofs.Deterministic
import Transduction.Proofs.Declared
import Transduction.Proofs.Refinement
import Transduction.Proofs.Minimization
import Transduction.Proofs.Separation
import Transduction.Proofs.Scans
import Transduction.Proofs.Suffixes
import Transduction.Proofs.Choices
import Transduction.Proofs.Ambiguity
import Transduction.Proofs.Unfolding
import Transduction.Proofs.Subsets
import Transduction.Proofs.Languages
import Transduction.Proofs.Guards
import Transduction.Proofs.Copies
import Transduction.Proofs.Rewriting
import Transduction.Proofs.LeftmostRewriting
import Transduction.Proofs.AppliedRules
import Transduction.Proofs.Decompositions
import Transduction.Proofs.OptionalRewriting
import Transduction.Proofs.KeptOutputs
import Transduction.Proofs.Cascades
import Transduction.Proofs.Recognition
import Transduction.Proofs.Totality
import Transduction.Proofs.Prefixes
import Transduction.Proofs.ErrorPositions
import Transduction.Proofs.Constructions
import Transduction.Proofs.Inverse
import Transduction.Proofs.Intersection
import Transduction.Proofs.TransitiveClosure
import Transduction.Proofs.Ranges
import Transduction.Proofs.FirstViolations
import Transduction.Proofs.LanguageAlgebra
import Transduction.Proofs.RelationAlgebra
import Transduction.Proofs.Operations
import Transduction.Proofs.Distinguishing
import Transduction.Proofs.Correspondence
import Transduction.Proofs.CanonicalForm
import Transduction.Proofs.RightStates
import Transduction.Proofs.AscendingMoves
import Transduction.Proofs.SingleRuns
import Transduction.Proofs.SubsetStates
import Transduction.Proofs.ReadBack
import Transduction.Proofs.SavedBimachines
import Transduction.Proofs.SavedRuns
import Transduction.Proofs.LoadedBimachines
import Transduction.Proofs.SilentSearch
import Transduction.Proofs.RefinementRuns
import Transduction.Checked.Loops
import Transduction.Checked.Storage
import Transduction.Checked.Search
import Transduction.Checked.Algebra
import Transduction.Checked.Trim
import Transduction.Checked.Declarations
import Transduction.Checked.Spelled
import Transduction.Checked.Simulation
import Transduction.Checked.Ranges
import Transduction.Checked.Composition
import Transduction.Checked.Deterministic
import Transduction.Checked.Minimal
import Transduction.Checked.RealTime
import Transduction.Checked.Bimachine
import Transduction.Checked.Rewriter
import Transduction.Checked.Views
import Transduction.Checked.Calls
import Transduction.Proofs.KeptValues
