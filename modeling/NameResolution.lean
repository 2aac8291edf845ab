import NameResolution.Automaton.Graphviz
import NameResolution.ExternalTerm.Export
import NameResolution.ExternalTerm.Read
import NameResolution.Path.Equality
import NameResolution.Path.Text
import NameResolution.Regex.Construction
import NameResolution.Resolution.Search
import NameResolution.Solution
import NameResolution.Unifier.Binding
import NameResolution.Unifier.Substitution
import NameResolution.Proofs.Automaton.Recognition
import NameResolution.Proofs.Automaton.WorkList
import NameResolution.Proofs.Resolution.Continuations
import NameResolution.Proofs.Resolution.Stepwise
import NameResolution.Proofs.Resolution.Transparency
import NameResolution.Proofs.Automaton.Liveness
import NameResolution.Proofs.Automaton.Stuckness
import NameResolution.Proofs.Path.Steps
import NameResolution.Proofs.Resolution.Calculus
import NameResolution.Proofs.Resolution.Completeness
import NameResolution.Proofs.Resolution.Noncircularity
import NameResolution.Proofs.Resolution.Exclusion
import NameResolution.Proofs.Resolution.Monotonicity
import NameResolution.Proofs.Resolution.Machine
import NameResolution.Proofs.Resolution.Rounds
import NameResolution.Proofs.Resolution.Termination
import NameResolution.Proofs.Unifier.History
import NameResolution.Proofs.Unifier.OccursCheck
import NameResolution.Proofs.Unifier.Operations
import NameResolution.Proofs.Unifier.Acceptance
import NameResolution.Proofs.ExternalTerm.RoundTrip
import NameResolution.Proofs.ExternalTerm.Canonical
import NameResolution.Proofs.Path.Bookkeeping
import NameResolution.Proofs.Regex.RoundTrip
import NameResolution.Proofs.Multimap.Relation
import NameResolution.Proofs.Resolution.Following
import NameResolution.Proofs.Resolution.Order
import NameResolution.Proofs.ExternalTerm.Transfer
import NameResolution.Proofs.Regex.Equivalence
import NameResolution.Proofs.Regex.Similarity
import NameResolution.Proofs.Regex.OperandOrder
import NameResolution.Proofs.Regex.Commutation
import NameResolution.Proofs.Unifier.Equalities
import NameResolution.Proofs.Automaton.Representation
import NameResolution.Proofs.Unifier.Find
import NameResolution.Proofs.ExternalTerm.Rejection
import NameResolution.Proofs.Unifier.Direct
import NameResolution.Proofs.Unifier.TaskStack
import NameResolution.Proofs.Path.Failure
import NameResolution.Proofs.Path.Comparison
import NameResolution.Proofs.Automaton.Resolving
import NameResolution.Proofs.Regex.Rebuilding
import NameResolution.Proofs.Automaton.Drawing
import NameResolution.Proofs.Automaton.Combination
