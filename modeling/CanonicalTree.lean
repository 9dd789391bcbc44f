import CanonicalTree.Cli.Run
import CanonicalTree.Schema.Shown
import CanonicalTree.Proofs.Text
import CanonicalTree.Proofs.Pipeline
import CanonicalTree.Proofs.Agreement
import CanonicalTree.Proofs.Depiction
import CanonicalTree.Proofs.Visits
import CanonicalTree.Proofs.Passes
import CanonicalTree.Proofs.Compiler
import CanonicalTree.Proofs.Canonical
import CanonicalTree.Proofs.Refusals
import CanonicalTree.Proofs.Independence
import CanonicalTree.Proofs.Faults
import CanonicalTree.Proofs.Repairs
import CanonicalTree.Proofs.Absorption
import CanonicalTree.Proofs.Monotonicity
import CanonicalTree.Proofs.Stages
import CanonicalTree.Proofs.Traversal
import CanonicalTree.Proofs.Printing
import CanonicalTree.Proofs.Bindings
import CanonicalTree.Proofs.Commands
import CanonicalTree.Proofs.Envelope
import CanonicalTree.Proofs.Flags
import CanonicalTree.Proofs.Termination
import CanonicalTree.Proofs.Frame
import CanonicalTree.Proofs.Escaping
import CanonicalTree.Proofs.Spared
import CanonicalTree.Proofs.Filling
import CanonicalTree.Proofs.RuleOrder
import CanonicalTree.Proofs.Installation
import CanonicalTree.Proofs.Splicing
import CanonicalTree.Proofs.Paths
import CanonicalTree.Proofs.Shown
