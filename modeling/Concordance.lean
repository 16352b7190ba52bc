import Concordance.Graph.Recipe
import Concordance.Main
import Concordance.Proofs.Session.Coverage
import Concordance.Proofs.Session.Registry
import Concordance.Proofs.Session.Stacks
import Concordance.Proofs.Heap.Merge
import Concordance.Proofs.Inference.ControlFlow
import Concordance.Proofs.Session.TypeGraph
import Concordance.Proofs.Session.Homes
import Concordance.Proofs.Session.Memo
import Concordance.Proofs.Session.Isolation
import Concordance.Proofs.Session.Extents
import Concordance.Proofs.Session.Redirection
import Concordance.Proofs.Session.Lookup
import Concordance.Proofs.Session.Completion
import Concordance.Proofs.Session.Identity
import Concordance.Proofs.Session.Namespaces
import Concordance.Proofs.Session.Imports
import Concordance.Proofs.Session.Convention
import Concordance.Proofs.Session.Arguments
import Concordance.Proofs.Collection
import Concordance.Proofs.Position
import Concordance.Proofs.Session.Failures
import Concordance.Proofs.Session.Search
import Concordance.Proofs.Heap.Printing
import Concordance.Proofs.Settings
import Concordance.Proofs.Heap.Subscript
