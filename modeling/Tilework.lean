import Tilework.Main
import Tilework.Proofs.AllOrNothing
import Tilework.Proofs.CanonicalBytes
import Tilework.Proofs.Contribution
import Tilework.Proofs.Coverage
import Tilework.Proofs.Cursor
import Tilework.Proofs.Directory
import Tilework.Proofs.Draining
import Tilework.Proofs.FirstDefect
import Tilework.Proofs.Greedy
import Tilework.Proofs.Isolation
import Tilework.Proofs.LabelGrammar
import Tilework.Proofs.Layout
import Tilework.Proofs.LongestName
import Tilework.Proofs.Marked
import Tilework.Proofs.Matching
import Tilework.Proofs.Nesting
import Tilework.Proofs.NormalForm
import Tilework.Proofs.Numeral
import Tilework.Proofs.Overflow
import Tilework.Proofs.Printing
import Tilework.Proofs.Rebuild
import Tilework.Proofs.Records
import Tilework.Proofs.Registry
import Tilework.Proofs.Renumbering
import Tilework.Proofs.Scope
import Tilework.Proofs.Semilattice
import Tilework.Proofs.ShapeCalculus
import Tilework.Proofs.Skipping
import Tilework.Proofs.Stamping
import Tilework.Proofs.TileDocument
