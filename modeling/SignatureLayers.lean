import SignatureLayers.Fixture
import SignatureLayers.Index.Session
import SignatureLayers.Main
import SignatureLayers.Proofs.Context
import SignatureLayers.Proofs.Mirror
import SignatureLayers.Proofs.Reports
import SignatureLayers.Proofs.Edits
import SignatureLayers.Proofs.Siblings
import SignatureLayers.Proofs.Resolution
import SignatureLayers.Proofs.LocalMerge
import SignatureLayers.Proofs.Coherence
import SignatureLayers.Proofs.Revision
import SignatureLayers.Proofs.Frame
import SignatureLayers.Proofs.Lines
import SignatureLayers.Proofs.Heads
import SignatureLayers.Proofs.Legible
import SignatureLayers.Proofs.Reading
import SignatureLayers.Proofs.Rereading
import SignatureLayers.Proofs.Scanning
import SignatureLayers.Proofs.InlineEnd
import SignatureLayers.Proofs.RoundTrip
import SignatureLayers.Proofs.Secure
import SignatureLayers.Proofs.UseOrder
import SignatureLayers.Proofs.Rendering
import SignatureLayers.Proofs.Calls
import SignatureLayers.Proofs.Preloaded
import SignatureLayers.Proofs.Relabelling
import SignatureLayers.Proofs.Depth
import SignatureLayers.Proofs.Plain
import SignatureLayers.Proofs.Independence
import SignatureLayers.Proofs.Log
import SignatureLayers.Proofs.Resumption
import SignatureLayers.Proofs.Acceptance
import SignatureLayers.Proofs.Ink
import SignatureLayers.Proofs.Clauses
import SignatureLayers.Proofs.Repetition
import SignatureLayers.Proofs.Replacement
import SignatureLayers.Proofs.Files
import SignatureLayers.Proofs.Commands
import SignatureLayers.Proofs.Anchoring
import SignatureLayers.Proofs.Grouping
import SignatureLayers.Proofs.Namesakes
import SignatureLayers.Proofs.TrailingComments
import SignatureLayers.Proofs.StandIns
import SignatureLayers.Proofs.Listing
import SignatureLayers.Proofs.Sessions
import SignatureLayers.Proofs.Locations
import SignatureLayers.Proofs.Traversal
import SignatureLayers.Proofs.Walks
import SignatureLayers.Proofs.Directives
import SignatureLayers.Proofs.Shifting
import SignatureLayers.Proofs.Concatenation
