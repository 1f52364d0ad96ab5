import ImpToC.Host.Machine
import ImpToC.Main
import ImpToC.Tree.Outline
import ImpToC.Proofs.Acceptance
import ImpToC.Proofs.Run.Preservation
import ImpToC.Proofs.C.Reading
import ImpToC.Proofs.C.Literals
import ImpToC.Proofs.C.Names
import ImpToC.Proofs.Run.Folding
import ImpToC.Proofs.Rendering.RoundTrip
import ImpToC.Proofs.Grammar.Derivation
import ImpToC.Proofs.Grammar.Soundness
import ImpToC.Proofs.Locality.Relocation
import ImpToC.Proofs.Locality.Tracking
import ImpToC.Proofs.Locality.Readings
import ImpToC.Proofs.Locality.Segments
import ImpToC.Proofs.Locality.Generation
import ImpToC.Proofs.Locality.Layout
import ImpToC.Proofs.Stepwise.Machine
import ImpToC.Proofs.Stepwise.Progress
import ImpToC.Proofs.Stepwise.Agreement
import ImpToC.Proofs.Stepwise.Strides
import ImpToC.Proofs.Stepwise.ErrorOrder
import ImpToC.Proofs.Lexing.Places
import ImpToC.Proofs.Emission.ScopeDiscipline
import ImpToC.Proofs.Emission.Separation
import ImpToC.Proofs.Emission.Partition
import ImpToC.Proofs.Emission.Insertion
import ImpToC.Proofs.Effects.Safety
import ImpToC.Proofs.Stepwise.BraceBalance
import ImpToC.Proofs.IntegerLiterals
import ImpToC.Proofs.Lexing.Relexing
import ImpToC.Proofs.Bytewise.Offsets
import ImpToC.Proofs.Bytewise.Moves
import ImpToC.Proofs.Lexing.Joining
import ImpToC.Proofs.Lexing.Requests
import ImpToC.Proofs.ScopeNesting
import ImpToC.Proofs.Listing.Lines
import ImpToC.Proofs.Listing.Forest
import ImpToC.Proofs.Listing.Trees
import ImpToC.Proofs.FunctionIndex
import ImpToC.Proofs.Vocabulary
