import MarkedRegex.Proofs.Alike
import MarkedRegex.Proofs.Canonical
import MarkedRegex.Proofs.Captures.Monoid
import MarkedRegex.Proofs.Captures.Operands
import MarkedRegex.Proofs.Captures.Pieces
import MarkedRegex.Proofs.CharSet.Members
import MarkedRegex.Proofs.Json.RoundTrip
import MarkedRegex.Proofs.Limits
import MarkedRegex.Proofs.Matcher
import MarkedRegex.Proofs.Memo.Order
import MarkedRegex.Proofs.Memo.Transparent
import MarkedRegex.Proofs.Pruning
import MarkedRegex.Proofs.Rebuilding
import MarkedRegex.Proofs.Rendering
import MarkedRegex.Proofs.Replay
import MarkedRegex.Proofs.Search.Apart
import MarkedRegex.Proofs.Search.Matches
import MarkedRegex.Proofs.Search.Suffixes
import MarkedRegex.Proofs.Settling
import MarkedRegex.Proofs.Star.Gathering
import MarkedRegex.Proofs.Star.Rounds
import MarkedRegex.Proofs.Star.Unrolling
