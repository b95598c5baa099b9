import Munch.Main
import Munch.Service
import Munch.Session
import Munch.Proofs.Grammar
import Munch.Proofs.LongestPrefix
import Munch.Proofs.Extent
import Munch.Proofs.TextExtent
import Munch.Proofs.RuleChoice
import Munch.Proofs.Refusal
import Munch.Proofs.Scan
import Munch.Proofs.MaximalMunch
import Munch.Proofs.Run
import Munch.Proofs.Tiling
import Munch.Proofs.Location
import Munch.Proofs.LimbDecimal
import Munch.Proofs.WellFormed
import Munch.Proofs.Quoting
import Munch.Proofs.Boundary
import Munch.Proofs.Rounding
import Munch.Proofs.RoundingSearch
import Munch.Proofs.DecimalGrid
import Munch.Proofs.Shortest
import Munch.Proofs.DoubleText
import Munch.Proofs.RenderedToken
import Munch.Proofs.Rendering
import Munch.Proofs.RenderedDouble
import Munch.Proofs.Gap
import Munch.Proofs.Relocation
import Munch.Proofs.Concatenation
import Munch.Proofs.Insertion
import Munch.Proofs.Stream
import Munch.Proofs.CodePoint
import Munch.Proofs.Seam
import Munch.Proofs.ErrorReport
import Munch.Proofs.CleanText
import Munch.Proofs.JsonGrammar
import Munch.Proofs.JsonText
import Munch.Proofs.ReadValue
import Munch.Proofs.TokenReport
import Munch.Proofs.FrontEnds
import Munch.Proofs.LimbExact
import Munch.Proofs.LimbOrder
import Munch.Proofs.Validation
import Munch.Proofs.ClosingQuote
import Munch.Proofs.Unquoting
import Munch.Proofs.QuotedText
import Munch.Proofs.DoubleGrammar
import Munch.Proofs.Nearest
import Munch.Proofs.NearestDouble
import Munch.Proofs.UnmatchedByte
import Munch.Proofs.PathResolution
import Munch.Proofs.FileOperation
import Munch.Proofs.FileReplacement
import Munch.Proofs.ArgumentOrder
import Munch.Proofs.RunEffect
import Munch.Proofs.Lines
import Munch.Proofs.RootedPath
import Munch.Proofs.Listing
import Munch.Proofs.Tracing
