import Folio.Check.Document
import Folio.Proofs.Format.Registration
import Folio.Main
import Folio.Markup.Cursor
import Folio.Proofs.Code.Forms
import Folio.Proofs.Code.Recognised
import Folio.Proofs.Code.Rows
import Folio.Proofs.Dump.Unambiguous
import Folio.Proofs.Html.FencedCode
import Folio.Proofs.Html.WellFormed
import Folio.Proofs.Markup.Canonical
import Folio.Proofs.Markup.Columns
import Folio.Proofs.Markup.Delimited
import Folio.Proofs.Markup.Items
import Folio.Proofs.Markup.LineEnds
import Folio.Proofs.Markup.NormalForm
import Folio.Proofs.Markup.OpenFence
import Folio.Proofs.Markup.Progress
import Folio.Proofs.Markup.Segments
import Folio.Proofs.Markup.Subdocument
import Folio.Proofs.Site.Pages
import Folio.Proofs.Code.Declarations
import Folio.Proofs.Code.Enumerations
import Folio.Proofs.Code.Operators
import Folio.Proofs.Code.Shapes
import Folio.Proofs.Code.Display
import Folio.Proofs.Site.ListingOrder
import Folio.Proofs.Code.OperatorPattern
import Folio.Proofs.Html.Paragraphs
import Folio.Proofs.Html.Attributes
import Folio.Proofs.Config.Precedence
import Folio.Proofs.Markup.Matching
import Folio.Proofs.Code.DeclarationPattern
import Folio.Proofs.Code.LexemePattern
