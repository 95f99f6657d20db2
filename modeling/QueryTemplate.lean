import QueryTemplate.Main
import QueryTemplate.Proofs.CommandLine.Agreement
import QueryTemplate.Proofs.File.Literals
import QueryTemplate.Proofs.File.OptionOrder
import QueryTemplate.Proofs.File.Validity
import QueryTemplate.Proofs.Method.Derivation
import QueryTemplate.Proofs.Method.Lossless
import QueryTemplate.Proofs.Method.Plain
import QueryTemplate.Proofs.Query.Clashes
import QueryTemplate.Proofs.Query.Directives
import QueryTemplate.Proofs.Query.Grouping
import QueryTemplate.Proofs.Query.Itemization
import QueryTemplate.Proofs.Query.LeadingKeyword
import QueryTemplate.Proofs.Query.Qualifier
import QueryTemplate.Proofs.Query.RoundTrip
import QueryTemplate.Proofs.Query.WellFormed
import QueryTemplate.Proofs.Rewording.Qualification
import QueryTemplate.Proofs.Rewording.Quoting
import QueryTemplate.Proofs.Schema.Memo
import QueryTemplate.Proofs.Session.Markers
import QueryTemplate.Proofs.Template.Flattening
import QueryTemplate.Proofs.Template.HeaderDivision
import QueryTemplate.Proofs.Template.MarkerCount
import QueryTemplate.Proofs.Template.Normalization
import QueryTemplate.Proofs.Template.Parameters
import QueryTemplate.Proofs.Text.Position
import QueryTemplate.Proofs.Token.Cursor
import QueryTemplate.Proofs.Token.Respacing
