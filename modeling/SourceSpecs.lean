import SourceSpecs.Declaration.Basic
import SourceSpecs.Declaration.Form
import SourceSpecs.Declaration.Search
import SourceSpecs.Environment
import SourceSpecs.Extraction
import SourceSpecs.FileReport
import SourceSpecs.FileSystem
import SourceSpecs.Json.Basic
import SourceSpecs.Json.Printer
import SourceSpecs.Json.Reader
import SourceSpecs.Path
import SourceSpecs.Proofs.Account
import SourceSpecs.Proofs.AliasBody
import SourceSpecs.Proofs.AliasReading
import SourceSpecs.Proofs.Alternatives
import SourceSpecs.Proofs.Answer
import SourceSpecs.Proofs.BatchedHeaders
import SourceSpecs.Proofs.BindingNames
import SourceSpecs.Proofs.Block
import SourceSpecs.Proofs.BlockReading
import SourceSpecs.Proofs.CanonicalPlace
import SourceSpecs.Proofs.Closing
import SourceSpecs.Proofs.Collector
import SourceSpecs.Proofs.CommonIndent
import SourceSpecs.Proofs.Composition
import SourceSpecs.Proofs.CoveredHeader
import SourceSpecs.Proofs.CustomTypes
import SourceSpecs.Proofs.DamagedBytes
import SourceSpecs.Proofs.Depth
import SourceSpecs.Proofs.EmbeddedForm
import SourceSpecs.Proofs.EmbeddedGrammar
import SourceSpecs.Proofs.EmbeddedText
import SourceSpecs.Proofs.EmbeddedToken
import SourceSpecs.Proofs.ExportShape
import SourceSpecs.Proofs.FileAgreement
import SourceSpecs.Proofs.FileReading
import SourceSpecs.Proofs.Finding
import SourceSpecs.Proofs.FirstMark
import SourceSpecs.Proofs.FormInversion
import SourceSpecs.Proofs.FormReading
import SourceSpecs.Proofs.FragmentMargin
import SourceSpecs.Proofs.FragmentParts
import SourceSpecs.Proofs.FunctionNames
import SourceSpecs.Proofs.GapReading
import SourceSpecs.Proofs.HeaderBlock
import SourceSpecs.Proofs.HeaderReading
import SourceSpecs.Proofs.Identifier
import SourceSpecs.Proofs.ImportReading
import SourceSpecs.Proofs.ImportText
import SourceSpecs.Proofs.Indent
import SourceSpecs.Proofs.JsonReading
import SourceSpecs.Proofs.JsonText
import SourceSpecs.Proofs.Layout
import SourceSpecs.Proofs.LexemeReading
import SourceSpecs.Proofs.ListRelations
import SourceSpecs.Proofs.ListlessNames
import SourceSpecs.Proofs.Literals
import SourceSpecs.Proofs.Lookahead
import SourceSpecs.Proofs.Margin
import SourceSpecs.Proofs.MovedTree
import SourceSpecs.Proofs.NameOrder
import SourceSpecs.Proofs.Nesting
import SourceSpecs.Proofs.ParameterReading
import SourceSpecs.Proofs.PathResolution
import SourceSpecs.Proofs.PlainRun
import SourceSpecs.Proofs.Program
import SourceSpecs.Proofs.Projection
import SourceSpecs.Proofs.QuotedPath
import SourceSpecs.Proofs.ReadNodes
import SourceSpecs.Proofs.Reading
import SourceSpecs.Proofs.Relocation
import SourceSpecs.Proofs.RoundTrip
import SourceSpecs.Proofs.Scanning
import SourceSpecs.Proofs.SignatureReading
import SourceSpecs.Proofs.SignatureShape
import SourceSpecs.Proofs.SignatureSlices
import SourceSpecs.Proofs.SignatureText
import SourceSpecs.Proofs.SizeNumeral
import SourceSpecs.Proofs.SourceReading
import SourceSpecs.Proofs.StringReading
import SourceSpecs.Proofs.Tiling
import SourceSpecs.Proofs.TokenLength
import SourceSpecs.Proofs.ToolAnswer
import SourceSpecs.Proofs.Trimming
import SourceSpecs.Proofs.TypeArguments
import SourceSpecs.Proofs.TypeExpression
import SourceSpecs.Proofs.TypeExpressionReading
import SourceSpecs.Proofs.TypeReading
import SourceSpecs.Proofs.TypeText
import SourceSpecs.Proofs.Utf8Reading
import SourceSpecs.Proofs.WrittenForm
import SourceSpecs.Report
import SourceSpecs.Signature
import SourceSpecs.SizeLimit
import SourceSpecs.Spec
import SourceSpecs.Syntax.Ending
import SourceSpecs.Syntax.Form
import SourceSpecs.Syntax.Grammar
import SourceSpecs.Syntax.Grammar.Basic
import SourceSpecs.Syntax.Grammar.Expressions
import SourceSpecs.Syntax.Grammar.Statements
import SourceSpecs.Syntax.Grammar.Types
import SourceSpecs.Syntax.Lexeme
import SourceSpecs.Syntax.References
import SourceSpecs.Syntax.Tree
import SourceSpecs.Text.Blank
import SourceSpecs.Text.Cursor
import SourceSpecs.Text.Digit
import SourceSpecs.Text.LineEnding
import SourceSpecs.Text.Lines
import SourceSpecs.Text.Names
import SourceSpecs.Text.Pieces
import SourceSpecs.Text.Utf8
import SourceSpecs.Text.Word
import SourceSpecs.Tool
import SourceSpecs.Workspace
