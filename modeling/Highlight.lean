import Highlight.AsciiSet
import Highlight.Buffer
import Highlight.ByteScan
import Highlight.Bytes
import Highlight.Comment
import Highlight.Cursor
import Highlight.Formatter
import Highlight.Highlighter
import Highlight.Interpolation
import Highlight.Jump
import Highlight.Kind
import Highlight.Language
import Highlight.Language.Go
import Highlight.Language.Html
import Highlight.Language.JavaScript
import Highlight.Language.Json
import Highlight.Language.Markdown
import Highlight.Language.Python
import Highlight.Language.Rust
import Highlight.Lexer
import Highlight.Locator
import Highlight.Number
import Highlight.Offset
import Highlight.Operator
import Highlight.Position
import Highlight.Quoted
import Highlight.Range
import Highlight.Reader
import Highlight.Rule
import Highlight.StringLiteral
import Highlight.Text
import Highlight.Token
import Highlight.Unicode.Alphabetic
import Highlight.Unicode.Numeric
import Highlight.Unicode.Ranges
import Highlight.Unicode.WhiteSpace
import Highlight.Vocabulary
import Highlight.Word
import Highlight.Proofs.Boundary
import Highlight.Proofs.LiteralText
import Highlight.Proofs.Locality
import Highlight.Proofs.Positions
import Highlight.Proofs.TemplateGrammar
import Highlight.Proofs.TemplateNesting
import Highlight.Proofs.Tiling
import Highlight.Proofs.NestingProgress
import Highlight.Proofs.Dispatch
import Highlight.Proofs.NumberLiterals
import Highlight.Proofs.StringLiterals
import Highlight.Proofs.PrintedTokens
import Highlight.Proofs.JavaScriptTokens
import Highlight.Proofs.RegexOrDivision
import Highlight.Proofs.JsonGrammar
import Highlight.Proofs.Runs
import Highlight.Proofs.RuleKinds
import Highlight.Proofs.OpenStrings
import Highlight.Proofs.RawTextBodies
import Highlight.Proofs.TagGrammar
import Highlight.Proofs.FStringLines
import Highlight.Proofs.RuleLines
import Highlight.Proofs.Decorators
import Highlight.Proofs.BlockStarts
import Highlight.Proofs.StringLines
import Highlight.Proofs.SpaceLexemes
import Highlight.Proofs.Stripping
import Highlight.Proofs.TrailingSpace
import Highlight.Proofs.CharacterReading
import Highlight.Proofs.ErrorLexemes
import Highlight.Proofs.CarriageReturns
import Highlight.Proofs.FieldReturns
import Highlight.Proofs.LineEndings
import Highlight.Proofs.NestedComments
import Highlight.Proofs.RawStrings
import Highlight.Proofs.NumberLexemes
import Highlight.Proofs.StartTags
import Highlight.Proofs.Entities
import Highlight.Proofs.FStringText
import Highlight.Proofs.LineBlocks
import Highlight.Proofs.Links
import Highlight.Proofs.ByteScans
import Highlight.Proofs.Buffers
import Highlight.Proofs.Readers
import Highlight.Proofs.LineLimits
import Highlight.Proofs.NestedReaders
import Highlight.Proofs.Scanners
import Highlight.Proofs.TemplateScanners
import Highlight.Proofs.MarkupScanners
import Highlight.Proofs.RangeScans
