import Highlight.Language.Go
import Highlight.Language.Html
import Highlight.Language.JavaScript
import Highlight.Language.Json
import Highlight.Language.Markdown
import Highlight.Language.Python
import Highlight.Language.Rust
import Highlight.Range
import Highlight.Token
import Highlight.Unicode.WhiteSpace

/-!
# Languages

The languages there are, what is known about each, and how a text in one of them is read. A range of
a text is read in place, in the buffer that ends where the range does. Lines and columns count from
the start of the range.
-/

namespace Highlight

/-- Why a language could not be found. -/
inductive LanguageError where
  /-- No language has the name; `known` are the names there are. -/
  | unknown (name : String) (known : List String)
  deriving DecidableEq, Repr

/-- Wording of the failure. -/
def LanguageError.message : LanguageError → String
  | .unknown name known =>
    "unknown language \x60" ++ name ++ "\x60 (known: " ++ ", ".intercalate known ++ ")"

/-- A language whose texts can be read. -/
inductive Language where
  | python
  | javaScript
  | json
  | html
  | markdown
  | rust
  | go
  deriving DecidableEq, Repr

namespace Language

/-- What is known about a language. -/
structure Info where
  /-- Canonical name, in lower case. -/
  name : String
  /-- The name in camel case. -/
  title : String
  /-- Other names. -/
  aliases : List String
  /-- Patterns of file names. -/
  filenames : List String
  /-- Media types. -/
  mimetypes : List String
  deriving DecidableEq, Repr

/-- The table of languages. -/
def info : Language → Info
  | .python => {
      name := "python"
      title := "Python"
      aliases := ["py", "python3", "py3"]
      filenames := ["*.py", "*.pyw", "*.pyi"]
      mimetypes := ["text/x-python", "application/x-python"] }
  | .javaScript => {
      name := "javascript"
      title := "JavaScript"
      aliases := ["js", "ecmascript"]
      filenames := ["*.js", "*.mjs", "*.cjs"]
      mimetypes := ["text/javascript", "application/javascript"] }
  | .json => {
      name := "json"
      title := "Json"
      aliases := []
      filenames := ["*.json"]
      mimetypes := ["application/json"] }
  | .html => {
      name := "html"
      title := "Html"
      aliases := ["htm"]
      filenames := ["*.html", "*.htm"]
      mimetypes := ["text/html"] }
  | .markdown => {
      name := "markdown"
      title := "Markdown"
      aliases := ["md"]
      filenames := ["*.md", "*.markdown"]
      mimetypes := ["text/markdown"] }
  | .rust => {
      name := "rust"
      title := "Rust"
      aliases := ["rs"]
      filenames := ["*.rs"]
      mimetypes := ["text/rust", "text/x-rust"] }
  | .go => {
      name := "go"
      title := "Go"
      aliases := ["golang"]
      filenames := ["*.go"]
      mimetypes := ["text/x-gosrc"] }

/-- Every language. -/
def all : List Language := [.python, .javaScript, .json, .html, .markdown, .rust, .go]

/-- Canonical name of a language. -/
def name (language : Language) : String := language.info.name

/-- The canonical names in alphabetical order. -/
def names : List String := (all.map name).mergeSort

/-- The lexemes of a text. -/
def lex : Language → List Char → List Lexeme
  | .python => Python.lexer.lex
  | .javaScript => JavaScript.lexer.lex
  | .json => Json.lexer.lex
  | .html => Html.lexer.lex
  | .markdown => Markdown.lexer.lex
  | .rust => Rust.lexer.lex
  | .go => Go.lexer.lex

/-- Kinds and sizes of the lexemes of a range, which begins at an offset of a buffer and ends with
it. -/
def scan : Language → Buffer → Nat → List (Kind × Nat)
  | .python => Python.scanner.lex
  | .javaScript => JavaScript.scanner.lex
  | .json => Json.scanner.lex
  | .html => Html.scanner.lex
  | .markdown => Markdown.scanner.lex
  | .rust => Rust.scanner.lex
  | .go => Go.scanner.lex

/-- The lexemes of a range of a text. -/
def lexRange (language : Language) (text : List Char) (range : ByteRange) : List Lexeme :=
  let buffer := Buffer.ofText (range.upTo text)
  let start := (range.clamp text).start
  buffer.lexemes start (language.scan buffer start)

/-- The tokens of a range of a text. -/
def tokenizeRange (language : Language) (text : List Char) (range : ByteRange)
    (config : TokenConfig) : List Token :=
  let buffer := Buffer.ofText (range.upTo text)
  let start := (range.clamp text).start
  Token.ofScan config buffer start (language.scan buffer start)

/-- The tokens of a text. -/
def tokenize (language : Language) (text : List Char) : List Token :=
  language.tokenizeRange text (.whole text) {}

/-- Whether a name is the canonical name of a language or one of its other names. -/
def isNamed (language : Language) (name : String) : Bool :=
  name == language.name || language.info.aliases.contains name

/-- The language of a name. Blanks around it and the case of ASCII letters do not matter. -/
def ofName? (name : String) : Option Language :=
  let key := String.ofList ((Unicode.trim name.toList).map Char.toLower)
  all.find? fun language => language.isNamed key

/-- The language of a name, or the reason why there is none. -/
def get (name : String) : Except LanguageError Language :=
  match ofName? name with
  | some language => .ok language
  | none => .error (.unknown name names)

end Language

end Highlight
