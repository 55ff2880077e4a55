/-!
# Kinds of tokens

Every piece of a text is given one `Kind`. The set is closed. Each kind carries an ordinal, and the
ordinals are grouped by category, so that asking for a category is asking for a range:

| ordinals  | category                       |
|-----------|--------------------------------|
| 0 – 15    | keywords                       |
| 16 – 47   | names                          |
| 48 – 79   | literals and strings           |
| 80 – 95   | numbers                        |
| 96 – 103  | operators                      |
| 104 – 111 | punctuation                    |
| 112 – 127 | comments                       |
| 128 – 143 | markup and diffs               |
| 240 – 255 | plain text, whitespace, errors |

The gaps leave room for new kinds; a kind never changes its ordinal or its code.
-/

namespace Highlight

/-- What a piece of text is. -/
inductive Kind where
  | keyword | keywordConstant | keywordDeclaration | keywordNamespace | keywordPseudo
  | keywordReserved | keywordType
  | name | nameAttribute | nameBuiltin | nameBuiltinPseudo | nameClass | nameConstant
  | nameDecorator | nameEntity | nameException | nameFunction | nameFunctionMagic | nameLabel
  | nameNamespace | nameOther | nameProperty | nameTag | nameVariable | nameVariableClass
  | nameVariableGlobal | nameVariableInstance | nameVariableMagic
  | literal | literalDate | string | stringAffix | stringBacktick | stringChar
  | stringDelimiter | stringDoc | stringDouble | stringEscape | stringHeredoc | stringInterpol
  | stringOther | stringRegex | stringSingle | stringSymbol
  | number | numberBin | numberFloat | numberHex | numberInteger | numberIntegerLong
  | numberOct
  | operator | operatorWord
  | punctuation | punctuationMarker
  | comment | commentHashbang | commentMultiline | commentPreproc | commentPreprocFile
  | commentSingle | commentSpecial
  | generic | genericDeleted | genericEmph | genericError | genericHeading | genericInserted
  | genericOutput | genericPrompt | genericStrong | genericSubheading | genericTraceback
  | text | whitespace | error | other
  deriving DecidableEq, Repr

namespace Kind

/-- The fixed data of a kind. -/
structure Info where
  /-- Place in the numbering by category. -/
  ordinal : Nat
  /-- Style sheet class (`kd`, `s2`, `err`); only plain text has the empty one. -/
  code : String
  /-- Upper-case name (`KEYWORD_DECLARATION`). -/
  label : String
  /-- Camel-case name (`KeywordDeclaration`). -/
  title : String
  deriving DecidableEq, Repr

/-- The table of all kinds. -/
def info : Kind → Info
  | .keyword => ⟨0, "k", "KEYWORD", "Keyword"⟩
  | .keywordConstant => ⟨1, "kc", "KEYWORD_CONSTANT", "KeywordConstant"⟩
  | .keywordDeclaration => ⟨2, "kd", "KEYWORD_DECLARATION", "KeywordDeclaration"⟩
  | .keywordNamespace => ⟨3, "kn", "KEYWORD_NAMESPACE", "KeywordNamespace"⟩
  | .keywordPseudo => ⟨4, "kp", "KEYWORD_PSEUDO", "KeywordPseudo"⟩
  | .keywordReserved => ⟨5, "kr", "KEYWORD_RESERVED", "KeywordReserved"⟩
  | .keywordType => ⟨6, "kt", "KEYWORD_TYPE", "KeywordType"⟩
  | .name => ⟨16, "n", "NAME", "Name"⟩
  | .nameAttribute => ⟨17, "na", "NAME_ATTRIBUTE", "NameAttribute"⟩
  | .nameBuiltin => ⟨18, "nb", "NAME_BUILTIN", "NameBuiltin"⟩
  | .nameBuiltinPseudo => ⟨19, "bp", "NAME_BUILTIN_PSEUDO", "NameBuiltinPseudo"⟩
  | .nameClass => ⟨20, "nc", "NAME_CLASS", "NameClass"⟩
  | .nameConstant => ⟨21, "no", "NAME_CONSTANT", "NameConstant"⟩
  | .nameDecorator => ⟨22, "nd", "NAME_DECORATOR", "NameDecorator"⟩
  | .nameEntity => ⟨23, "ni", "NAME_ENTITY", "NameEntity"⟩
  | .nameException => ⟨24, "ne", "NAME_EXCEPTION", "NameException"⟩
  | .nameFunction => ⟨25, "nf", "NAME_FUNCTION", "NameFunction"⟩
  | .nameFunctionMagic => ⟨26, "fm", "NAME_FUNCTION_MAGIC", "NameFunctionMagic"⟩
  | .nameLabel => ⟨27, "nl", "NAME_LABEL", "NameLabel"⟩
  | .nameNamespace => ⟨28, "nn", "NAME_NAMESPACE", "NameNamespace"⟩
  | .nameOther => ⟨29, "nx", "NAME_OTHER", "NameOther"⟩
  | .nameProperty => ⟨30, "py", "NAME_PROPERTY", "NameProperty"⟩
  | .nameTag => ⟨31, "nt", "NAME_TAG", "NameTag"⟩
  | .nameVariable => ⟨32, "nv", "NAME_VARIABLE", "NameVariable"⟩
  | .nameVariableClass => ⟨33, "vc", "NAME_VARIABLE_CLASS", "NameVariableClass"⟩
  | .nameVariableGlobal => ⟨34, "vg", "NAME_VARIABLE_GLOBAL", "NameVariableGlobal"⟩
  | .nameVariableInstance => ⟨35, "vi", "NAME_VARIABLE_INSTANCE", "NameVariableInstance"⟩
  | .nameVariableMagic => ⟨36, "vm", "NAME_VARIABLE_MAGIC", "NameVariableMagic"⟩
  | .literal => ⟨48, "l", "LITERAL", "Literal"⟩
  | .literalDate => ⟨49, "ld", "LITERAL_DATE", "LiteralDate"⟩
  | .string => ⟨50, "s", "STRING", "String"⟩
  | .stringAffix => ⟨51, "sa", "STRING_AFFIX", "StringAffix"⟩
  | .stringBacktick => ⟨52, "sb", "STRING_BACKTICK", "StringBacktick"⟩
  | .stringChar => ⟨53, "sc", "STRING_CHAR", "StringChar"⟩
  | .stringDelimiter => ⟨54, "dl", "STRING_DELIMITER", "StringDelimiter"⟩
  | .stringDoc => ⟨55, "sd", "STRING_DOC", "StringDoc"⟩
  | .stringDouble => ⟨56, "s2", "STRING_DOUBLE", "StringDouble"⟩
  | .stringEscape => ⟨57, "se", "STRING_ESCAPE", "StringEscape"⟩
  | .stringHeredoc => ⟨58, "sh", "STRING_HEREDOC", "StringHeredoc"⟩
  | .stringInterpol => ⟨59, "si", "STRING_INTERPOL", "StringInterpol"⟩
  | .stringOther => ⟨60, "sx", "STRING_OTHER", "StringOther"⟩
  | .stringRegex => ⟨61, "sr", "STRING_REGEX", "StringRegex"⟩
  | .stringSingle => ⟨62, "s1", "STRING_SINGLE", "StringSingle"⟩
  | .stringSymbol => ⟨63, "ss", "STRING_SYMBOL", "StringSymbol"⟩
  | .number => ⟨80, "m", "NUMBER", "Number"⟩
  | .numberBin => ⟨81, "mb", "NUMBER_BIN", "NumberBin"⟩
  | .numberFloat => ⟨82, "mf", "NUMBER_FLOAT", "NumberFloat"⟩
  | .numberHex => ⟨83, "mh", "NUMBER_HEX", "NumberHex"⟩
  | .numberInteger => ⟨84, "mi", "NUMBER_INTEGER", "NumberInteger"⟩
  | .numberIntegerLong => ⟨85, "il", "NUMBER_INTEGER_LONG", "NumberIntegerLong"⟩
  | .numberOct => ⟨86, "mo", "NUMBER_OCT", "NumberOct"⟩
  | .operator => ⟨96, "o", "OPERATOR", "Operator"⟩
  | .operatorWord => ⟨97, "ow", "OPERATOR_WORD", "OperatorWord"⟩
  | .punctuation => ⟨104, "p", "PUNCTUATION", "Punctuation"⟩
  | .punctuationMarker => ⟨105, "pm", "PUNCTUATION_MARKER", "PunctuationMarker"⟩
  | .comment => ⟨112, "c", "COMMENT", "Comment"⟩
  | .commentHashbang => ⟨113, "ch", "COMMENT_HASHBANG", "CommentHashbang"⟩
  | .commentMultiline => ⟨114, "cm", "COMMENT_MULTILINE", "CommentMultiline"⟩
  | .commentPreproc => ⟨115, "cp", "COMMENT_PREPROC", "CommentPreproc"⟩
  | .commentPreprocFile => ⟨116, "cpf", "COMMENT_PREPROCFILE", "CommentPreprocFile"⟩
  | .commentSingle => ⟨117, "c1", "COMMENT_SINGLE", "CommentSingle"⟩
  | .commentSpecial => ⟨118, "cs", "COMMENT_SPECIAL", "CommentSpecial"⟩
  | .generic => ⟨128, "g", "GENERIC", "Generic"⟩
  | .genericDeleted => ⟨129, "gd", "GENERIC_DELETED", "GenericDeleted"⟩
  | .genericEmph => ⟨130, "ge", "GENERIC_EMPH", "GenericEmph"⟩
  | .genericError => ⟨131, "gr", "GENERIC_ERROR", "GenericError"⟩
  | .genericHeading => ⟨132, "gh", "GENERIC_HEADING", "GenericHeading"⟩
  | .genericInserted => ⟨133, "gi", "GENERIC_INSERTED", "GenericInserted"⟩
  | .genericOutput => ⟨134, "go", "GENERIC_OUTPUT", "GenericOutput"⟩
  | .genericPrompt => ⟨135, "gp", "GENERIC_PROMPT", "GenericPrompt"⟩
  | .genericStrong => ⟨136, "gs", "GENERIC_STRONG", "GenericStrong"⟩
  | .genericSubheading => ⟨137, "gu", "GENERIC_SUBHEADING", "GenericSubheading"⟩
  | .genericTraceback => ⟨138, "gt", "GENERIC_TRACEBACK", "GenericTraceback"⟩
  | .text => ⟨240, "", "TEXT", "Text"⟩
  | .whitespace => ⟨241, "w", "WHITESPACE", "Whitespace"⟩
  | .error => ⟨242, "err", "ERROR", "Error"⟩
  | .other => ⟨243, "x", "OTHER", "Other"⟩

/-- Place in the numbering by category. -/
def ordinal (k : Kind) : Nat := k.info.ordinal

/-- Style sheet class of a kind. -/
def code (k : Kind) : String := k.info.code

/-- Upper-case name of a kind. -/
def label (k : Kind) : String := k.info.label

/-- Every kind, by ordinal. -/
def all : List Kind :=
  [.keyword, .keywordConstant, .keywordDeclaration, .keywordNamespace, .keywordPseudo,
   .keywordReserved, .keywordType, .name, .nameAttribute, .nameBuiltin, .nameBuiltinPseudo,
   .nameClass, .nameConstant, .nameDecorator, .nameEntity, .nameException, .nameFunction,
   .nameFunctionMagic, .nameLabel, .nameNamespace, .nameOther, .nameProperty, .nameTag,
   .nameVariable, .nameVariableClass, .nameVariableGlobal, .nameVariableInstance,
   .nameVariableMagic, .literal, .literalDate, .string, .stringAffix, .stringBacktick,
   .stringChar, .stringDelimiter, .stringDoc, .stringDouble, .stringEscape, .stringHeredoc,
   .stringInterpol, .stringOther, .stringRegex, .stringSingle, .stringSymbol, .number,
   .numberBin, .numberFloat, .numberHex, .numberInteger, .numberIntegerLong, .numberOct,
   .operator, .operatorWord, .punctuation, .punctuationMarker, .comment, .commentHashbang,
   .commentMultiline, .commentPreproc, .commentPreprocFile, .commentSingle, .commentSpecial,
   .generic, .genericDeleted, .genericEmph, .genericError, .genericHeading, .genericInserted,
   .genericOutput, .genericPrompt, .genericStrong, .genericSubheading, .genericTraceback, .text,
   .whitespace, .error, .other]

/-- The kind with an upper-case name. -/
def ofLabel? (label : String) : Option Kind :=
  all.find? fun k => k.label == label

/-- Keywords of every sort. -/
def isKeyword (k : Kind) : Bool := k.ordinal < 16

/-- Identifiers of every sort. -/
def isName (k : Kind) : Bool := 16 ≤ k.ordinal && k.ordinal < 48

/-- Strings of every sort; the other literals have kinds of their own. -/
def isString (k : Kind) : Bool := 50 ≤ k.ordinal && k.ordinal < 80

/-- Numbers of every sort. -/
def isNumber (k : Kind) : Bool := 80 ≤ k.ordinal && k.ordinal < 96

/-- Comments of every sort. -/
def isComment (k : Kind) : Bool := 112 ≤ k.ordinal && k.ordinal < 128

/-- Whitespace and comments: what never changes the reading of the text after it. -/
def isTrivia (k : Kind) : Bool := k == .whitespace || k.isComment

end Kind

end Highlight
