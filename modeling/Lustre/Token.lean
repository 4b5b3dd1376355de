import Lustre.Span

/-!
# Words of the language

A token is a word of the language: its kind, its text and where it stands.
Keywords and symbols have one spelling each (`Kind.spelling?`); the other kinds
are classes of words.  Everything between tokens is trivia, so the sequence of
`Piece`s of a text accounts for all of its characters.
-/

namespace Lustre

/-- What a token is.  Keywords come first, then the classes of words that have no fixed
spelling, then symbols. -/
inductive Kind where
  | kwInclude | kwPackage | kwIs | kwBody | kwEnd | kwUses | kwProvides | kwModel | kwNeeds
  | kwConst | kwNode | kwFunction | kwUnsafe | kwExtern | kwReturns | kwVar | kwLet | kwTel
  | kwType | kwEnum | kwStruct | kwBool | kwInt | kwReal | kwWhen | kwAssert | kwIf | kwThen
  | kwElse | kwMerge | kwNot | kwPre | kwCurrent | kwFby | kwAnd | kwOr | kwXor | kwMod | kwDiv
  | kwNor | kwStep | kwWith | kwTrue | kwFalse
  | intLit | realLit | stringLit | ident | pragma
  | ltLt | gtGt | lt | ltEq | eq | gtEq | gt | neq | arrow | fatArrow | plus | minus | star
  | starStar | slash | percent | caret | pipe | hash | lParen | rParen | lBracket | rBracket
  | lBrace | rBrace | comma | semi | colonColon | colon | dotDot | dot
deriving DecidableEq

namespace Kind

/-- The keywords, each a reserved word. -/
def keywords : List Kind :=
  [.kwInclude, .kwPackage, .kwIs, .kwBody, .kwEnd, .kwUses, .kwProvides, .kwModel, .kwNeeds,
   .kwConst, .kwNode, .kwFunction, .kwUnsafe, .kwExtern, .kwReturns, .kwVar, .kwLet, .kwTel,
   .kwType, .kwEnum, .kwStruct, .kwBool, .kwInt, .kwReal, .kwWhen, .kwAssert, .kwIf, .kwThen,
   .kwElse, .kwMerge, .kwNot, .kwPre, .kwCurrent, .kwFby, .kwAnd, .kwOr, .kwXor, .kwMod,
   .kwDiv, .kwNor, .kwStep, .kwWith, .kwTrue, .kwFalse]

/-- The one way to write a keyword or a symbol. -/
def spelling? : Kind → Option String
  | .kwInclude => some "include"
  | .kwPackage => some "package"
  | .kwIs => some "is"
  | .kwBody => some "body"
  | .kwEnd => some "end"
  | .kwUses => some "uses"
  | .kwProvides => some "provides"
  | .kwModel => some "model"
  | .kwNeeds => some "needs"
  | .kwConst => some "const"
  | .kwNode => some "node"
  | .kwFunction => some "function"
  | .kwUnsafe => some "unsafe"
  | .kwExtern => some "extern"
  | .kwReturns => some "returns"
  | .kwVar => some "var"
  | .kwLet => some "let"
  | .kwTel => some "tel"
  | .kwType => some "type"
  | .kwEnum => some "enum"
  | .kwStruct => some "struct"
  | .kwBool => some "bool"
  | .kwInt => some "int"
  | .kwReal => some "real"
  | .kwWhen => some "when"
  | .kwAssert => some "assert"
  | .kwIf => some "if"
  | .kwThen => some "then"
  | .kwElse => some "else"
  | .kwMerge => some "merge"
  | .kwNot => some "not"
  | .kwPre => some "pre"
  | .kwCurrent => some "current"
  | .kwFby => some "fby"
  | .kwAnd => some "and"
  | .kwOr => some "or"
  | .kwXor => some "xor"
  | .kwMod => some "mod"
  | .kwDiv => some "div"
  | .kwNor => some "nor"
  | .kwStep => some "step"
  | .kwWith => some "with"
  | .kwTrue => some "true"
  | .kwFalse => some "false"
  | .ltLt => some "<<"
  | .gtGt => some ">>"
  | .lt => some "<"
  | .ltEq => some "<="
  | .eq => some "="
  | .gtEq => some ">="
  | .gt => some ">"
  | .neq => some "<>"
  | .arrow => some "->"
  | .fatArrow => some "=>"
  | .plus => some "+"
  | .minus => some "-"
  | .star => some "*"
  | .starStar => some "**"
  | .slash => some "/"
  | .percent => some "%"
  | .caret => some "^"
  | .pipe => some "|"
  | .hash => some "#"
  | .lParen => some "("
  | .rParen => some ")"
  | .lBracket => some "["
  | .rBracket => some "]"
  | .lBrace => some "\x7b"
  | .rBrace => some "\x7d"
  | .comma => some ","
  | .semi => some ";"
  | .colonColon => some "::"
  | .colon => some ":"
  | .dotDot => some ".."
  | .dot => some "."
  | _ => none

/-- How a kind is named in messages: its spelling, or what its words are. -/
def describe (kind : Kind) : String :=
  match kind with
  | .intLit => "integer literal"
  | .realLit => "real literal"
  | .stringLit => "string literal"
  | .ident => "identifier"
  | .pragma => "pragma"
  | _ => kind.spelling?.getD ""

/-- The label of a kind in token listings. -/
def label : Kind → String
  | .kwInclude => "Include"
  | .kwPackage => "Package"
  | .kwIs => "Is"
  | .kwBody => "Body"
  | .kwEnd => "End"
  | .kwUses => "Uses"
  | .kwProvides => "Provides"
  | .kwModel => "Model"
  | .kwNeeds => "Needs"
  | .kwConst => "Const"
  | .kwNode => "Node"
  | .kwFunction => "Function"
  | .kwUnsafe => "Unsafe"
  | .kwExtern => "Extern"
  | .kwReturns => "Returns"
  | .kwVar => "Var"
  | .kwLet => "Let"
  | .kwTel => "Tel"
  | .kwType => "Type"
  | .kwEnum => "Enum"
  | .kwStruct => "Struct"
  | .kwBool => "Bool"
  | .kwInt => "Int"
  | .kwReal => "Real"
  | .kwWhen => "When"
  | .kwAssert => "Assert"
  | .kwIf => "If"
  | .kwThen => "Then"
  | .kwElse => "Else"
  | .kwMerge => "Merge"
  | .kwNot => "Not"
  | .kwPre => "Pre"
  | .kwCurrent => "Current"
  | .kwFby => "Fby"
  | .kwAnd => "And"
  | .kwOr => "Or"
  | .kwXor => "Xor"
  | .kwMod => "Mod"
  | .kwDiv => "Div"
  | .kwNor => "Nor"
  | .kwStep => "Step"
  | .kwWith => "With"
  | .kwTrue => "True"
  | .kwFalse => "False"
  | .intLit => "IntLit"
  | .realLit => "RealLit"
  | .stringLit => "StringLit"
  | .ident => "Ident"
  | .pragma => "Pragma"
  | .ltLt => "LtLt"
  | .gtGt => "GtGt"
  | .lt => "Lt"
  | .ltEq => "LtEq"
  | .eq => "Eq"
  | .gtEq => "GtEq"
  | .gt => "Gt"
  | .neq => "Neq"
  | .arrow => "Arrow"
  | .fatArrow => "FatArrow"
  | .plus => "Plus"
  | .minus => "Minus"
  | .star => "Star"
  | .starStar => "StarStar"
  | .slash => "Slash"
  | .percent => "Percent"
  | .caret => "Caret"
  | .pipe => "Pipe"
  | .hash => "Hash"
  | .lParen => "LParen"
  | .rParen => "RParen"
  | .lBracket => "LBracket"
  | .rBracket => "RBracket"
  | .lBrace => "LBrace"
  | .rBrace => "RBrace"
  | .comma => "Comma"
  | .semi => "Semi"
  | .colonColon => "ColonColon"
  | .colon => "Colon"
  | .dotDot => "DotDot"
  | .dot => "Dot"

/-- The kind of a word of letters: a keyword if it is spelt as one, otherwise an identifier. -/
def ofWord (word : String) : Kind :=
  (keywords.find? fun kind => kind.spelling? == some word).getD .ident

end Kind

/-- Whether `word` is reserved. -/
def isKeyword (word : String) : Bool :=
  Kind.keywords.any fun kind => kind.spelling? == some word

/-- A word of the language where it stands in a text. -/
structure Token where
  kind : Kind
  text : String
  span : Span
deriving DecidableEq

namespace Token

/-- How a token is quoted in messages: classes of words by what was written, all others by
their spelling. -/
def describe (token : Token) : String :=
  token.kind.spelling?.getD token.text

end Token

/-- What may stand between tokens.  An `unknown` is a character that begins no token. -/
inductive Trivia where
  | whitespace | lineComment | blockComment | unknown
deriving DecidableEq

namespace Trivia

/-- The label of a kind of trivia in token listings. -/
def label : Trivia → String
  | .whitespace => "Whitespace"
  | .lineComment => "LineComment"
  | .blockComment => "BlockComment"
  | .unknown => "Unknown"

/-- Whether this is a comment of either form. -/
def isComment : Trivia → Bool
  | .lineComment | .blockComment => true
  | .whitespace | .unknown => false

end Trivia

/-- A stretch of text between two tokens. -/
structure Filler where
  trivia : Trivia
  text : String
  span : Span
deriving DecidableEq

/-- A stretch of text: a token, or something between tokens. -/
inductive Piece where
  | token (token : Token)
  | filler (filler : Filler)
deriving DecidableEq

namespace Piece

/-- The characters of a piece. -/
def text : Piece → String
  | .token word => word.text
  | .filler gap => gap.text

/-- Where a piece stands. -/
def span : Piece → Span
  | .token word => word.span
  | .filler gap => gap.span

end Piece

end Lustre
