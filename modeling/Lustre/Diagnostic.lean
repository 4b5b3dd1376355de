import Lustre.Operator

/-!
# Diagnostics

A diagnostic says what is wrong with a text and where.  Its `Cause` is data;
the wording, the category and the list of words that would have been accepted
are functions of the cause.
-/

namespace Lustre

/-- The broad classes of diagnostics. -/
inductive Category where
  | lexical | syntactic | structural | ambiguity | endOfInput
deriving DecidableEq

namespace Category

/-- How a category is named in messages. -/
def describe : Category → String
  | .lexical => "lex"
  | .syntactic => "syntax"
  | .structural => "structural"
  | .ambiguity => "ambiguity"
  | .endOfInput => "end of input"

/-- The label of a category in machine-readable output. -/
def label : Category → String
  | .lexical => "Lex"
  | .syntactic => "Syntax"
  | .structural => "Structural"
  | .ambiguity => "Ambiguity"
  | .endOfInput => "EndOfInput"

end Category

/-- The parts of the grammar that a message can ask for. -/
inductive Wanted where
  | identifier | member | expression | endOfExpression | mergePattern | mergeArm | fileName
  | declaration | declarationOrEnd | typeExpression
deriving DecidableEq

namespace Wanted

/-- How a part of the grammar is named in messages. -/
def describe : Wanted → String
  | .identifier => "identifier"
  | .member => "identifier after `::`"
  | .expression => "an expression"
  | .endOfExpression => "end of expression"
  | .mergePattern => "a merge pattern"
  | .mergeArm => "a merge arm `(pattern -> expr)`"
  | .fileName => "a quoted file name"
  | .declaration => "a declaration"
  | .declarationOrEnd => "a declaration or `end`"
  | .typeExpression => "a type"

end Wanted

/-- Why a text is rejected.  Where a word came unexpectedly, `found` quotes it, and is `none` at
the end of the text. -/
inductive Cause where
  | unterminatedComment
  | unterminatedString
  | unknownCharacter (character : String)
  | unexpected (options : List Kind) (found : Option String)
  | missing (wanted : Wanted) (found : Option String)
  | nestedTooDeeply
  | spacedQualifiedName
  | chainedComparison (first second : BinaryOp)
  | unappliedInstance (name : String)
  | sharedDefault
  | misplacedInclude
  | nestedPackage
  | aliasWithBody (name : String)
  | bodyWithoutProfile (name : String)
  | instanceWithBody (name : String)
  | modelWithoutNeeds (name : String)
  | ambiguousArgument (name : String)
  | tooManyErrors
  /-- A cause met where the text was cut short by an unterminated word. -/
  | cutShort (cause : Cause)
  /-- A cause stated from outside. -/
  | stated (category : Category) (message : String) (expected : List String)
deriving DecidableEq

namespace Cause

/-- How messages name what was found. -/
def describeFound : Option String → String
  | some word => s!"`{word}`"
  | none => "end of input"

/-- The category of a cause. -/
def category : Cause → Category
  | .unterminatedComment | .unterminatedString | .unknownCharacter _ => .lexical
  | .aliasWithBody _ | .bodyWithoutProfile _ | .instanceWithBody _ | .modelWithoutNeeds _ =>
      .structural
  | .ambiguousArgument _ => .ambiguity
  | .cutShort _ => .endOfInput
  | .stated category _ _ => category
  | _ => .syntactic

/-- What a message says of a cause. -/
def message : Cause → String
  | .unterminatedComment => "unterminated block comment"
  | .unterminatedString => "unterminated string literal"
  | .unknownCharacter character => s!"unexpected character '{character}'"
  | .unexpected [] found => s!"unexpected {describeFound found}"
  | .unexpected [only] found => s!"expected `{only.describe}`, found {describeFound found}"
  | .unexpected options found =>
      let listed := ", ".intercalate (options.map fun option => s!"`{option.describe}`")
      s!"expected one of {listed}, found {describeFound found}"
  | .missing wanted found => s!"expected {wanted.describe}, found {describeFound found}"
  | .nestedTooDeeply => "expression nested too deeply"
  | .spacedQualifiedName => "qualified names must be written without blanks around `::`"
  | .chainedComparison first second =>
      s!"comparison operators are non-associative: `{second.text}` cannot follow " ++
        s!"`{first.text}` without parentheses"
  | .unappliedInstance name => s!"instance `{name}<<...>>` must be applied to arguments"
  | .sharedDefault => "a default value can only be given to a single field"
  | .misplacedInclude => "`include` directives must come before all declarations"
  | .nestedPackage => "packages and models cannot be nested; missing `end`?"
  | .aliasWithBody name => s!"node `{name}` is an alias and cannot also have a body"
  | .bodyWithoutProfile name => s!"node `{name}` has a body but no profile"
  | .instanceWithBody name => s!"package `{name}` is an instance and cannot also have a body"
  | .modelWithoutNeeds name => s!"model `{name}` is missing its `needs` clause"
  | .ambiguousArgument name => s!"static argument `{name}` was classified as an expression"
  | .tooManyErrors => "too many errors; stopping"
  | .cutShort cause => s!"{cause.message} (input ends inside an unterminated token)"
  | .stated _ message _ => message

/-- The words that would have been accepted, where they are known. -/
def expected : Cause → List String
  | .unexpected options _ => options.map Kind.describe
  | .unappliedInstance _ => ["("]
  | .cutShort cause => cause.expected
  | .stated _ _ expected => expected
  | _ => []

end Cause

/-- What is wrong with a text, and where. -/
structure Diagnostic where
  cause : Cause
  span : Span
deriving DecidableEq

namespace Diagnostic

/-- The category of a diagnostic. -/
def category (diagnostic : Diagnostic) : Category := diagnostic.cause.category

/-- The message of a diagnostic. -/
def message (diagnostic : Diagnostic) : String := diagnostic.cause.message

/-- The words that would have been accepted, where they are known. -/
def expected (diagnostic : Diagnostic) : List String := diagnostic.cause.expected

/-- A diagnostic on one line. -/
def describe (diagnostic : Diagnostic) : String :=
  s!"{diagnostic.category.describe} error: {diagnostic.message}"

end Diagnostic

end Lustre
