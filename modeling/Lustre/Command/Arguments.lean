import Lustre.Command

/-!
# Arguments

A command line is a sequence of words: options, then the name of a command, then
the options and operands of that command in any order.  Options are read from
left to right, one word at a time.  Those of the whole program may stand on
either side of the name of the command, once on each side, and the right one
counts.

* `--name value` and `--name=value` give an option its value, and so do
  `-n value`, `-nvalue` and `-n=value` if it has a letter.
* A value that stands alone does not begin with a dash, unless it is nothing else.
* After `--` all words are operands.
-/

namespace Lustre

/-! ## Words -/

/-- What a word looks like. -/
inductive Word where
  /-- Two dashes. -/
  | separator
  | long (name : String) (attached : Option String)
  | short (letter : Char) (attached : String)
  | plain (text : String)
deriving DecidableEq

namespace Word

/-- A word after two dashes: a name and what follows the first equals sign. -/
def longOf (text : List Char) : Word :=
  let name := text.takeWhile (· ≠ '=')
  match text.dropWhile (· ≠ '=') with
  | [] => long (String.ofList name) none
  | _ :: value => long (String.ofList name) (some (String.ofList value))

/-- How a word looks. -/
def ofText (text : String) : Word :=
  match text.toList with
  | ['-', '-'] => separator
  | '-' :: '-' :: rest => longOf rest
  | '-' :: letter :: rest => short letter (String.ofList rest)
  | _ => plain text

end Word

/-! ## Values -/

/-- One more than the greatest number that fits a machine word. -/
def wordBound : Nat := 18446744073709551616

/-- The number that decimal digits stand for, one plus sign before them allowed, if it fits a
machine word. -/
def countOf? (text : String) : Option Nat :=
  let digits :=
    match text.toList with
    | '+' :: digits => digits
    | digits => digits
  if digits ≠ [] ∧ digits.all Char.isDigit then
    let n := digits.foldl (fun n digit => 10 * n + (digit.toNat - '0'.toNat)) 0
    if n < wordBound then some n else none
  else none

/-- A path, which is never empty. -/
def pathOf? (text : String) : Option String := if text = "" then none else some text

/-! ## Options -/

/-- The names of commands. -/
inductive Verb where
  | parse | check | tokens | includes
deriving DecidableEq

namespace Verb

/-- The command that a word names. -/
def ofWord? : String → Option Verb
  | "parse" => some parse
  | "check" => some check
  | "tokens" => some tokens
  | "includes" => some includes
  | _ => none

end Verb

/-- The options of the program and its commands. -/
inductive Setting where
  | config | maxErrors | version | format | jobs | trivia | includeDir
deriving DecidableEq

namespace Setting

/-- The options after the name of a command, or before it. -/
def available : Option Verb → List Setting
  | none => [config, maxErrors, version]
  | some .parse => [config, maxErrors, format, jobs]
  | some .check => [config, maxErrors, jobs]
  | some .tokens => [config, maxErrors, trivia]
  | some .includes => [config, maxErrors, includeDir]

/-- The name of an option after two dashes. -/
def longName : Setting → String
  | config => "config"
  | maxErrors => "max-errors"
  | version => "version"
  | format => "format"
  | jobs => "jobs"
  | trivia => "trivia"
  | includeDir => "include-dir"

/-- The letter of an option after one dash. -/
def letter? : Setting → Option Char
  | version => some 'V'
  | jobs => some 'j'
  | includeDir => some 'I'
  | _ => none

/-- Whether an option has a value. -/
def hasValue : Setting → Bool
  | version | trivia => false
  | _ => true

/-- The option of a name. -/
def ofName? (verb : Option Verb) (name : String) : Option Setting :=
  (available verb).find? fun setting => setting.longName == name

/-- The option of a letter. -/
def ofLetter? (verb : Option Verb) (letter : Char) : Option Setting :=
  (available verb).find? fun setting => setting.letter? == some letter

end Setting

/-- The options and operands that were given. -/
structure Given where
  config : Option String := none
  maxErrors : Option Nat := none
  format : Option Format := none
  jobs : Option Nat := none
  trivia : Bool := false
  includeDirs : List String := []
  operands : List String := []
deriving DecidableEq

namespace Given

/-- Fills in what was not given yet. -/
def once {α : Type} (old : Option α) (new : Option α) : Option (Option α) :=
  match old, new with
  | none, some value => some (some value)
  | _, _ => none

/-- Adds the value of an option.  Only directories may be given more than once. -/
def setValue (given : Given) (setting : Setting) (value : String) : Option Given :=
  match setting with
  | .config => (once given.config (pathOf? value)).map fun config => { given with config := config }
  | .maxErrors =>
      (once given.maxErrors (countOf? value)).map fun count => { given with maxErrors := count }
  | .format =>
      (once given.format (Format.ofWord? value)).map fun format => { given with format := format }
  | .jobs => (once given.jobs (countOf? value)).map fun jobs => { given with jobs := jobs }
  | .includeDir =>
      (pathOf? value).map fun dir => { given with includeDirs := given.includeDirs ++ [dir] }
  | .version | .trivia => none

/-- Adds an operand. -/
def addOperand (given : Given) (text : String) : Option Given :=
  (pathOf? text).map fun path => { given with operands := given.operands ++ [path] }

end Given

/-! ## Reading words -/

/-- How far a command line was read. -/
structure Arguments where
  verb : Option Verb := none
  /-- What stands before the name of the command. -/
  before : Given := {}
  /-- What was given on this side of the name of the command. -/
  given : Given := {}
  /-- The option whose value comes next. -/
  awaiting : Option Setting := none
  /-- Whether all other words are operands. -/
  separated : Bool := false
deriving DecidableEq

/-- Why the rest of the words does not matter. -/
inductive Halt where
  | version
  | misused
deriving DecidableEq

namespace Arguments

/-- Goes on with the result of a step that may make no sense. -/
def orMisused (found : Option Arguments) : Except Halt Arguments :=
  match found with
  | some arguments => .ok arguments
  | none => .error .misused

/-- Takes the value of an option. -/
def setValue (arguments : Arguments) (setting : Setting) (value : String) :
    Except Halt Arguments :=
  orMisused <| (arguments.given.setValue setting value).map fun given =>
    { arguments with given := given, awaiting := none }

/-- Takes an option without value. -/
def setFlag (arguments : Arguments) : Setting → Except Halt Arguments
  | .version => .error .version
  | .trivia =>
      if arguments.given.trivia then .error .misused
      else .ok { arguments with given := { arguments.given with trivia := true } }
  | _ => .error .misused

/-- Takes an option with the value attached to it, or begins to wait for one. -/
def setOption (arguments : Arguments) (setting : Setting) (attached : Option String) :
    Except Halt Arguments :=
  match setting.hasValue, attached with
  | true, some value => arguments.setValue setting value
  | true, none => .ok { arguments with awaiting := some setting }
  | false, none => arguments.setFlag setting
  | false, some _ => .error .misused

/-- The value attached to the letter of an option; an equals sign may come before it. -/
def attachedValue (text : String) : Option String :=
  match text.toList with
  | [] => none
  | '=' :: value => some (String.ofList value)
  | _ => some text

/-- Takes an option given by its letter.  What follows the letter of an option without value is
further letters. -/
def setLetter (arguments : Arguments) (setting : Setting) (attached : String) :
    Except Halt Arguments :=
  if setting.hasValue then arguments.setOption setting (attachedValue attached)
  else arguments.setFlag setting

/-- Takes an operand. -/
def addOperand (arguments : Arguments) (text : String) : Except Halt Arguments :=
  match arguments.verb with
  | none => .error .misused
  | some _ =>
      orMisused <| (arguments.given.addOperand text).map fun given =>
        { arguments with given := given }

/-- Takes a word that is no option: the name of the command, then operands. -/
def addPlain (arguments : Arguments) (text : String) : Except Halt Arguments :=
  match arguments.verb, Verb.ofWord? text with
  | none, some verb =>
      .ok { arguments with verb := some verb, before := arguments.given, given := {} }
  | _, _ => arguments.addOperand text

/-- Takes the next word. -/
def next (arguments : Arguments) (text : String) : Except Halt Arguments :=
  match arguments.awaiting with
  | some setting =>
      match Word.ofText text with
      | .plain value => arguments.setValue setting value
      | _ => .error .misused
  | none =>
      if arguments.separated then arguments.addOperand text
      else
        match Word.ofText text with
        | .separator => .ok { arguments with separated := true }
        | .long name attached =>
            match Setting.ofName? arguments.verb name with
            | some setting => arguments.setOption setting attached
            | none => .error .misused
        | .short letter attached =>
            match Setting.ofLetter? arguments.verb letter with
            | some setting => arguments.setLetter setting attached
            | none => .error .misused
        | .plain text => arguments.addPlain text

/-- What a command needs of its operands: some files, or exactly one. -/
def command? (verb : Verb) (given : Given) : Option Command :=
  match verb, given.operands with
  | .parse, file :: files =>
      some (.parse (file :: files) (given.format.getD .pretty) given.jobs)
  | .check, file :: files => some (.check (file :: files) given.jobs)
  | .tokens, [file] => some (.tokens file given.trivia)
  | .includes, [file] => some (.includes file given.includeDirs)
  | _, _ => none

/-- What a whole command line asks for. -/
def request (arguments : Arguments) : Request :=
  match arguments.awaiting, arguments.verb with
  | none, some verb =>
      match command? verb arguments.given with
      | some command =>
          .run ⟨arguments.given.config <|> arguments.before.config,
            arguments.given.maxErrors <|> arguments.before.maxErrors, command⟩
      | none => .misused
  | _, _ => .misused

end Arguments

namespace Request

/-- What the words of a command line ask for. -/
def ofWords (words : List String) : Request :=
  match words.foldlM Arguments.next {} with
  | .ok arguments => arguments.request
  | .error .version => .version
  | .error .misused => .misused

end Request

end Lustre
