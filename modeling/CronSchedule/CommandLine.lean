import CronSchedule.Report

/-! # The command line

The words of a command line are read as the expression and the options, and a run answers
with an exit code and the two output texts.  A word after a lone double dash is never an
option.  Words are read from left to right and the first fault is the answer.
-/
namespace CronSchedule

open Text

/-- The options of a command line, as far as they were given. -/
structure Arguments where
  expression : Option String := none
  count : Option Nat := none
  seconds : Option SecondsMode := none
  bothDays : Bool := false
  json : Bool := false
  verbose : Bool := false

/-- Why the words of a command line are no request. -/
inductive UsageError where
  | unknownOption (name : String)
  | repeatedOption (name : String)
  | missingValue (name : String)
  | unexpectedValue (name : String)
  | invalidValue (name value : String)
  | unexpectedWord (word : String)
  | missingExpression
  deriving DecidableEq

namespace UsageError

/-- The wording of an error. -/
def message : UsageError → String
  | unknownOption name => s!"unexpected argument '{name}' found"
  | repeatedOption name => s!"the argument '{name}' cannot be used multiple times"
  | missingValue name => s!"a value is required for '{name}' but none was supplied"
  | unexpectedValue name => s!"unexpected value for '{name}' found; no more were expected"
  | invalidValue name value => s!"invalid value '{value}' for '{name}'"
  | unexpectedWord word => s!"unexpected argument '{word}' found"
  | missingExpression => "the following required arguments were not provided: <EXPRESSION>"

end UsageError

/-- What a command line asks for. -/
inductive Request where
  /-- To report on an expression. -/
  | report (expression : String) (arguments : Arguments)
  /-- To print the version. -/
  | version
  /-- To print how the program is used. -/
  | help

/-- An option that takes a value. -/
inductive ValueOption where
  | count
  | seconds

/-- An option without a value. -/
inductive Flag where
  | bothDays
  | json
  | verbose
  | version
  | help

/-- What one word comes to. -/
inductive WordResult where
  /-- The options with the word taken in. -/
  | more (arguments : Arguments)
  /-- The next word is the value of an option. -/
  | needsValue (option : ValueOption)
  /-- The request is known, whatever follows. -/
  | done (request : Request)

namespace ValueOption

/-- The name of the option in messages. -/
def name : ValueOption → String
  | count => "--count <COUNT>"
  | seconds => "--seconds <SECONDS>"

/-- The options with the value taken in. -/
def apply (option : ValueOption) (value : List Char) (arguments : Arguments) :
    Except UsageError Arguments :=
  match option with
  | count =>
    if arguments.count.isSome then .error (.repeatedOption option.name)
    else
      match numeralUpTo? wordLimit value with
      | some n => .ok { arguments with count := some n }
      | none => .error (.invalidValue option.name (String.ofList value))
  | seconds =>
    if arguments.seconds.isSome then .error (.repeatedOption option.name)
    else
      match SecondsMode.ofName? (String.ofList value) with
      | some mode => .ok { arguments with seconds := some mode }
      | none => .error (.invalidValue option.name (String.ofList value))

/-- The option with a long name. -/
def ofLong? (name : String) : Option ValueOption :=
  if name = "count" then some count
  else if name = "seconds" then some seconds
  else none

end ValueOption

namespace Flag

/-- The name of the flag in messages. -/
def name : Flag → String
  | bothDays => "--dom-and-dow"
  | json => "--json"
  | verbose => "--verbose"
  | version => "--version"
  | help => "--help"

/-- The options with the flag taken in. -/
def apply (flag : Flag) (arguments : Arguments) : Except UsageError WordResult :=
  match flag with
  | bothDays =>
    if arguments.bothDays then .error (.repeatedOption flag.name)
    else .ok (.more { arguments with bothDays := true })
  | json =>
    if arguments.json then .error (.repeatedOption flag.name)
    else .ok (.more { arguments with json := true })
  | verbose =>
    if arguments.verbose then .error (.repeatedOption flag.name)
    else .ok (.more { arguments with verbose := true })
  | version => .ok (.done .version)
  | help => .ok (.done .help)

/-- The flag with a long name. -/
def ofLong? (name : String) : Option Flag :=
  if name = "dom-and-dow" then some bothDays
  else if name = "json" then some json
  else if name = "verbose" then some verbose
  else if name = "version" then some version
  else if name = "help" then some help
  else none

/-- The flag with a letter. -/
def ofLetter? (letter : Char) : Option Flag :=
  if letter = 'v' then some verbose
  else if letter = 'V' then some version
  else if letter = 'h' then some help
  else none

end Flag

namespace Arguments

/-- The request of all words read. -/
def finish (arguments : Arguments) : Except UsageError Request :=
  match arguments.expression with
  | some expression => .ok (.report expression arguments)
  | none => .error .missingExpression

/-- The options with a word taken in as the expression. -/
def takeExpression (arguments : Arguments) (word : String) : Except UsageError Arguments :=
  if arguments.expression.isSome then .error (.unexpectedWord word)
  else .ok { arguments with expression := some word }

/-- An option written with two dashes, and its value where it follows an equals sign. -/
def takeLong (arguments : Arguments) (body : List Char) : Except UsageError WordResult :=
  let (long, value) :=
    match cutAt? '=' body with
    | some (long, value) => (String.ofList long, some value)
    | none => (String.ofList body, none)
  match ValueOption.ofLong? long, Flag.ofLong? long, value with
  | some option, _, some value => (option.apply value arguments).map .more
  | some option, _, none => .ok (.needsValue option)
  | none, some flag, none => flag.apply arguments
  | none, some flag, some _ => .error (.unexpectedValue flag.name)
  | none, none, _ => .error (.unknownOption ("--" ++ long))

/-- Options written as letters after one dash.  The letter of an option with a value takes
what is left of the word. -/
def takeLetters (arguments : Arguments) : List Char → Except UsageError WordResult
  | [] => .ok (.more arguments)
  | 'n' :: [] => .ok (.needsValue .count)
  | 'n' :: '=' :: value => (ValueOption.count.apply value arguments).map .more
  | 'n' :: value => (ValueOption.count.apply value arguments).map .more
  | letter :: rest =>
    match Flag.ofLetter? letter with
    | none => .error (.unknownOption (String.ofList ['-', letter]))
    | some flag =>
      match flag.apply arguments with
      | .ok (.more arguments) => arguments.takeLetters rest
      | result => result

/-- One word before any double dash. -/
def takeWord (arguments : Arguments) (word : String) : Except UsageError WordResult :=
  match word.toList with
  | '-' :: '-' :: body => arguments.takeLong body
  | '-' :: letter :: letters => arguments.takeLetters (letter :: letters)
  | _ => (arguments.takeExpression word).map .more

/-- Whether a word cannot be the value of an option. -/
def looksLikeOption (word : String) : Bool :=
  match word.toList with
  | '-' :: _ :: _ => true
  | _ => false

/-- The words after a double dash. -/
def readExpressions (arguments : Arguments) : List String → Except UsageError Request
  | [] => arguments.finish
  | word :: words =>
    match arguments.takeExpression word with
    | .ok arguments => arguments.readExpressions words
    | .error e => .error e

/-- The words of a command line. -/
def read (arguments : Arguments) : List String → Except UsageError Request
  | [] => arguments.finish
  | word :: words =>
    -- from here on no word is an option
    if word = "--" then arguments.readExpressions words
    else
      match arguments.takeWord word with
      | .error e => .error e
      | .ok (.done request) => .ok request
      | .ok (.more arguments) => arguments.read words
      | .ok (.needsValue option) =>
        match words with
        | [] => .error (.missingValue option.name)
        | value :: words =>
          if looksLikeOption value then .error (.missingValue option.name)
          else
            match option.apply value.toList arguments with
            | .ok arguments => arguments.read words
            | .error e => .error e

end Arguments

/-- What a run answers with. -/
structure Outcome where
  code : Nat
  stdout : String
  stderr : String
  deriving DecidableEq

namespace CommandLine

/-- The name and the version of the program. -/
def versionLine : String := "cron-explain 0.1.0\n"

/-- How the program is used. -/
def usage : String :=
  "Explain a cron expression field by field and list its next executions\n\n" ++
  "Usage: cron-explain [OPTIONS] <EXPRESSION>\n\n" ++
  "Options:\n" ++
  "  -n, --count <COUNT>      How many upcoming executions to list [default: 5]\n" ++
  "      --seconds <SECONDS>  optional, required or disallowed [default: optional]\n" ++
  "      --dom-and-dow        Require both restricted day fields to match\n" ++
  "      --json               Print the result as JSON\n" ++
  "  -v, --verbose            Say more about failures\n" ++
  "  -h, --help               Print help\n" ++
  "  -V, --version            Print version\n"

/-- The report on an expression, or what failed and why. -/
def report (expression : String) (arguments : Arguments) (zone : Zone) (now : Instant) :
    Except (String × Error) Report := do
  let options : ParseOptions :=
    { seconds := arguments.seconds.getD .optional, bothDays := arguments.bothDays }
  let schedule ← (Schedule.parseWith options expression).mapError fun e =>
    (s!"invalid cron expression '{expression}'", e)
  let count := arguments.count.getD defaultCount
  let times ← ((schedule.occurrencesAfter zone now).take count).mapError fun e =>
    ("could not list the next executions", e)
  return {
    expression := schedule.text
    explanation := schedule.explain
    dayRule := schedule.dayRule
    nextExecutions := times.filterMap zone.wallClock? }

/-- A failure in words: on one line, or on several when more is to be said. -/
def failureText (verbose : Bool) (context : String) (error : Error) : String :=
  if verbose then context ++ "\n\nCaused by:\n    " ++ error.message ++ "\n"
  else "Error: " ++ context ++ ": " ++ error.message ++ "\n"

/-- Answers a request at a time in a zone. -/
def answer (zone : Zone) (now : Instant) : Request → Outcome
  | .version => ⟨0, versionLine, ""⟩
  | .help => ⟨0, usage, ""⟩
  | .report expression arguments =>
    match report expression arguments zone now with
    | .error (context, error) => ⟨1, "", failureText arguments.verbose context error⟩
    | .ok report =>
      ⟨0, if arguments.json then report.toValue.print 0 ++ "\n" else report.render, ""⟩

/-- Runs a command line at a time in a zone. -/
def run (words : List String) (zone : Zone) (now : Instant) : Outcome :=
  match ({} : Arguments).read words with
  | .ok request => answer zone now request
  | .error e => ⟨2, "", "error: " ++ e.message ++ "\n"⟩

end CommandLine
end CronSchedule
