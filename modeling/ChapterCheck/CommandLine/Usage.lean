import ChapterCheck.CommandLine.Similarity
import ChapterCheck.Text.ControlSequence

namespace ChapterCheck.CommandLine

def programName : String := "docs-validator"

def version : String := "0.1.0"

inductive ReportFormat where
  | human
  | json
  deriving DecidableEq, Repr

namespace ReportFormat

def all : List ReportFormat := [.human, .json]

def name : ReportFormat → String
  | .human => "human"
  | .json => "json"

def named? (s : String) : Option ReportFormat := all.find? (·.name = s)

end ReportFormat

inductive Flag where
  | format
  | verbose
  | help
  | version
  deriving DecidableEq, Repr

namespace Flag

def all : List Flag := [.format, .verbose, .help, .version]

def long : Flag → String
  | .format => "format"
  | .verbose => "verbose"
  | .help => "help"
  | .version => "version"

def short? : Char → Option Flag
  | 'v' => some .verbose
  | 'h' => some .help
  | 'V' => some .version
  | _ => none

def shown : Flag → String
  | .format => "--format <FORMAT>"
  | .verbose => "--verbose..."
  | .help => "--help"
  | .version => "--version"

def isOption : Flag → Bool
  | .format => true
  | .verbose => true
  | .help => false
  | .version => false

def named? (s : String) : Option Flag := all.find? (·.long = s)

def like? (s : String) : Option Flag := (mostLike? s (all.map long)).bind named?

end Flag

-- `used` are the flags met before, in the order of their last use.
inductive UsageError where
  | unexpectedArgument (argument : String) (similar : Option Flag) (used : List Flag)
  | unexpectedValue (value : String) (flag : Flag) (used : List Flag)
  | invalidFormat (value : String)
  | missingFormat
  | repeatedFormat
  deriving DecidableEq, Repr

def usageLine (shown : List String) : String :=
  "Usage: " ++ programName ++ " " ++
    if shown.isEmpty then "[OPTIONS]" else String.intercalate " " shown

def shownSingly (used : List Flag) (meant : Option Flag) : List String :=
  (used ++ meant.toList).eraseDups.map Flag.shown

def optionGroup : String :=
  "<" ++ String.intercalate "|" ((Flag.all.filter Flag.isOption).map Flag.shown) ++ ">"

def shownGrouped (used : List Flag) (meant : Flag) : List String :=
  if used.any Flag.isOption then
    shownSingly ((used ++ [meant]).filter (!·.isOption)) none ++ [optionGroup]
  else shownSingly used meant

def formatNames : String :=
  "  [possible values: " ++ String.intercalate ", " (ReportFormat.all.map ReportFormat.name) ++ "]"

namespace UsageError

-- A given text is set off by its style, so a control sequence left open in it ends with it.
def quoted (given : String) : String := "'" ++ Text.visible given ++ "'"

def body : UsageError → String
  | .unexpectedArgument argument similar used =>
    let hint := match similar with
      | some flag => "\n\n  tip: a similar argument exists: '--" ++ flag.long ++ "'"
      | none => ""
    "unexpected argument " ++ quoted argument ++ " found" ++ hint ++ "\n\n" ++
      usageLine (shownSingly used similar)
  | .unexpectedValue value flag used =>
    "unexpected value " ++ quoted value ++ " for '" ++ flag.shown ++
      "' found; no more were expected\n\n" ++ usageLine (shownGrouped used flag)
  | .invalidFormat value =>
    let hint := match mostLike? value (ReportFormat.all.map ReportFormat.name) with
      | some name => "\n\n  tip: a similar value exists: '" ++ name ++ "'"
      | none => ""
    "invalid value " ++ quoted value ++ " for '" ++ Flag.format.shown ++ "'\n" ++
      formatNames ++ hint
  | .missingFormat =>
    "a value is required for '" ++ Flag.format.shown ++ "' but none was supplied\n" ++ formatNames
  | .repeatedFormat =>
    "the argument '" ++ Flag.format.shown ++ "' cannot be used multiple times\n\n" ++ usageLine []

def message (e : UsageError) : String :=
  "error: " ++ e.body ++ "\n\nFor more information, try '--help'.\n"

end UsageError

def helpText : String :=
  "Structural and lexical integrity checks for book chapters before publication\n\n" ++
    usageLine [] ++ "\n\nOptions:\n" ++
    "      --format <FORMAT>  Report format [default: human] [possible values: human, json]\n" ++
    "  -v, --verbose...       Increase log verbosity (-v info, -vv debug, -vvv trace)\n" ++
    "  -h, --help             Print help\n" ++
    "  -V, --version          Print version\n"

def versionText : String := programName ++ " " ++ version ++ "\n"

end ChapterCheck.CommandLine
