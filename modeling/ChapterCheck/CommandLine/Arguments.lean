import ChapterCheck.CommandLine.Usage

namespace ChapterCheck.CommandLine

structure Options where
  format : ReportFormat := .human
  verbosity : Nat := 0
  deriving DecidableEq, Repr

inductive Request where
  | check (options : Options)
  | help
  | version
  | refused (error : UsageError)
  deriving DecidableEq, Repr

-- A format flag without `=` waits for its value, which is looked at only when the next flag or
-- the end of the arguments settles it.
inductive Awaited where
  | nothing
  | value
  | held (value : String)
  deriving DecidableEq, Repr

structure Scan where
  format : Option ReportFormat := none
  verbosity : Nat := 0
  used : List Flag := []
  awaited : Awaited := .nothing
  deriving DecidableEq, Repr

namespace Scan

def setFormat (s : Scan) (value : String) : Except UsageError Scan :=
  if s.format.isSome then .error .repeatedFormat
  else
    match ReportFormat.named? value with
    | some f => .ok { s with format := some f, used := s.used ++ [.format], awaited := .nothing }
    | none => .error (if value.isEmpty then .missingFormat else .invalidFormat value)

def settle (s : Scan) : Except UsageError Scan :=
  match s.awaited with
  | .nothing => .ok s
  | .value => .error .missingFormat
  | .held value => s.setFormat value

-- A value held counts as a use even if it turns out wrong; a second use drops the flag.
def usedAfterSettling (s : Scan) : List Flag :=
  match s.awaited with
  | .held _ => if s.used.contains .format then s.used.erase .format else s.used ++ [.format]
  | _ => s.used

def countVerbose (s : Scan) : Scan :=
  { s with verbosity := min 255 (s.verbosity + 1), used := s.used.erase .verbose ++ [.verbose] }

def finish (s : Scan) : Request :=
  match s.settle with
  | .ok s => .check ⟨s.format.getD .human, s.verbosity⟩
  | .error e => .refused e

def apply (s : Scan) (flag : Flag) : Sum Request Scan :=
  match s.settle with
  | .error e => .inl (.refused e)
  | .ok s =>
    match flag with
    | .format => .inr { s with awaited := .value }
    | .verbose => .inr s.countVerbose
    | .help => .inl .help
    | .version => .inl .version

def long (s : Scan) (name : String) (value : Option String) : Sum Request Scan :=
  match Flag.named? name, value with
  | some .format, some value =>
    match s.settle.bind (·.setFormat value) with
    | .ok s => .inr s
    | .error e => .inl (.refused e)
  | some flag, none => s.apply flag
  | some flag, some value => .inl (.refused (.unexpectedValue value flag s.used))
  | none, _ =>
    .inl (.refused (.unexpectedArgument ("--" ++ name) (Flag.like? name) s.usedAfterSettling))

def shorts (s : Scan) : List Char → Sum Request Scan
  | [] => .inr s
  | c :: rest =>
    match Flag.short? c with
    | none => .inl (.refused (.unexpectedArgument ("-" ++ String.singleton c) none []))
    | some flag =>
      match s.apply flag with
      | .inr s => s.shorts rest
      | .inl request => .inl request

def word (s : Scan) (argument : String) : Sum Request Scan :=
  match s.awaited with
  | .value => .inr { s with awaited := .held argument }
  | _ => .inl (.refused (.unexpectedArgument argument none []))

def splitValue (s : List Char) : List Char × Option (List Char) :=
  match s.dropWhile (· ≠ '=') with
  | [] => (s, none)
  | _ :: value => (s.takeWhile (· ≠ '='), some value)

def argument (s : Scan) (arg : String) : Sum Request Scan :=
  match arg.toList with
  | '-' :: '-' :: rest =>
    let (name, value) := splitValue rest
    s.long (String.ofList name) (value.map String.ofList)
  | '-' :: c :: rest => s.shorts (c :: rest)
  | _ => s.word arg

def request (s : Scan) : List String → Request
  | [] => s.finish
  | arg :: rest =>
    if arg = "--" then
      match rest with
      | [] => s.finish
      | extra :: _ => .refused (.unexpectedArgument extra none [])
    else
      match s.argument arg with
      | .inr s => s.request rest
      | .inl request => request

end Scan

def read (args : List String) : Request := ({} : Scan).request args

end ChapterCheck.CommandLine
