import ChapterCheck.CommandLine.Arguments
import ChapterCheck.Output
import ChapterCheck.Progress

namespace ChapterCheck.CommandLine

structure Execution where
  exitCode : Nat
  stdout : List UInt8 := []
  stderr : List UInt8 := []
  log : List String := []
  deriving DecidableEq, Repr

namespace Execution

def told (exitCode : Nat) (out : String) : Execution :=
  { exitCode := exitCode, stdout := Text.encode out.toList }

def refused (e : UsageError) : Execution :=
  { exitCode := 2, stderr := Text.encode e.message.toList }

def crashed (chain : List String) : Execution :=
  { exitCode := 1, stderr := (writeCrash chain {}).1.written }

-- A report that has no JSON form ends the run like a failure to read.
def reported (format : ReportFormat) (report : Report) : Execution :=
  match format with
  | .human =>
    let ((out, err), _) := report.writeHuman {} {}
    { exitCode := report.exitCode, stdout := out.written, stderr := err.written }
  | .json =>
    match report.writeJson {} with
    | (out, none) => { exitCode := report.exitCode, stdout := out.written }
    | (_, some error) => crashed [error.message]

def check (tree : ContentTree) (base : Path) (options : Options) : Execution :=
  let config := Config.forBase base
  let execution := match validate tree config with
    | .ok report => reported options.format report
    | .error failure => crashed (failure.chain [])
  let asked := LogLevel.ofVerbosity options.verbosity
  { execution with log := Progress.linesAt asked (Progress.of tree config) }

def ofArguments (tree : ContentTree) (base : Path) (args : List String) : Execution :=
  match read args with
  | .check options => check tree base options
  | .help => told 0 helpText
  | .version => told 0 versionText
  | .refused e => refused e

end Execution
end ChapterCheck.CommandLine
