import ChapterCheck.Failure
import ChapterCheck.Json
import ChapterCheck.Report

namespace ChapterCheck

inductive WriteError where
  | full
  | pathNotUtf8
  deriving DecidableEq, Repr

def WriteError.message : WriteError → String
  | .full => "failed to write whole buffer"
  | .pathNotUtf8 => "path contains invalid UTF-8 characters"

structure Sink where
  room : Option Nat := none
  written : List UInt8 := []
  deriving DecidableEq, Repr

namespace Sink

def put (s : Sink) (piece : List UInt8) : Sink × Bool :=
  match s.room with
  | none => ({ s with written := s.written ++ piece }, true)
  | some n =>
    (⟨some (n - piece.length), s.written ++ piece.take n⟩, decide (piece.length ≤ n))

def putAll (s : Sink) : List String → Sink × Option WriteError
  | [] => (s, none)
  | piece :: rest =>
    let (s, taken) := s.put (Text.encode piece.toList)
    if taken then s.putAll rest else (s, some .full)

end Sink

namespace Report

def failedHeader : String := "Docs validation failed:\n"

def summary (r : Report) : String :=
  "Docs validation passed: " ++ toString r.filesScanned ++ " files, " ++
    toString r.codeBlocks ++ " code blocks.\n"

def failedPieces (r : Report) : List String :=
  failedHeader :: r.findings.map fun f => "- " ++ f.describe ++ "\n"

def writeHuman (r : Report) (out err : Sink) : (Sink × Sink) × Option WriteError :=
  if r.passed then
    let (out, error) := out.putAll [r.summary]
    ((out, err), error)
  else
    let (err, error) := err.putAll r.failedPieces
    ((out, err), error)

end Report

-- JSON strings are Unicode text, so a file whose path is not UTF-8 has none.
def Finding.toJson? (f : Finding) : Option Json :=
  f.file.text?.map fun file =>
    .object <|
      [("file", .text file), ("line", (f.line.map Json.number).getD .null),
        ("kind", .text f.defect.tag)] ++
      (f.defect.label?.toList.map fun label => ("pattern", .text label)) ++
      [("message", .text f.message)]

namespace Report

def toJson? (r : Report) : Option Json :=
  (r.findings.mapM Finding.toJson?).map fun errors =>
    .object
      [("files_scanned", .number r.filesScanned), ("code_blocks", .number r.codeBlocks),
        ("errors", .array errors)]

def writeJson (r : Report) (out : Sink) : Sink × Option WriteError :=
  match r.toJson? with
  | some json => out.putAll [json.pretty, "\n"]
  | none => (out, some .pathNotUtf8)

end Report

def crashedHeader : String := "Docs validation crashed:"

def crashPieces (chain : List String) : List String :=
  [crashedHeader, " ", String.intercalate ": " chain, "\n"]

def writeCrash (chain : List String) (err : Sink) : Sink × Option WriteError :=
  err.putAll (crashPieces chain)

end ChapterCheck
