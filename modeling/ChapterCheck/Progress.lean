import ChapterCheck.LogLevel
import ChapterCheck.Validation

namespace ChapterCheck

inductive Progress where
  | started (root : Path)
  | listed (directory : Path) (entries : Nat)
  | discovered (root : Path) (files : Nat)
  | checked (file : Path) (findings codeBlocks : Nat)
  | finished (files codeBlocks findings : Nat)
  deriving DecidableEq, Repr

namespace Progress

def level : Progress → LogLevel
  | .started _ => .debug
  | .listed _ _ => .trace
  | .discovered _ _ => .debug
  | .checked _ _ _ => .trace
  | .finished _ _ _ => .info

def message : Progress → String
  | .started root => "validating docs root=" ++ root.display
  | .listed directory entries =>
    "listed directory dir=" ++ directory.display ++ " entries=" ++ toString entries
  | .discovered root files =>
    "discovered documents root=" ++ root.display ++ " files=" ++ toString files
  | .checked file findings codeBlocks =>
    "validated document file=" ++ file.display ++ " errors=" ++ toString findings ++
      " code_blocks=" ++ toString codeBlocks
  | .finished files codeBlocks findings =>
    "validation finished files=" ++ toString files ++ " code_blocks=" ++ toString codeBlocks ++
      " errors=" ++ toString findings

def line (p : Progress) : String := p.level.name.toUpper ++ " " ++ p.message

-- A run that fails tells what was over before the failing stage began.
def of (tree : ContentTree) (config : Config) : List Progress :=
  .started config.root ::
    match tree.survey config.root with
    | .error _ => []
    | .ok listings =>
      listings.map (fun l => .listed l.directory l.entries.length) ++
      .discovered config.root (Validation.documentsOf listings config.extension).length ::
      match Validation.judgeAll tree config listings with
      | .error _ => []
      | .ok v =>
        v.outcomes.map (fun (d, o) => .checked d.name o.findings.length o.codeBlocks) ++
        [.finished v.report.filesScanned v.report.codeBlocks v.report.findings.length]

def linesAt (asked : LogLevel) (told : List Progress) : List String :=
  (told.filter (·.level.shownAt asked)).map line

end Progress
end ChapterCheck
