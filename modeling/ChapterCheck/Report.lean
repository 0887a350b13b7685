import ChapterCheck.Finding

namespace ChapterCheck

structure Report where
  filesScanned : Nat := 0
  codeBlocks : Nat := 0
  findings : List Finding := []
  deriving DecidableEq, Repr

namespace Report

def passed (r : Report) : Bool := r.findings.isEmpty

def exitCode (r : Report) : Nat := if r.passed then 0 else 1

end Report
end ChapterCheck
