import ChapterCheck.ContentTree
import ChapterCheck.Failure
import ChapterCheck.Fence
import ChapterCheck.Finding
import ChapterCheck.Pattern

namespace ChapterCheck

structure Document where
  path : Path
  name : Path
  content : String
  deriving DecidableEq, Repr

structure Outcome where
  findings : List Finding := []
  codeBlocks : Nat := 0
  deriving DecidableEq, Repr

namespace Document

def nameIn (base path : Path) : Path := (path.relativeTo? base).getD path

def load (tree : ContentTree) (base path : Path) : Except Failure Document :=
  match tree.read path with
  | .ok bytes => .ok ⟨path, nameIn base path, String.ofList (Text.decodeLossy bytes)⟩
  | .error cause => .error (.unreadable path cause)

def defects (patterns : List Pattern) (content : String) : List (Option Nat × Defect) :=
  ((Frontmatter.check content).toList.map fun issue => (none, .ofIssue issue)) ++
    ((Fence.scan content).unclosedAt.toList.map fun line => (some line, .unclosedFence)) ++
    ((Pattern.scan patterns content).map fun p => (none, .forbiddenPattern p.label))

def check (patterns : List Pattern) (d : Document) : Outcome :=
  { findings := (defects patterns d.content).map fun (line, defect) => ⟨d.name, line, defect⟩
    codeBlocks := (Fence.scan d.content).blocks.length }

end Document
end ChapterCheck
