import ChapterCheck.Frontmatter
import ChapterCheck.Path

namespace ChapterCheck

inductive Defect where
  | missingFrontmatter
  | missingTitle
  | missingDescription
  | unclosedFence
  | forbiddenPattern (label : String)
  deriving DecidableEq, Repr

namespace Defect

def ofIssue : Frontmatter.Issue → Defect
  | .missingBlock => .missingFrontmatter
  | .missingTitle => .missingTitle
  | .missingDescription => .missingDescription

def tag : Defect → String
  | .missingFrontmatter => "missing_frontmatter"
  | .missingTitle => "missing_frontmatter_title"
  | .missingDescription => "missing_frontmatter_description"
  | .unclosedFence => "unclosed_fence"
  | .forbiddenPattern _ => "forbidden_pattern"

def message : Defect → String
  | .missingFrontmatter => "missing frontmatter"
  | .missingTitle => "missing frontmatter.title"
  | .missingDescription => "missing frontmatter.description"
  | .unclosedFence => "has unclosed code fence"
  | .forbiddenPattern label => "contains forbidden pattern " ++ label

def label? : Defect → Option String
  | .forbiddenPattern label => some label
  | _ => none

end Defect

structure Finding where
  file : Path
  line : Option Nat := none
  defect : Defect
  deriving DecidableEq, Repr

namespace Finding

def message (f : Finding) : String := f.defect.message

def describe (f : Finding) : String :=
  match f.line with
  | some line => f.file.display ++ ":" ++ toString line ++ ": " ++ f.message
  | none => f.file.display ++ ": " ++ f.message

end Finding
end ChapterCheck
