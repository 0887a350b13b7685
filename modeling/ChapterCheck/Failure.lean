import ChapterCheck.IoError
import ChapterCheck.Path

namespace ChapterCheck

inductive Failure where
  | unlistable (path : Path) (cause : IoError)
  | unreadable (path : Path) (cause : IoError)
  deriving DecidableEq, Repr

namespace Failure

def path : Failure → Path
  | .unlistable path _ => path
  | .unreadable path _ => path

def cause : Failure → IoError
  | .unlistable _ cause => cause
  | .unreadable _ cause => cause

def message : Failure → String
  | .unlistable path _ => "failed to list directory " ++ path.display
  | .unreadable path _ => "failed to read file " ++ path.display

-- The messages from the outermost context inwards, the cause last.
def chain (contexts : List String) (f : Failure) : List String :=
  contexts.reverse ++ [f.message, f.cause.message]

end Failure
end ChapterCheck
