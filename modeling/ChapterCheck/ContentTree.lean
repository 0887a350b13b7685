import ChapterCheck.IoError
import ChapterCheck.Path

namespace ChapterCheck

inductive EntryKind where
  | directory
  | file
  | other
  deriving DecidableEq, Repr

-- A symbolic link is listed as neither a directory nor a file, whatever it leads to.
structure Entry where
  path : Path
  kind : EntryKind
  deriving DecidableEq, Repr

structure ContentTree where
  list : Path → Except IoError (List Entry)
  read : Path → Except IoError (List UInt8)

end ChapterCheck
