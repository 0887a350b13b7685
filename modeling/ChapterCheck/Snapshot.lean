import ChapterCheck.ContentTree

namespace ChapterCheck

-- Whatever was not asked for beforehand is not there.
structure Snapshot where
  listings : List (Path × Except IoError (List Entry)) := []
  files : List (Path × Except IoError (List UInt8)) := []

namespace Snapshot

def lookup (known : List (Path × Except IoError α)) (p : Path) : Except IoError α :=
  match known.find? fun (q, _) => p.same q with
  | some (_, answer) => answer
  | none => .error .noSuchFile

def contents (s : Snapshot) : ContentTree := ⟨lookup s.listings, lookup s.files⟩

end Snapshot
end ChapterCheck
