import ChapterCheck.ContentTree
import ChapterCheck.Failure

namespace ChapterCheck

structure Listing where
  directory : Path
  entries : List Entry
  deriving DecidableEq, Repr

namespace ContentTree

def directoriesOf (entries : List Entry) : List Path :=
  (entries.filter (·.kind = .directory)).map Entry.path

def Inside (tree : ContentTree) (d dir : Path) : Prop :=
  ∃ entries, tree.list dir = .ok entries ∧ d ∈ directoriesOf entries

instance : Inhabited (Except Failure (List Listing)) := ⟨.ok []⟩

-- The first directory that cannot be listed ends the walk. A walk through directories that are
-- nested without end does not return, and nothing is known of its outcome.
def survey (tree : ContentTree) : Path → Except Failure (List Listing) :=
  WellFounded.partialExtrinsicFix tree.Inside fun dir walk =>
    match listed : tree.list dir with
    | .error cause => .error (.unlistable dir cause)
    | .ok entries =>
      ((directoriesOf entries).attach.mapM fun d => walk d.1 ⟨entries, listed, d.2⟩).map
        fun inside => ⟨dir, entries⟩ :: inside.flatten

end ContentTree

-- The name must be UTF-8 to be compared with the extension.
def Path.hasExtension (p : Path) (extension : String) : Bool :=
  (p.fileName?.bind Text.decode?).any fun name => extension.toList.isSuffixOf name

def Listing.documents (l : Listing) (extension : String) : List Path :=
  (l.entries.filter fun e => e.kind = .file && e.path.hasExtension extension).map Entry.path

def ContentTree.documents (tree : ContentTree) (dir : Path) (extension : String) :
    Except Failure (List Path) :=
  (tree.survey dir).map fun listings => listings.flatMap (·.documents extension)

end ChapterCheck
