import ChapterCheck.Path
import ChapterCheck.Pattern

namespace ChapterCheck

structure Config where
  root : Path
  base : Path
  extension : String
  patterns : List Pattern
  deriving DecidableEq, Repr

namespace Config

def contentRoot : Path := .ofString "src/content/docs"

def forBase (base : Path) : Config :=
  ⟨base.join contentRoot, base, ".mdx", Pattern.builtin⟩

def standard : Config := forBase (.ofString ".")

end Config
end ChapterCheck
