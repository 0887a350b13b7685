import ChapterCheck.Pattern.Reading
import ChapterCheck.Pattern.Source

namespace ChapterCheck

structure Pattern where
  label : String
  expr : Expr
  deriving DecidableEq, Repr

namespace Pattern

def ofSource (label source : String) : Except Fault Pattern :=
  (parse source.toList).map (Pattern.mk label)

def occursIn (p : Pattern) (content : String) : Bool := p.expr.occursIn content.toList

def scan (patterns : List Pattern) (content : String) : List Pattern :=
  patterns.filter (·.occursIn content)

-- A placeholder left by an author, characters lost in a botched copy, and damaged encoding.
def builtinSources : List (String × String) :=
  [("/FIXME/i", "(?i)FIXME"), ("/\\?\\?\\?\\?/g", "\\?\x7b4,\x7d"), ("/\\uFFFD/g", "\ufffd")]

def builtin : List Pattern :=
  builtinSources.flatMap fun (label, source) => (ofSource label source).toOption.toList

end Pattern
end ChapterCheck
