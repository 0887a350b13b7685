import ChapterCheck.Pattern.Reading
import ChapterCheck.Text.Blank
import ChapterCheck.Text.Lines

namespace ChapterCheck.Frontmatter

inductive Issue where
  | missingBlock
  | missingTitle
  | missingDescription
  deriving DecidableEq, Repr

def delimiter : List Char := ['-', '-', '-']

-- The line right after the opening belongs to the body whatever it is.
def blockOf : List (List Char) → Option (List (List Char))
  | opening :: first :: rest =>
    if opening = delimiter ∧ delimiter ∈ rest then
      some (first :: rest.takeWhile (· ≠ delimiter))
    else none
  | _ => none

def block? (content : String) : Option (List Char) :=
  (blockOf (Text.lines content.toList)).map Text.joinLines

-- The blanks around the word may run over line ends.
def key (word : String) : Expr :=
  let blanks : Expr := .any ⟨Text.blankRanges, false⟩
  .sequence [.start true, blanks, .word word, blanks, .char ':']

def hasKey (word : String) (body : List Char) : Bool := (key word).occursIn body

def check (content : String) : Option Issue :=
  match block? content with
  | none => some .missingBlock
  | some body =>
    if !hasKey "title" body then some .missingTitle
    else if !hasKey "description" body then some .missingDescription
    else none

end ChapterCheck.Frontmatter
