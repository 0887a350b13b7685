import ChapterCheck.Pattern.Expr

namespace ChapterCheck.Expr

def Rounds (one : List Char → List Char → List Char → Prop) :
    Nat → List Char → List Char → List Char → Prop
  | 0, _, stretch, _ => stretch = []
  | n + 1, before, stretch, after =>
    ∃ head tail, stretch = head ++ tail ∧ one before head (tail ++ after) ∧
      Rounds one n (before ++ head) tail after

-- The stretches an expression describes, each in the text before it and after it.
def Describes : Expr → List Char → List Char → List Char → Prop
  | .empty, _, stretch, _ => stretch = []
  | .chars set, _, stretch, _ => ∃ c, stretch = [c] ∧ set.contains c
  | .start eachLine, before, stretch, _ =>
    stretch = [] ∧ (before = [] ∨ (eachLine = true ∧ before.getLast? = some '\n'))
  | .finish eachLine, _, stretch, after =>
    stretch = [] ∧ (after = [] ∨ (eachLine = true ∧ after.head? = some '\n'))
  | .seq first second, before, stretch, after =>
    ∃ head tail, stretch = head ++ tail ∧ first.Describes before head (tail ++ after) ∧
      second.Describes (before ++ head) tail after
  | .either left right, before, stretch, after =>
    left.Describes before stretch after ∨ right.Describes before stretch after
  | .times body least more _, before, stretch, after =>
    ∃ n, least ≤ n ∧ (∀ extra ∈ more, n ≤ least + extra) ∧
      Rounds body.Describes n before stretch after

def Occurs (e : Expr) (text : List Char) : Prop :=
  ∃ before stretch after, text = before ++ stretch ++ after ∧ e.Describes before stretch after

end ChapterCheck.Expr
