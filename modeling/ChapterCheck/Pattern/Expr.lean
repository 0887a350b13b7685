import ChapterCheck.Pattern.CharSet

namespace ChapterCheck

-- `times e least more lazy` is e repeated least times and up to more times beyond that, without
-- bound for `none`; `lazy` states a preference among stretches and has no say in whether there
-- is one.
inductive Expr where
  | empty
  | chars (set : CharSet)
  | start (eachLine : Bool)
  | finish (eachLine : Bool)
  | seq (first second : Expr)
  | either (left right : Expr)
  | times (body : Expr) (least : Nat) (more : Option Nat) (lazy : Bool)
  deriving DecidableEq, Repr

namespace Expr

def char (c : Char) : Expr := .chars (.single c)

def sequence (es : List Expr) : Expr :=
  match es with
  | [] => .empty
  | [e] => e
  | e :: rest => .seq e (sequence rest)

def word (s : String) : Expr := sequence (s.toList.map char)

def any (set : CharSet) : Expr := .times (.chars set) 0 none false

-- No character before or after means an end of the text.
def acceptsEmpty (before after : Option Char) : Expr → Bool
  | .empty => true
  | .chars _ => false
  | .start eachLine => before = none || (eachLine && before = some '\n')
  | .finish eachLine => after = none || (eachLine && after = some '\n')
  | .seq first second => acceptsEmpty before after first && acceptsEmpty before after second
  | .either left right => acceptsEmpty before after left || acceptsEmpty before after right
  | .times body least _ _ => least = 0 || acceptsEmpty before after body

end Expr
end ChapterCheck
