import ChapterCheck.Text.Utf8

namespace ChapterCheck.Text

-- What is told apart of a sequence is what decides where it ends.
inductive ControlSequence where
  | outside
  | escape
  | intermediate
  | parameters
  | command
  | device
  | string
  deriving DecidableEq, Repr

def within (first last c : Char) : Bool := first ≤ c && c ≤ last

def isLayout (c : Char) : Bool := c = '\t' || c = '\n' || c = '\x0c' || c = '\r'

def isVisible (c : Char) : Bool := isLayout c || (' ' ≤ c && c ≠ '\x7f')

-- The byte 9C ends a string, be it only a part of a character.
def holdsTerminator (c : Char) : Bool := '\x7f' < c && (encode [c]).contains 0x9c

namespace ControlSequence

def after (s : ControlSequence) (c : Char) : ControlSequence :=
  if c = '\x1b' then .escape
  else if c = '\x18' || c = '\x1a' then .outside
  else
    match s with
    | .outside => .outside
    | .escape =>
      if within ' ' '/' c then .intermediate
      else if c = '[' then .parameters
      else if c = ']' then .command
      else if c = 'P' then .device
      else if c = 'X' || c = '^' || c = '_' then .string
      else if within '0' '~' c then .outside
      else .escape
    | .intermediate => if within '0' '~' c then .outside else .intermediate
    | .parameters => if within '@' '~' c then .outside else .parameters
    | .command => if c = '\x07' then .outside else .command
    | .device => if within '@' '~' c then .string else .device
    | .string => if holdsTerminator c then .outside else .string

def isString : ControlSequence → Bool
  | .command | .device | .string => true
  | _ => false

end ControlSequence

-- A layout character inside a sequence other than a string suspends it: what follows is shown
-- until a character that is not visible takes the sequence up again.
def visibleFrom (s : ControlSequence) (suspended : Bool) : List Char → List Char
  | [] => []
  | c :: rest =>
    if (suspended || s = .outside) && isVisible c then
      c :: visibleFrom (if c ≤ '\x7f' then s else .outside) suspended rest
    else if isLayout c && !s.isString then c :: visibleFrom s true rest
    else visibleFrom (s.after c) false rest

def visible (s : String) : String := String.ofList (visibleFrom .outside false s.toList)

end ChapterCheck.Text
