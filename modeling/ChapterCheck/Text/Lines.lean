namespace ChapterCheck.Text

-- The unfinished line is held reversed, so the CR that goes with an LF is its head.
def withoutReturn : List Char → List Char
  | '\r' :: line => line
  | line => line

def linesFrom (pending : List Char) : List Char → List (List Char)
  | [] => if pending.isEmpty then [] else [pending.reverse]
  | c :: rest =>
    if c = '\n' then (withoutReturn pending).reverse :: linesFrom [] rest
    else linesFrom (c :: pending) rest

def lines (s : List Char) : List (List Char) := linesFrom [] s

def joinLines (ls : List (List Char)) : List Char := ['\n'].intercalate ls

end ChapterCheck.Text
