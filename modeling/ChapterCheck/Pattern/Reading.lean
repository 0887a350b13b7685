import ChapterCheck.Pattern.Expr

namespace ChapterCheck

-- What no stretch stands in is idle and kept as it is, so that repetitions are written out only as
-- far as stretches have come. Those at one place go on alike: one mark serves all of them.
inductive Reading where
  | idle (e : Expr)
  | taken (set : CharSet)
  | seq (first second : Reading)
  | either (left right : Reading)
  | again (body : Reading)
  deriving DecidableEq, Repr

namespace Reading

def join : Reading → Reading → Reading
  | .idle first, .idle second => .idle (.seq first second)
  | first, second => .seq first second

def fork : Reading → Reading → Reading
  | .idle left, .idle right => .idle (.either left right)
  | left, right => .either left right

def loop : Reading → Reading
  | .idle body => .idle (.times body 1 none false)
  | body => .again body

def through (before after : Option Char) (entered : Bool) : Reading → Bool
  | .idle e => entered && e.acceptsEmpty before after
  | .taken _ => true
  | .seq first second => second.through before after (first.through before after entered)
  | .either left right => left.through before after entered || right.through before after entered
  | .again body => body.through before after entered

-- The halves of the halves keep every round near the top.
def firstBegun (body : Expr) (one : Reading) (n : Nat) : Reading :=
  if n ≤ 1 then one
  else .seq (firstBegun body one (n / 2)) (.idle (.times body (n - n / 2) (some 0) false))
termination_by n

def eachBegun (one : Reading) (n : Nat) : Reading :=
  if n ≤ 1 then one else .seq (eachBegun one (n / 2)) (eachBegun one (n - n / 2))
termination_by n

def roundsBegun (body : Expr) (one : Reading) (skippable : Bool) (n : Nat) : Reading :=
  if skippable then eachBegun one n else firstBegun body one n

def block : Nat := 64

def upToBegun (body : Expr) (one : Reading) (most : Nat) : Reading :=
  let within := .seq one (.idle (.times body 0 (some (min most block - 1)) false))
  if most ≤ block then within
  else
    .either within
      (.seq (firstBegun body one block) (.idle (.times body 0 (some (most - block)) false)))

-- A round that need not be is begun only as the first one: to begin it after empty rounds leaves
-- fewer to come and nothing new.
def timesBegun (body : Expr) (one : Reading) (skippable : Bool) : Nat → Option Nat → Reading
  | 0, none => .either (.idle .empty) (.again one)
  | 1, none => .again one
  | n + 2, none =>
    .seq (roundsBegun body one skippable (n + 1))
      (if skippable then .again one else .idle (.times body 1 none false))
  | 0, some 0 => .idle .empty
  | 0, some (extra + 1) => .either (.idle .empty) (upToBegun body one (extra + 1))
  | n + 1, some 0 => roundsBegun body one skippable (n + 1)
  | n + 1, some extra =>
    .seq (roundsBegun body one skippable (n + 1)) (.idle (.times body 0 (some extra) false))

-- Where no round can take c, neither can the repetition.
def enter (before : Option Char) (c : Char) : Expr → Reading
  | .empty => .idle .empty
  | .chars set => if set.contains c then .taken set else .idle (.chars set)
  | .start eachLine => .idle (.start eachLine)
  | .finish eachLine => .idle (.finish eachLine)
  | .seq first second =>
    join (enter before c first)
      (if first.acceptsEmpty before (some c) then enter before c second else .idle second)
  | .either left right => fork (enter before c left) (enter before c right)
  | .times body least more lazy =>
    match enter before c body with
    | .idle _ => .idle (.times body least more lazy)
    | one => timesBegun body one (body.acceptsEmpty before (some c)) least more

def read (before : Option Char) (c : Char) (entered : Bool) : Reading → Bool × Reading
  | .idle e =>
    if entered then (e.acceptsEmpty before (some c), enter before c e) else (false, .idle e)
  | .taken set => (true, if entered && set.contains c then .taken set else .idle (.chars set))
  | .seq first second =>
    let (passed, first) := first.read before c entered
    let (done, second) := second.read before c passed
    (done, join first second)
  | .either left right =>
    let (passed, left) := left.read before c entered
    let (alsoPassed, right) := right.read before c entered
    (passed || alsoPassed, fork left right)
  | .again body =>
    let passed := body.through before (some c) false
    let (done, body) := body.read before c (entered || passed)
    (done, loop body)

def occursFrom (r : Reading) (before : Option Char) : List Char → Bool
  | [] => r.through before none true
  | c :: rest =>
    let (done, next) := r.read before c true
    done || next.occursFrom (some c) rest

end Reading

def Expr.occursIn (e : Expr) (text : List Char) : Bool := (Reading.idle e).occursFrom none text

end ChapterCheck
