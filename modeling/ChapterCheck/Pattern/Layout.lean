import ChapterCheck.Pattern.CharSet
import ChapterCheck.Text.ByteRanges
import ChapterCheck.Text.Utf8

namespace ChapterCheck.Pattern

-- A pattern as it would be laid out in states that read bytes, forward for where an occurrence
-- ends and backward for where it begins. Only the room is told: nothing is built.
inductive Layout where
  | nothing
  | word (bytes : List UInt8)
  | set (intervals : List (Nat × Nat))
  | edge (atStart eachLine : Bool)
  | group (body : Layout)
  | times (body : Layout) (least : Nat) (more : Option Nat)
  | row (first rest : Layout)
  | words (choices : List (List UInt8))
  | choice (first rest : Layout)
  deriving DecidableEq, Repr

namespace Layout

def ofIntervals : List (Nat × Nat) → Layout
  | [(first, last)] =>
    if first = last then .word (Text.encode [Char.ofNat first]) else .set [(first, last)]
  | intervals => .set intervals

def ofSet (s : CharSet) : Layout := ofIntervals s.intervals

def isEdge : Layout → Bool
  | .nothing => true
  | .word _ => false
  | .set _ => false
  | .edge _ _ => true
  | .group body => isEdge body
  | .times body _ _ => isEdge body
  | .row first rest => isEdge first && isEdge rest
  | .words _ => false
  | .choice first rest => isEdge first && isEdge rest

def takesText : Layout → Bool
  | .nothing => false
  | .word _ => true
  | .set _ => true
  | .edge _ _ => false
  | .group body => takesText body
  | .times body least _ => 0 < least && takesText body
  | .row first rest => takesText first || takesText rest
  | .words _ => true
  | .choice first rest => takesText first && takesText rest

def parts : Layout → List Layout
  | .nothing => []
  | .row first rest => parts first ++ parts rest
  | layout => [layout]

def push : Layout → List Layout → List Layout
  | .word bytes, .word more :: rest => .word (bytes ++ more) :: rest
  | part, rest => part :: rest

def ofParts : List Layout → Layout
  | [] => .nothing
  | [part] => part
  | part :: rest => .row part (ofParts rest)

def sequence (layouts : List Layout) : Layout :=
  ofParts ((layouts.flatMap parts).foldr push [])

def branches : Layout → List Layout
  | .words choices => choices.map .word
  | .choice first rest => branches first ++ branches rest
  | layout => [layout]

def word? : Layout → Option (List UInt8)
  | .word bytes => some bytes
  | _ => none

def point? : Layout → Option (Nat × Nat)
  | .word bytes =>
    match Text.decode? bytes with
    | some [c] => some (CharSet.point c)
    | _ => none
  | _ => none

def intervals? : Layout → Option (List (Nat × Nat))
  | .set intervals => some intervals
  | _ => none

def ofBranches : List Layout → Layout
  | [] => .nothing
  | [branch] => branch
  | branch :: rest => .choice branch (ofBranches rest)

def choiceOf (found : List Layout) : Layout :=
  match found.mapM point?, found.mapM intervals?, found.mapM word? with
  | some points, _, _ => ofSet ⟨points, false⟩
  | _, some sets, _ => ofSet ⟨sets.flatten, false⟩
  | _, _, some choices => .words choices
  | _, _, _ => ofBranches found

def row? : Layout → Option (List Layout)
  | .row first rest => some (parts first ++ parts rest)
  | _ => none

def hasGroup : Layout → Bool
  | .group _ => true
  | .times body _ _ => hasGroup body
  | .row first rest => hasGroup first || hasGroup rest
  | .choice first rest => hasGroup first || hasGroup rest
  | _ => false

-- Two groups are never the same, even if they hold the same.
def shared : List Layout → List Layout → List Layout
  | a :: as, b :: bs => if a = b && !a.hasGroup then a :: shared as bs else []
  | _, _ => []

def alternatives (layouts : List Layout) : Layout :=
  let found := layouts.flatMap branches
  match found.mapM row? with
  | some (first :: rest) =>
    let head := rest.foldl shared first
    if head = [] then choiceOf found
    else
      let left := (first :: rest).map fun row => sequence (row.drop head.length)
      sequence (head ++ [choiceOf (left.flatMap branches)])
  | _ => choiceOf found

def repeated (body : Layout) (least : Nat) (more : Option Nat) : Layout :=
  let (least, more) :=
    if body.isEdge then (min least 1, some (min (more.getD 1) (1 - least))) else (least, more)
  match least, more with
  | 0, some 0 => .nothing
  | 1, some 0 => body
  | _, _ => .times body least more

def state : Nat := 32
def way : Nat := 4
def rangeWay : Nat := 8

def fan : List Text.ByteRow → List ((Nat × Nat) × List Text.ByteRow)
  | [] => []
  | [] :: rest => fan rest
  | (range :: left) :: rest =>
    match fan rest with
    | (next, rows) :: others =>
      if range = next then (range, left :: rows) :: others
      else (range, [left]) :: (next, rows) :: others
    | [] => [(range, [left])]

def remainders : Nat → List Text.ByteRow → List (List Text.ByteRow)
  | 0, _ => []
  | n + 1, rows =>
    if rows.all (· = []) then []
    else rows :: (fan rows).flatMap fun (_, left) => remainders n left

def sharedLength : Text.ByteRow → Text.ByteRow → Nat
  | a :: as, b :: bs => if a = b then sharedLength as bs + 1 else 0
  | _, _ => 0

def unsharedLength : List Text.ByteRow → Nat
  | [] => 0
  | [last] => last.length
  | a :: b :: rest => a.length - sharedLength a b + unsharedLength (b :: rest)

-- States are shared forward where the same is left to read, and backward where rows start alike.
def setRoom (backward : Bool) (intervals : List (Nat × Nat)) : Nat :=
  if intervals.all (·.2 < 0x80) then 2 * state + rangeWay * intervals.length
  else
    let rows := intervals.flatMap fun (first, last) => Text.byteRows first last
    if backward then 2 * state + way * rows.length + state * unsharedLength rows
    else
      let nodes := (remainders 4 rows).eraseDups
      nodes.foldl (fun room left => room + state + rangeWay * (fan left).length) state

def stages : List (List UInt8) → List (List (List UInt8))
  | [] => [[]]
  | [] :: rest => [] :: stages rest
  | w :: rest =>
    match stages rest with
    | [] => [[w]]
    | stage :: others => (w :: stage) :: others

def byFirst (stage : List (List UInt8)) : List (List (List UInt8)) :=
  (stage.filterMap List.head?).eraseDups.map fun b =>
    stage.filterMap fun w => if w.head? = some b then some w.tail else none

-- Of the empty words that nothing precedes only the first counts.
def wordsRoom : Nat → List (List UInt8) → Nat
  | 0, _ => 0
  | n + 1, ws =>
    let counted := if ws.head? = some [] then [] :: ws.dropWhile (· = []) else ws
    let found := stages counted
    let begun := found.filter (· ≠ [])
    let rooms := begun.map fun stage =>
      let ways := byFirst stage
      state + (if ways.length = 1 then 0 else rangeWay * ways.length) +
        (ways.map fun left => if left.all (· = []) then 0 else wordsRoom n left).sum
    state + way * (begun.length + (found.length - 1)) + rooms.sum

-- Groups are kept track of forward only.
def room (backward : Bool) : Layout → Nat
  | .nothing => state
  | .word bytes => state * bytes.length
  | .set intervals => setRoom backward intervals
  | .edge _ _ => state
  | .group body => room backward body + if backward then 0 else 2 * state
  | .times body 0 none =>
    room backward body + if takesText body then state + 2 * way else 3 * state + 4 * way
  | .times body least none => least * room backward body + state + 2 * way
  | .times body 0 (some 1) => room backward body + 2 * state + 2 * way
  | .times body least (some 0) => least * room backward body
  | .times body least (some extra) =>
    (if least = 0 then state else least * room backward body) + state +
      extra * (room backward body + state + 2 * way)
  | .row first rest => room backward first + room backward rest
  | .words choices =>
    let read := if backward then choices.map List.reverse else choices
    state + wordsRoom ((read.map List.length).foldl max 0) read
  | .choice first rest =>
    let last := match rest with | .choice _ _ => 0 | _ => 2 * state + way
    room backward first + way + room backward rest + last

def isAnchored (backward : Bool) : Layout → Bool
  | .edge atStart eachLine => atStart != backward && !eachLine
  | .group body => isAnchored backward body
  | .times body least _ => 0 < least && isAnchored backward body
  | .row first rest =>
    if backward then isAnchored true rest || (isEdge rest && isAnchored true first)
    else isAnchored false first || (isEdge first && isAnchored false rest)
  | .choice first rest => isAnchored backward first && isAnchored backward rest
  | _ => false

-- There is room to begin at any place, to keep track of the whole, and to end.
def wholeRoom (backward : Bool) (layout : Layout) : Nat :=
  (if layout.isAnchored backward then state else 3 * state + 2 * way + rangeWay) +
    (Layout.group layout).room backward + state

def largest (layout : Layout) : Nat := max (layout.wholeRoom false) (layout.wholeRoom true)

end Layout
end ChapterCheck.Pattern
