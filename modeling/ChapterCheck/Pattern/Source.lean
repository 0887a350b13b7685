import ChapterCheck.Pattern.Expr
import ChapterCheck.Pattern.Layout
import ChapterCheck.Pattern.Token

namespace ChapterCheck.Pattern

structure Flags where
  anyCase : Bool := false
  eachLine : Bool := false
  dotTakesAll : Bool := false
  deriving DecidableEq, Repr

def Flags.set (flags : Flags) : Char × Bool → Flags
  | ('i', on) => { flags with anyCase := on }
  | ('m', on) => { flags with eachLine := on }
  | ('s', on) => { flags with dotTakesAll := on }
  | _ => flags

def Flags.change (flags : Flags) (change : FlagChange) : Flags := change.foldl Flags.set flags

def Flags.members (flags : Flags) (set : CharSet) : CharSet :=
  if flags.anyCase then set.anyCase else set

structure Part where
  expr : Expr
  layout : Layout
  depth : Nat := 0

namespace Part

def deepest (parts : List Part) : Nat := parts.foldl (fun n p => max n p.depth) 0

def chars (set : CharSet) (depth : Nat) : Part := ⟨.chars set, .ofSet set, depth⟩

def members (flags : Flags) (ranges : List (Nat × Nat)) (negated : Bool) : Part :=
  .chars (flags.members ⟨ranges, negated⟩) (if ranges.length ≤ 1 then 1 else 2)

def inGroup (p : Part) (captures : Bool) : Part :=
  ⟨p.expr, if captures then .group p.layout else p.layout, p.depth + 1⟩

def repeated (p : Part) (least : Nat) (more : Option Nat) (lazy : Bool) : Part :=
  ⟨.times p.expr least more lazy, p.layout.repeated least more, p.depth + 1⟩

end Part

-- A flag setting is a part that takes no text, and nothing can be repeated right after it.
structure OpenGroup where
  flags : Flags
  captures : Bool := false
  alternatives : List Part := []
  parts : List (Option Part) := []

namespace OpenGroup

def push (g : OpenGroup) (p : Part) : OpenGroup := { g with parts := some p :: g.parts }

def alternative (g : OpenGroup) : Part :=
  let parts := g.parts.reverse.filterMap id
  let depth := Part.deepest parts
  ⟨.sequence (parts.map Part.expr), .sequence (parts.map Part.layout),
    if g.parts.length ≤ 1 then depth else depth + 1⟩

def nextAlternative (g : OpenGroup) : OpenGroup :=
  { g with alternatives := g.alternative :: g.alternatives, parts := [] }

def close (g : OpenGroup) : Part :=
  let last := g.alternative
  if g.alternatives.isEmpty then last
  else
    ⟨g.alternatives.foldl (fun e left => .either left.expr e) last.expr,
      .alternatives ((last :: g.alternatives).reverse.map Part.layout),
      Part.deepest (last :: g.alternatives) + 1⟩

def repeatLast (g : OpenGroup) (least : Nat) (more : Option Nat) (lazy : Bool) : Option OpenGroup :=
  match g.parts with
  | some p :: parts => some { g with parts := some (p.repeated least more lazy) :: parts }
  | _ => none

end OpenGroup

-- Flags set inside a group hold to its end, over all its later alternatives.
def nest (outer : List OpenGroup) (g : OpenGroup) : List Token → Except Fault Part
  | [] => if outer.isEmpty then .ok g.close else .error .unclosedGroup
  | .literal c :: rest => nest outer (g.push (.chars (g.flags.members (.single c)) 0)) rest
  | .dot :: rest =>
    let apart := if g.flags.dotTakesAll then [] else [CharSet.point '\n']
    nest outer (g.push (.chars ⟨apart, true⟩ 0)) rest
  | .members ranges negated :: rest => nest outer (g.push (.members g.flags ranges negated)) rest
  | .caret :: rest =>
    nest outer (g.push ⟨.start g.flags.eachLine, .edge true g.flags.eachLine, 0⟩) rest
  | .dollar :: rest =>
    nest outer (g.push ⟨.finish g.flags.eachLine, .edge false g.flags.eachLine, 0⟩) rest
  | .bar :: rest => nest outer g.nextAlternative rest
  | .opening captures change :: rest =>
    nest (g :: outer) { flags := g.flags.change change, captures := captures } rest
  | .setting change :: rest =>
    nest outer { g with flags := g.flags.change change, parts := none :: g.parts } rest
  | .closing :: rest =>
    match outer with
    | [] => .error .unopenedGroup
    | enclosing :: outer => nest outer (enclosing.push (g.close.inGroup g.captures)) rest
  | .repeated least more lazy :: rest =>
    match g.repeatLast least more lazy with
    | some g => nest outer g rest
    | none => .error .nothingToRepeat

def depthLimit : Nat := 250

def roomLimit : Nat := 10 * 1024 * 1024

def bounded (p : Part) : Except Fault Expr :=
  let room := p.layout.largest
  if p.depth > depthLimit then .error (.tooDeep p.depth)
  else if room > roomLimit then .error (.tooLarge room)
  else .ok p.expr

def parse (source : List Char) : Except Fault Expr :=
  match tokens source with
  | .ok ts => (nest [] { flags := {} } ts).bind bounded
  | .error fault => .error fault

end ChapterCheck.Pattern
