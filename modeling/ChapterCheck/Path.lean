import ChapterCheck.Place
import ChapterCheck.Text.Utf8

namespace ChapterCheck

-- A path keeps the bytes it was given. A leading `.` is a component, any other `.` and every
-- repeated or trailing slash is not, and `..` stands for itself.
structure Path where
  bytes : List UInt8
  deriving DecidableEq, Repr

inductive Component where
  | root
  | here
  | parent
  | name (bytes : List UInt8)
  deriving DecidableEq, Repr

def Component.key : Component → List Nat
  | .root => [0]
  | .here => [1]
  | .parent => [2]
  | .name bytes => 3 :: bytes.map UInt8.toNat

namespace Path

def slash : UInt8 := 0x2f
def dot : UInt8 := 0x2e

def ofString (s : String) : Path := ⟨Text.encode s.toList⟩

def empty : Path := ⟨[]⟩

-- Parts that are empty or a single dot are idle.
def splitSlash : List UInt8 → List (List UInt8)
  | [] => [[]]
  | b :: rest =>
    if b = slash then [] :: splitSlash rest
    else
      match splitSlash rest with
      | [] => [[b]]
      | part :: parts => (b :: part) :: parts

def joinSlash (parts : List (List UInt8)) : List UInt8 := [slash].intercalate parts

def idle (part : List UInt8) : Bool := part = [] || part = [dot]

def head? (p : Path) : Option Component :=
  match p.bytes with
  | [] => none
  | b :: rest =>
    if b = slash then some .root
    else if b = dot ∧ (rest = [] ∨ rest.head? = some slash) then some .here
    else none

def parts (p : Path) : List (List UInt8) :=
  splitSlash (match p.head? with | some _ => p.bytes.drop 1 | none => p.bytes)

def componentOf (part : List UInt8) : Component := if part = [dot, dot] then .parent else .name part

def components (p : Path) : List Component :=
  p.head?.toList ++ ((p.parts.filter (!idle ·)).map componentOf)

def same (p q : Path) : Bool := p.components == q.components

def isAbsolute (p : Path) : Bool := p.bytes.head? = some slash

def withoutIdleEnd (parts : List (List UInt8)) : List (List UInt8) :=
  (parts.reverse.dropWhile idle).reverse

def ofParts (head : List UInt8) (parts : List (List UInt8)) : Path :=
  ⟨head ++ joinSlash (withoutIdleEnd parts)⟩

-- The spelling is kept; the root and the empty path have nothing above them.
def parent? (p : Path) : Option Path :=
  let rest := withoutIdleEnd p.parts
  match p.head?, rest with
  | none, [] => none
  | some .root, [] => none
  | some _, [] => some empty
  | some _, _ => some (ofParts (p.bytes.take 1) rest.dropLast)
  | none, _ => some (ofParts [] rest.dropLast)

def place (p : Path) : Place Component := .ofNames p.components

def above? (place : Place Component) : Option (Place Component) :=
  match place.names with
  | [] => none
  | [.root] => none
  | _ => some place.above

def ancestorsWithin : Nat → Path → List Path
  | 0, _ => []
  | n + 1, p =>
    match p.parent? with
    | none => []
    | some q => q :: ancestorsWithin n q

-- A path has at most one above it for each component.
def ancestors (p : Path) : List Path := ancestorsWithin p.components.length p

def fileName? (p : Path) : Option (List UInt8) :=
  match p.components.getLast? with
  | some (.name bytes) => some bytes
  | _ => none

def join (base p : Path) : Path :=
  if p.isAbsolute then p
  else if base.bytes = [] ∨ base.bytes.getLast? = some slash then ⟨base.bytes ++ p.bytes⟩
  else ⟨base.bytes ++ slash :: p.bytes⟩

def dropComponents : Nat → List (List UInt8) → List (List UInt8)
  | 0, parts => parts
  | _, [] => []
  | n + 1, part :: parts =>
    if idle part then dropComponents (n + 1) parts else dropComponents n parts

def relativeTo? (p base : Path) : Option Path :=
  let above := base.components
  if above.isPrefixOf p.components then
    if above.isEmpty then some (ofParts (p.bytes.take p.head?.toList.length) p.parts)
    else
      let left := dropComponents (above.length - p.head?.toList.length) p.parts
      some (ofParts [] (left.dropWhile idle))
  else none

def key (p : Path) : List (List Nat) := p.components.map Component.key

def before (p q : Path) : Bool := p.key.lex q.key fun a b => a.lex b Nat.blt

def notAfter (p q : Path) : Bool := !q.before p

def display (p : Path) : String := String.ofList (Text.decodeLossy p.bytes)

def text? (p : Path) : Option String := (Text.decode? p.bytes).map String.ofList

end Path
end ChapterCheck
