import ChapterCheck.ContentTree

namespace ChapterCheck

namespace Disk

inductive Node where
  | directory
  | file (content : List UInt8)
  | link (target : Path)
  | socket
  deriving DecidableEq, Repr

def Node.kind : Node → EntryKind
  | .directory => .directory
  | .file _ => .file
  | .link _ => .other
  | .socket => .other

-- No link is among the names of a place.
abbrev Name := List UInt8

end Disk

structure Disk where
  nodes : List (Place Disk.Name × Disk.Node) := []
  deriving DecidableEq, Repr

namespace Disk

def empty : Disk := {}

def node? (d : Disk) (place : Place Name) : Option Node :=
  if place = .top then some .directory
  else d.nodes.lookup place

def set (d : Disk) (place : Place Name) (node : Node) : Disk :=
  ⟨(place, node) :: d.nodes.filter fun (q, _) => q != place⟩

def erase (d : Disk) (place : Place Name) : Disk :=
  ⟨d.nodes.filter fun (q, _) => !place.names.isSuffixOf q.names⟩

def upward : List UInt8 := [Path.dot, Path.dot]

def nameLimit : Nat := 255
def pathLimit : Nat := 4095

-- Every part, idle ones too, asks for a directory to stand in. Nothing is known of what lies
-- outside the top directory, so no path leads there.
def follow (d : Disk) (links : Nat) (place : Place Name) (parts : List (List UInt8)) :
    Except IoError (Place Name) :=
  match parts with
  | [] => .ok place
  | part :: rest =>
    if d.node? place ≠ some .directory then .error .notADirectory
    else if Path.idle part then d.follow links place rest
    else if part = upward then
      if place = .top then .error .noSuchFile else d.follow links place.above rest
    else
      match d.node? (place.below part) with
      | none => .error (if nameLimit < part.length then .nameTooLong else .noSuchFile)
      | some (.link target) =>
        match links with
        | 0 => .error .tooManyLinks
        | fewer + 1 =>
          if target.isAbsolute then .error .noSuchFile
          else d.follow fewer place (Path.splitSlash target.bytes ++ rest)
      | some _ => d.follow links (place.below part) rest
termination_by (links, parts.length)

def linkLimit : Nat := 40

def below? (home p : Path) : Option (List UInt8) :=
  if p.bytes = [] then none
  else if home.bytes = [] then if p.isAbsolute then none else some p.bytes
  else if home.bytes.isPrefixOf p.bytes then
    let rest := p.bytes.drop home.bytes.length
    if rest = [] ∨ rest.head? = some Path.slash then some rest else none
  else none

def locate (d : Disk) (home p : Path) : Except IoError (Place Name × Node) :=
  if p.bytes.contains 0 then .error .nulInPath
  else if pathLimit < p.bytes.length then .error .nameTooLong
  else
    match below? home p with
    | none => .error .noSuchFile
    | some bytes =>
      match d.follow linkLimit .top (Path.splitSlash bytes) with
      | .error e => .error e
      | .ok place =>
        match d.node? place with
        | some node => .ok (place, node)
        | none => .error .noSuchFile

def entriesAt (d : Disk) (place : Place Name) (dir : Path) : List Entry :=
  d.nodes.filterMap fun (q, node) =>
    match q.names with
    | name :: _ => if q.above == place then some ⟨dir.join ⟨name⟩, node.kind⟩ else none
    | [] => none

def list (d : Disk) (home dir : Path) : Except IoError (List Entry) :=
  match d.locate home dir with
  | .error e => .error e
  | .ok (place, .directory) => .ok (d.entriesAt place dir)
  | .ok _ => .error .notADirectory

def read (d : Disk) (home p : Path) : Except IoError (List UInt8) :=
  match d.locate home p with
  | .error e => .error e
  | .ok (_, .file content) => .ok content
  | .ok (_, .directory) => .error .isADirectory
  | .ok _ => .error .noSuchDevice

def contents (d : Disk) (home : Path) : ContentTree := ⟨d.list home, d.read home⟩

inductive Step where
  | file (path : Path) (content : List UInt8)
  | directory (path : Path)
  | link (path target : Path)
  | socket (path : Path)
  | remove (path : Path)
  deriving DecidableEq, Repr

def makeDirectories (d : Disk) (place : Place Name) :
    List (List UInt8) → Except IoError (Disk × Place Name)
  | [] => .ok (d, place)
  | part :: rest =>
    if Path.idle part then d.makeDirectories place rest
    else if part ≠ upward ∧ d.node? (place.below part) = none then
      (d.set (place.below part) .directory).makeDirectories (place.below part) rest
    else
      match d.follow linkLimit place [part] with
      | .error e => .error e
      | .ok next =>
        if d.node? next = some .directory then d.makeDirectories next rest
        else .error .notADirectory

-- Writing goes through links, to a file that may not be there yet.
def write (d : Disk) (content : List UInt8) : Nat → Place Name → Name → Except IoError Disk
  | links, place, name =>
    match d.node? (place.below name) with
    | none => .ok (d.set (place.below name) (.file content))
    | some (.file _) => .ok (d.set (place.below name) (.file content))
    | some .directory => .error .isADirectory
    | some .socket => .error .noSuchDevice
    | some (.link target) =>
      match links with
      | 0 => .error .tooManyLinks
      | fewer + 1 =>
        match target.parent?, target.fileName? with
        | some above, some last =>
          match d.follow fewer place (Path.splitSlash above.bytes) with
          | .ok next => d.write content fewer next last
          | .error e => .error e
        | _, _ => .error .isADirectory

def prepare (d : Disk) (p : Path) : Except IoError (Disk × Place Name × Name) :=
  match p.parent?, p.fileName? with
  | some above, some name => do
    let (d, place) ← d.makeDirectories .top (Path.splitSlash above.bytes)
    return (d, place, name)
  | _, _ => .error .fileExists

def addNew (d : Disk) (p : Path) (node : Node) : Except IoError Disk := do
  let (d, place, name) ← d.prepare p
  if (d.node? (place.below name)).isSome then .error .fileExists
  else return d.set (place.below name) node

def remove (d : Disk) (p : Path) : Except IoError Disk :=
  match p.parent?, p.fileName? with
  | some above, some name => do
    let place ← d.follow linkLimit .top (Path.splitSlash above.bytes)
    if (d.node? (place.below name)).isSome then return d.erase (place.below name)
    else .error .noSuchFile
  | _, _ => .error .noSuchFile

def apply (d : Disk) : Step → Except IoError Disk
  | .file p content => do
    let (d, place, name) ← d.prepare p
    d.write content linkLimit place name
  | .directory p => return (← d.makeDirectories .top (Path.splitSlash p.bytes)).1
  | .link p target => d.addNew p (.link target)
  | .socket p => d.addNew p .socket
  | .remove p => d.remove p

end Disk
end ChapterCheck
