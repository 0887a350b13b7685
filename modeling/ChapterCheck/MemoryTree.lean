import ChapterCheck.ContentTree

namespace ChapterCheck

namespace MemoryTree

inductive Node where
  | directory
  | file (content : List UInt8)
  | unreadable
  | link
  deriving DecidableEq, Repr

def Node.kind : Node → EntryKind
  | .directory => .directory
  | .file _ => .file
  | .unreadable => .file
  | .link => .other

end MemoryTree

-- One node for each place, in the spelling the place was first given. Refusal to be listed stays
-- with the path even if a later node takes the directory's place.
structure MemoryTree where
  nodes : List (Place Component × Path × MemoryTree.Node) := []
  refusing : List Path := []
  deriving DecidableEq, Repr

namespace MemoryTree

def empty : MemoryTree := {}

def insertAt (place : Place Component) (p : Path) (node : Node) :
    List (Place Component × Path × Node) → List (Place Component × Path × Node)
  | [] => [(place, p, node)]
  | (held, q, old) :: rest =>
    if place == held then (held, q, node) :: rest
    else (held, q, old) :: insertAt place p node rest

def insert (p : Path) (node : Node) (nodes : List (Place Component × Path × Node)) :
    List (Place Component × Path × Node) :=
  insertAt p.place p node nodes

def find? (t : MemoryTree) (p : Path) : Option Node :=
  (t.nodes.lookup p.place).map Prod.snd

def childrenOf (t : MemoryTree) (dir : Path) : List (Path × Node) :=
  let sought := dir.place
  (t.nodes.filter fun (held, _) => Path.above? held == some sought).map Prod.snd

-- Every path above but the empty one becomes a directory, whatever was there before.
def put (t : MemoryTree) (p : Path) (node : Node) : MemoryTree :=
  let above := p.ancestors.takeWhile fun q => q.bytes != []
  let nodes := above.foldl (fun nodes q => insert q .directory nodes) t.nodes
  { t with nodes := insert p node nodes }

inductive Step where
  | directory (path : Path)
  | file (path : Path) (content : List UInt8)
  | unreadable (path : Path)
  | link (path : Path)
  | unlistable (path : Path)
  deriving DecidableEq, Repr

def apply (t : MemoryTree) : Step → MemoryTree
  | .directory p => t.put p .directory
  | .file p content => t.put p (.file content)
  | .unreadable p => t.put p .unreadable
  | .link p => t.put p .link
  | .unlistable p => { t.put p .directory with refusing := t.refusing ++ [p] }

def build (steps : List Step) : MemoryTree := steps.foldl apply empty

def denied : IoError := ⟨.permissionDenied, "denied"⟩

def list (t : MemoryTree) (dir : Path) : Except IoError (List Entry) :=
  if t.refusing.any (·.same dir) then .error denied
  else
    match t.find? dir with
    | some .directory =>
      .ok ((t.childrenOf dir).map fun (p, node) => ⟨p, node.kind⟩)
    | some _ => .error ⟨.other, "not a directory"⟩
    | none => .error (.ofKind .notFound)

def read (t : MemoryTree) (p : Path) : Except IoError (List UInt8) :=
  match t.find? p with
  | some (.file content) => .ok content
  | some .unreadable => .error denied
  | some _ => .error ⟨.other, "not a file"⟩
  | none => .error (.ofKind .notFound)

def contents (t : MemoryTree) : ContentTree := ⟨t.list, t.read⟩

end MemoryTree
end ChapterCheck
