namespace ChapterCheck

inductive IoErrorKind where
  | notFound
  | permissionDenied
  | alreadyExists
  | notADirectory
  | isADirectory
  | filesystemLoop
  | invalidFilename
  | invalidInput
  | other
  | uncategorized
  deriving DecidableEq, Repr

structure IoError where
  kind : IoErrorKind
  message : String
  deriving DecidableEq, Repr

def IoErrorKind.description : IoErrorKind → String
  | .notFound => "entity not found"
  | .permissionDenied => "permission denied"
  | .alreadyExists => "entity already exists"
  | .notADirectory => "not a directory"
  | .isADirectory => "is a directory"
  | .filesystemLoop => "filesystem loop or indirection limit (e.g. symlink loop)"
  | .invalidFilename => "invalid filename"
  | .invalidInput => "invalid input parameter"
  | .other => "other error"
  | .uncategorized => "uncategorized error"

namespace IoError

def ofKind (kind : IoErrorKind) : IoError := ⟨kind, kind.description⟩

def system (kind : IoErrorKind) (text : String) (code : Nat) : IoError :=
  ⟨kind, text ++ " (os error " ++ toString code ++ ")"⟩

def noSuchFile : IoError := system .notFound "No such file or directory" 2
def noSuchDevice : IoError := system .uncategorized "No such device or address" 6
def permissionDenied : IoError := system .permissionDenied "Permission denied" 13
def fileExists : IoError := system .alreadyExists "File exists" 17
def notADirectory : IoError := system .notADirectory "Not a directory" 20
def isADirectory : IoError := system .isADirectory "Is a directory" 21
def nameTooLong : IoError := system .invalidFilename "File name too long" 36
def tooManyLinks : IoError := system .filesystemLoop "Too many levels of symbolic links" 40

def nulInPath : IoError := ⟨.invalidInput, "file name contained an unexpected NUL byte"⟩

end IoError
end ChapterCheck
