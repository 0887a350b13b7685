import ChapterCheck.CommandLine.Execution
import ChapterCheck.Snapshot

namespace ChapterCheck

def ioErrorOf (unsuitable : IoError) : IO.Error → IoError
  | .noFileOrDirectory .. => .noSuchFile
  | .permissionDenied .. => .permissionDenied
  | .inappropriateType .. => unsuitable
  | e => ⟨.uncategorized, toString e⟩

def asked (unsuitable : IoError) (action : IO α) : IO (Except IoError α) := do
  match ← action.toBaseIO with
  | .ok a => return .ok a
  | .error e => return .error (ioErrorOf unsuitable e)

def entriesOf (dir : Path) : IO (List Entry) := do
  let found ← ((← IO.currentDir) / dir.display).readDir
  found.toList.mapM fun e => do
    let kind ← match (← e.path.symlinkMetadata).type with
      | .dir => pure EntryKind.directory
      | .file => pure EntryKind.file
      | _ => pure EntryKind.other
    return ⟨dir.join (.ofString e.fileName), kind⟩

partial def listAll (dir : Path) : IO (List (Path × Except IoError (List Entry))) := do
  let answer ← asked .notADirectory (entriesOf dir)
  match answer with
  | .error _ => return [(dir, answer)]
  | .ok entries =>
    let inside ← (entries.filter (·.kind = .directory)).mapM fun e => listAll e.path
    return (dir, answer) :: inside.flatten

def snapshotFor (config : Config) : IO Snapshot := do
  let listed : Snapshot := { listings := ← listAll config.root }
  match listed.contents.documents config.root config.extension with
  | .error _ => return listed
  | .ok documents =>
    let files ← documents.mapM fun p => do
      let bytes ← asked .isADirectory (IO.FS.readBinFile p.display)
      return (p, bytes.map ByteArray.toList)
    return { listed with files := files }

def runHere (args : List String) : IO CommandLine.Execution := do
  let base := Path.ofString (← IO.currentDir).toString
  let snapshot ← match CommandLine.read args with
    | .check _ => snapshotFor (.forBase base)
    | _ => pure {}
  return .ofArguments snapshot.contents base args

end ChapterCheck

def main (args : List String) : IO UInt32 := do
  let run ← ChapterCheck.runHere args
  run.log.forM IO.eprintln
  (← IO.getStdout).write ⟨run.stdout.toArray⟩
  (← IO.getStderr).write ⟨run.stderr.toArray⟩
  return UInt32.ofNat run.exitCode
