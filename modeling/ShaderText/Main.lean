import ShaderText.CommandLine

/-! The program. What a command can see of the disk is read first, the command runs on that, and the
files it changed are written back.
-/
namespace ShaderText.Main

open CommandLine

/-- The code of the system for a folder that is read like a file. -/
def folderCode : UInt32 := 21

def nodeAt (path : String) : IO (Option Node) := do
  match ← (IO.FS.readBinFile path).toBaseIO with
  | .ok bytes =>
    match String.fromUTF8? bytes with
    | some content => return some (.text content)
    | none => return some .binary
  | .error (.inappropriateType _ code _) => return if code = folderCode then some .folder else none
  | .error _ => return none

def look (files : FileSystem) (path : Path) : IO FileSystem := do
  let mut files := files
  let mut place := files.home
  for step in path.steps do
    place := FileSystem.step place step
    match ← nodeAt (FileSystem.rootPath place) with
    | some node => files := files.put place node
    | none => pure ()
  return files

/-- Writes the changed files back; answers false if one of them cannot be written. -/
def save (before after : FileSystem) : IO Bool := do
  let mut isSaved := true
  for (place, content) in after.changesSince before do
    let path := FileSystem.rootPath place
    match ← (IO.FS.writeFile path content).toBaseIO with
    | .ok _ => pure ()
    | .error e =>
      IO.eprintln s!"io error writing {quoted path}: {e}"
      isSaved := false
  return isSaved

end ShaderText.Main

open ShaderText ShaderText.CommandLine ShaderText.Main in
def main (arguments : List String) : IO UInt32 := do
  let folder ← IO.currentDir
  let mut files : FileSystem := ⟨(ShaderText.Path.mk folder.toString).steps.foldl FileSystem.step [], []⟩
  match Invocation.read arguments with
  | .error _ => pure ()
  | .ok invocation =>
    for path in invocation.command.paths do
      files ← look files path
    for path in invocation.command.targets files do
      files ← look files path
  let outcome := run arguments files
  for message in outcome.log do
    IO.eprintln message.line
  if outcome.exitCode = 2 then IO.eprint usage
  IO.print outcome.printed
  let isSaved ← save files outcome.files
  return if isSaved then outcome.exitCode.toUInt32 else 1
