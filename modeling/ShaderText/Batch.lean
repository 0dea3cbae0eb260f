import ShaderText.Revision.Arguments

/-! A batch revises several shaders. One shader without an output path goes to the standard output;
otherwise each result goes into a file. Every shader is a task of its own: a failed task is counted
and the others still run. Main statement: a task that fails before it writes changes no file.
-/
namespace ShaderText

inductive Output
  | standard
  | file (path : Path)
deriving Repr, DecidableEq

namespace Output

def suffix : List Char := ".out.shader".toList

def beside (input : Path) : Path :=
  input.withFileName (Path.stemOf (input.fileName?.getD []) ++ suffix)

/-- The output for an input. A folder takes a file that is named like the input; without an output
path, one input goes to the standard output and several go next to themselves. -/
def choose (files : FileSystem) (input : Path) (output? : Option Path) (isSingle : Bool) : Output :=
  match output?, input.fileName? with
  | none, _ => if isSingle then standard else file (beside input)
  | some path, some name => file (if files.isFolder path then path.child name else path)
  | some path, none => file path

end Output

inductive RunError
  | write (path : Path) (cause : SystemError)
  | load (error : LoadError)
  | source (error : SourceError)
  | argument (error : ArgumentError)
  | failed (count : Nat)
deriving Repr, DecidableEq

def RunError.message : RunError → String
  | write path cause => s!"io error writing {path.display}: {cause.message}"
  | load error => error.message
  | source error => s!"source error: {error.message}"
  | argument error => error.message
  | failed count => s!"{count} shader(s) could not be processed"

/-- One shader of a batch, and where its result goes. -/
structure Task where
  input : Path
  output : Output
deriving Repr, DecidableEq

/-- What tasks change: the files, and what has been printed. -/
structure Desk where
  files : FileSystem
  printed : String
deriving Repr

namespace Task

def revise (revision : Revision) (files : FileSystem) (t : Task) : Except RunError Shader :=
  match Shader.load files.reader t.input with
  | .error e => .error (.load e)
  | .ok s =>
    match revision.apply files.reader s with
    | (s, none) => .ok s
    | (_, some e) => .error (.source e)

/-- Runs a task: the desk after it, and the error if it failed. -/
def run (revision : Revision) (desk : Desk) (t : Task) : Desk × Option RunError :=
  match t.revise revision desk.files with
  | .error e => (desk, some e)
  | .ok s =>
    match t.output with
    | .standard => ({ desk with printed := desk.printed ++ revision.render s }, none)
    | .file path =>
      match desk.files.write path (revision.render s) with
      | .error cause => (desk, some (.write path cause))
      | .ok files => ({ desk with files }, none)

/-- Runs tasks in turn: the desk after them, and the errors of those that failed. -/
def runAll (revision : Revision) : List Task → Desk → Desk × List RunError
  | [], desk => (desk, [])
  | t :: rest, desk =>
    let (desk, error?) := t.run revision desk
    let (desk, errors) := runAll revision rest desk
    (desk, error?.toList ++ errors)

theorem run_eq_of_revise_error {revision : Revision} {desk : Desk} {t : Task} {e : RunError}
    (h : t.revise revision desk.files = .error e) : t.run revision desk = (desk, some e) := by
  simp [run, h]

end Task

structure Batch where
  /-- How many tasks may run at a time. The outcome does not depend on it. -/
  threads : Nat
  /-- The output path that was given. -/
  output? : Option Path
  shaders : List Path
  revision : Revision

namespace Batch

/-- What keeps a batch from starting. -/
def refusal? (files : FileSystem) (b : Batch) : Option ArgumentError :=
  match b.shaders, b.output? with
  | [], _ => some ⟨"", .noInput⟩
  | _ :: _ :: _, some path => if files.isFolder path then none else some ⟨path.text, .notFolder⟩
  | _, _ => none

def tasks (files : FileSystem) (b : Batch) : List Task :=
  b.shaders.map fun input => ⟨input, .choose files input b.output? (b.shaders.length == 1)⟩

/-- Runs a batch: the desk after it, and the error if it did not start or a task failed. -/
def run (b : Batch) (files : FileSystem) : Desk × Option RunError :=
  match b.refusal? files with
  | some e => (⟨files, ""⟩, some (.argument e))
  | none =>
    match Task.runAll b.revision (b.tasks files) ⟨files, ""⟩ with
    | (desk, []) => (desk, none)
    | (desk, errors) => (desk, some (.failed errors.length))

end Batch
end ShaderText
