import ShaderText.Log.Revising
import ShaderText.Batch

/-! What is logged while a batch runs: each shader as it is handed out, what its task logs, and at the
end the errors of the tasks that failed.
-/
namespace ShaderText

open Log

namespace Task

def log (revision : Revision) (desk : Desk) (t : Task) : List Message :=
  let read := desk.files.reader
  Shader.loadLog read t.input ++
    match Shader.load read t.input with
    | .error _ => []
    | .ok s =>
      revision.log read s ++
        match t.output, (t.run revision desk).2 with
        | .file path, none =>
          [⟨.info, .revision, s!"Wrote shader '{(revision.apply read s).1.name}' to {path.display}"⟩]
        | _, _ => []

def logAll (revision : Revision) : List Task → Desk → List Message
  | [], _ => []
  | t :: rest, desk =>
    ⟨.debug, .revision, s!"Dispatch shader {t.input.display}"⟩ :: t.log revision desk ++
      logAll revision rest (t.run revision desk).1

end Task

def Batch.log (b : Batch) (files : FileSystem) : List Message :=
  match b.refusal? files with
  | some _ => []
  | none =>
    let tasks := b.tasks files
    ⟨.info, .revision, s!"Initialized thread pool with {max b.threads 1} max thread(s)"⟩ ::
      Task.logAll b.revision tasks ⟨files, ""⟩ ++
      (Task.runAll b.revision tasks ⟨files, ""⟩).2.map fun e => ⟨.error, .revision, e.message⟩

end ShaderText
