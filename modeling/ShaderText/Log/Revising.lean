import ShaderText.Log.Reading
import ShaderText.Log.Editing
import ShaderText.Revision

/-! What is logged while a revision is applied. A step that finds nothing to do gives a warning if the
command line asked for it by name.
-/
namespace ShaderText

open Log

namespace Revision

def Step.log (read : Reader) (s : Shader) : Step → List Message
  | removePass name =>
    s.removePassLog name ++
      if s.countPasses name = 0 then
        [⟨.warn, .revision, s!"No pass named '{name}' in shader '{s.name}'"⟩]
      else []
  | strip part =>
    [⟨.debug, .revision, s!"Stripped {s.countLines part} line(s) containing '{part}'"⟩]
  | define _ _ | addTag _ _ => []
  | insertBefore rule =>
    match read rule.file with
    | .error _ => []
    | .ok content =>
      s.passes.map fun p =>
        match p.lineIndex? rule.test with
        | some index => insertCodeLog (some index) (trimBreaks content)
        | Option.none =>
          ⟨.debug, .revision, s!"No line matching '{rule.source}' in pass {quotedName p.name}"⟩
  | replaceInclude path file =>
    match read file with
    | .error _ => []
    | .ok _ =>
      s.replaceIncludeLog path ++
        if s.countIncluding path = 0 then
          [⟨.warn, .revision, s!"Include \"{path}\" not found in shader '{s.name}'"⟩]
        else []
  | substitute σ => s.substituteLog σ

def stepsLog (read : Reader) : List Step → Shader → List Message
  | [], _ => []
  | step :: rest, s =>
    step.log read s ++
      match step.apply read s with
      | .error _ => []
      | .ok s => stepsLog read rest s

def log (r : Revision) (read : Reader) (s : Shader) : List Message := stepsLog read r.steps s

end Revision
end ShaderText
