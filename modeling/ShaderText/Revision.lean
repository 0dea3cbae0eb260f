import ShaderText.Source
import ShaderText.Shader.Layout

/-! A revision is a list of changes that is applied to a shader in a fixed order: passes are removed,
program lines are dropped, definitions, code and included files are put in, tags are added and
references are replaced. Only a file that cannot be read stops it, and the steps before that stay
done. Main statement: applying steps one after another is applying the joined list of steps.
-/
namespace ShaderText

/-- Code from a file goes before the first line that a pattern is found in. -/
structure InsertionRule where
  /-- The text of the pattern. -/
  source : String
  /-- Whether the pattern is found in a line. -/
  test : String → Bool
  file : Path

structure Revision where
  removePasses : List String
  strip : List String
  /-- Lines for the top of every pass program. -/
  defines : List String
  insertBefore : List InsertionRule
  /-- Included paths, and the files that replace them. -/
  includes : List (String × Path)
  /-- Tags for every sub-shader. -/
  tags : List (String × String)
  /-- Names, and the texts that replace the references to them. -/
  bindings : List (String × String)
  /-- Whether the shader is written with its header line. -/
  withName : Bool

namespace Revision

def none : Revision := ⟨[], [], [], [], [], [], [], true⟩

inductive Step
  | removePass (name : String)
  | strip (part : String)
  | define (index : Nat) (line : String)
  | insertBefore (rule : InsertionRule)
  | replaceInclude (path : String) (file : Path)
  | addTag (key value : String)
  | substitute (σ : Substitution)

namespace Step

def apply (read : Reader) (s : Shader) : Step → Except SourceError Shader
  | removePass name => .ok (s.removePass name)
  | strip part => .ok (s.removeLines part)
  | define index line => .ok (s.insertLine (some index) line)
  | insertBefore rule => do
    let content ← read rule.file
    .ok (s.insertBefore rule.test (trimBreaks content))
  | replaceInclude path file => do
    let content ← read file
    .ok (s.replaceInclude path (trimBreaks content))
  | addTag key value => .ok (s.addTag key value)
  | substitute σ => .ok (s.substitute σ)

end Step

def steps (r : Revision) : List Step :=
  r.removePasses.map .removePass ++ r.strip.map .strip ++
    r.defines.mapIdx .define ++ r.insertBefore.map .insertBefore ++
    r.includes.map (fun (path, file) => .replaceInclude path file) ++
    r.tags.map (fun (key, value) => .addTag key value) ++
    if r.bindings.isEmpty then [] else [.substitute (.ofPairs r.bindings)]

/-- Applies steps up to the first that fails: the shader as they leave it, and the failure. -/
def applySteps (read : Reader) : List Step → Shader → Shader × Option SourceError
  | [], s => (s, Option.none)
  | step :: rest, s =>
    match step.apply read s with
    | .error e => (s, some e)
    | .ok s => applySteps read rest s

/-- The shader as the revision leaves it, and the error that stopped the revision early. -/
def apply (r : Revision) (read : Reader) (s : Shader) : Shader × Option SourceError :=
  applySteps read r.steps s

def render (r : Revision) (s : Shader) : String := s.renderWith r.withName

theorem applySteps_append (read : Reader) (first second : List Step) (s : Shader) :
    applySteps read (first ++ second) s =
      match applySteps read first s with
      | (s, some e) => (s, some e)
      | (s, Option.none) => applySteps read second s := by
  induction first generalizing s with
  | nil => rfl
  | cons step rest ih =>
    simp only [List.cons_append, applySteps]
    cases step.apply read s with
    | error e => rfl
    | ok s => exact ih s

end Revision
end ShaderText
