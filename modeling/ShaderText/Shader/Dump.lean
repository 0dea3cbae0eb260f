import ShaderText.Shader
import ShaderText.Json

/-! A shader as JSON. Every block is an object with its tags, render states, stencil fields and
program; a pass then has its name, a sub-shader its passes, and a shader its name and sub-shaders.
-/
namespace ShaderText

def Settings.toJson {κ : Type} [WordFamily κ] (s : Settings κ) : Json :=
  .object (s.entries.map fun (key, value) => (WordFamily.word key, .string value))

def Tags.toJson (t : Tags) : Json := .object (t.toList.map fun (key, value) => (key, .string value))

/-- The lines of a program; no program is not the same as one without lines. -/
def programToJson : Option (List String) → Json
  | none => .null
  | some lines => .array (lines.map .string)

def Block.members (b : Block) : List (String × Json) :=
  [("tags", b.tags.toJson), ("parameters", b.states.toJson), ("stencil", b.stencil.toJson),
    ("program", programToJson b.program)]

def Pass.toJson (p : Pass) : Json :=
  .object (p.toBlock.members ++ [("name", match p.name with | none => .null | some name => .string name)])

def SubShader.toJson (s : SubShader) : Json :=
  .object (s.toBlock.members ++ [("passes", .array (s.passes.map Pass.toJson))])

def Shader.toJson (s : Shader) : Json :=
  .object (s.toBlock.members ++
    [("name", .string s.name), ("sub_shaders", .array (s.subShaders.map SubShader.toJson))])

def Shader.dump (s : Shader) (pretty : Bool) : String :=
  String.ofList (if pretty then s.toJson.pretty else s.toJson.compact)

end ShaderText
