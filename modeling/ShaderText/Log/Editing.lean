import ShaderText.Log
import ShaderText.Shader.Edit

/-! What is logged while a shader is changed. Each function tells, from the block or shader before the
change, the messages of the change of the same name.
-/
namespace ShaderText

open Log

def quotedIndex : Option Nat → String
  | none => "None"
  | some index => s!"Some({index})"

def insertCodeLog (index? : Option Nat) (code : String) : Message :=
  ⟨.trace, .code, s!"Inserting {(unindent code).length} line(s) of shader code at {quotedIndex index?}"⟩

def Block.replaceIncludeLog (b : Block) (path : String) : List Message :=
  match b.includeIndex? path with
  | none => []
  | some index => [⟨.debug, .code, s!"Replaced include \"{path}\" at line {index}"⟩]

namespace SubShader

def insertCodeLog (s : SubShader) (index? : Option Nat) (code : String) : List Message :=
  s.passes.map fun _ => ShaderText.insertCodeLog index? code

def replaceIncludeLog (s : SubShader) (path : String) : List Message :=
  s.blocks.flatMap fun b => b.replaceIncludeLog path

end SubShader

namespace Shader

def insertCodeLog (s : Shader) (index? : Option Nat) (code : String) : List Message :=
  s.passes.map fun _ => ShaderText.insertCodeLog index? code

def replaceIncludeLog (s : Shader) (path : String) : List Message :=
  s.blocks.flatMap (fun b => b.replaceIncludeLog path) ++
    [⟨.debug, .tree, s!"Replaced include \"{path}\" in {s.countIncluding path} block(s)"⟩]

def substituteLog (s : Shader) (σ : Substitution) : List Message :=
  [⟨.debug, .tree, s!"Substituted {s.countReplaced σ} GUI variable reference(s)"⟩]

def removePassLog (s : Shader) (name : String) : List Message :=
  [⟨.debug, .tree, s!"Removed {s.countPasses name} pass(es) named '{name}'"⟩]

end Shader
end ShaderText
