import ShaderText.Tags
import ShaderText.Settings

/-! The tree of a shader document. A shader holds sub-shaders and a sub-shader holds passes; each of
the three is a block with tags, render states, stencil fields and the lines of an embedded program.
-/
namespace ShaderText

/-- What every kind of block holds. -/
structure Block where
  tags : Tags
  states : Settings RenderState
  stencil : Settings StencilField
  program : Option (List String)
deriving DecidableEq

def Block.empty : Block := ⟨.empty, .empty, .empty, none⟩

structure Pass extends Block where
  name : Option String
deriving DecidableEq

structure SubShader extends Block where
  passes : List Pass
deriving DecidableEq

structure Shader extends Block where
  name : String
  subShaders : List SubShader
deriving DecidableEq

def Pass.named (name : Option String) : Pass := { Block.empty with name }

def SubShader.empty : SubShader := { Block.empty with passes := [] }

def Shader.named (name : String) : Shader := { Block.empty with name, subShaders := [] }

def Shader.passes (s : Shader) : List Pass := s.subShaders.flatMap SubShader.passes

def SubShader.blocks (s : SubShader) : List Block := s.toBlock :: s.passes.map Pass.toBlock

def Shader.blocks (s : Shader) : List Block := s.toBlock :: s.subShaders.flatMap SubShader.blocks

end ShaderText
