import ShaderText.Shader
import ShaderText.Page

/-! The layout of a shader: tags on one line, render states and stencil fields one on each line in
their fixed order, programs between sentinel lines, and child blocks one level deeper. A program is
written with the sentinel of its block, whatever sentinel it was read with.
-/
namespace ShaderText

/-- A value between quotes. It is written as it is. -/
def inQuotes (value : String) : String := "\"" ++ value ++ "\""

def Tags.line (t : Tags) : String :=
  let pairs := t.toList.map fun (key, value) => inQuotes key ++ " = " ++ inQuotes value ++ " "
  Keyword.tags.word ++ " \x7b " ++ String.join pairs ++ "\x7d"

def Settings.lines {κ : Type} [WordFamily κ] (s : Settings κ) : List String :=
  s.entries.map fun (key, value) => WordFamily.word key ++ " " ++ value

namespace Block

def write (b : Block) (sentinel : Sentinel) (p : Page) : Page :=
  let p := if b.tags.isEmpty then p else p.line b.tags.line
  let p := p.lines b.states.lines
  let p :=
    if b.stencil.isEmpty then p
    else ((p.openBlock Keyword.stencil.word).lines b.stencil.lines).closeBlock
  match b.program with
  | none => p
  | some lines => ((p.line sentinel.word).lines lines).line sentinel.closing

end Block

/-- A pass holds a program of its own. -/
def Pass.sentinel : Sentinel := .hlslProgram

/-- A block around passes holds what their programs include. -/
def Shader.sentinel : Sentinel := .hlslInclude

def Pass.write (pass : Pass) (p : Page) : Page :=
  let p := p.openBlock Keyword.pass.word
  let p :=
    match pass.name with
    | none => p
    | some name => p.line (Keyword.name.word ++ " " ++ inQuotes name)
  (pass.toBlock.write Pass.sentinel p).closeBlock

def SubShader.write (s : SubShader) (p : Page) : Page :=
  let p := s.toBlock.write Shader.sentinel (p.openBlock Keyword.subShader.word)
  (s.passes.foldl (fun p pass => pass.write p) p).closeBlock

/-- Writes a shader. Without its name it has no header line, only the block. -/
def Shader.write (s : Shader) (withName : Bool) (p : Page) : Page :=
  let p := if withName then p.line (Keyword.shader.word ++ " " ++ inQuotes s.name) else p
  let p := s.toBlock.write Shader.sentinel (p.line "\x7b").indent
  (s.subShaders.foldl (fun p sub => sub.write p) p).closeBlock

def Pass.render (pass : Pass) : String := (pass.write .blank).text

def SubShader.render (s : SubShader) : String := (s.write .blank).text

def Shader.renderWith (s : Shader) (withName : Bool) : String := (s.write withName .blank).text

def Shader.render (s : Shader) : String := s.renderWith true

end ShaderText
