import ShaderText.Shader
import ShaderText.Reference
import ShaderText.Code

/-! Changes of a shader: to the lines of a program, to the values of a block, and to all passes or all
blocks at once. A change that can find nothing to do leaves the shader as it is; how much it finds is
counted by a function of its own. Main statements: what a removal
counts is what it takes away, and an include that is not there leaves the block as it is.
-/
namespace ShaderText

namespace Block

/-- The lines of the program; a block without a program has none. -/
def lines (b : Block) : List String := b.program.getD []

/-- Inserts lines into the program, before the line of the index if there is one and else at the end.
A block without a program gets one. -/
def insertLines (b : Block) (index? : Option Nat) (lines : List String) : Block :=
  let index := (index?.getD b.lines.length).min b.lines.length
  { b with program := some (b.lines.take index ++ lines ++ b.lines.drop index) }

def insertLine (b : Block) (index? : Option Nat) (line : String) : Block := b.insertLines index? [line]

def insertCode (b : Block) (index? : Option Nat) (code : String) : Block :=
  b.insertLines index? (unindent code)

def countLines (b : Block) (part : String) : Nat := b.lines.countP fun line => holds part.toList line.toList

def removeLines (b : Block) (part : String) : Block :=
  { b with program := b.program.map fun lines => lines.filter fun line => !holds part.toList line.toList }

def lineIndex? (b : Block) (test : String → Bool) : Option Nat := b.program.bind fun lines => lines.findIdx? test

def includeIndex? (b : Block) (path : String) : Option Nat := b.lineIndex? fun line => isInclude line path

def includes (b : Block) (path : String) : Bool := (b.includeIndex? path).isSome

/-- Puts code in the place of the first program line that includes `path`. -/
def replaceInclude (b : Block) (path content : String) : Block :=
  match b.includeIndex? path with
  | none => b
  | some index =>
    { b with program := some (b.lines.take index ++ unindent content ++ b.lines.drop (index + 1)) }

def insertBefore (b : Block) (test : String → Bool) (code : String) : Block :=
  match b.lineIndex? test with
  | none => b
  | some index => b.insertCode (some index) code

def values (b : Block) : List String :=
  b.states.entries.map Prod.snd ++ b.stencil.entries.map Prod.snd ++ b.tags.toList.map Prod.snd

def countReplaced (b : Block) (σ : Substitution) : Nat := σ.count b.values

def substitute (b : Block) (σ : Substitution) : Block :=
  { b with
    states := b.states.mapValues σ.apply
    stencil := b.stencil.mapValues σ.apply
    tags := b.tags.mapValues σ.apply }

def addTag (b : Block) (key value : String) : Block := { b with tags := b.tags.insert key value }

theorem length_lines_removeLines (b : Block) (part : String) :
    (b.removeLines part).lines.length + b.countLines part = b.lines.length := by
  cases h : b.program with
  | none => simp [removeLines, countLines, lines, h]
  | some lines =>
    simp only [removeLines, countLines, Block.lines, h, Option.map_some, Option.getD_some,
      ← List.countP_eq_length_filter]
    have := List.length_eq_countP_add_countP (fun line : String => holds part.toList line.toList) (l := lines)
    simp only [Bool.not_eq_true, Bool.decide_eq_false] at this
    omega

theorem replaceInclude_eq_self {b : Block} {path : String} (content : String) (h : b.includes path = false) :
    b.replaceInclude path content = b := by
  unfold includes at h
  unfold replaceInclude
  cases found : b.includeIndex? path with
  | none => rfl
  | some index => simp [found] at h

end Block

namespace Pass

def mapBlock (f : Block → Block) (p : Pass) : Pass := { p with toBlock := f p.toBlock }

end Pass

namespace SubShader

def mapBlock (f : Block → Block) (s : SubShader) : SubShader := { s with toBlock := f s.toBlock }

def mapPasses (f : Block → Block) (s : SubShader) : SubShader :=
  { s with passes := s.passes.map (Pass.mapBlock f) }

def mapBlocks (f : Block → Block) (s : SubShader) : SubShader := (s.mapBlock f).mapPasses f

def countPasses (s : SubShader) (name : String) : Nat := s.passes.countP fun p => p.name == some name

/-- Removes the passes with the name. A pass without a name stays. -/
def removePass (s : SubShader) (name : String) : SubShader :=
  { s with passes := s.passes.filter fun p => p.name != some name }

theorem length_passes_removePass (s : SubShader) (name : String) :
    (s.removePass name).passes.length + s.countPasses name = s.passes.length := by
  simp only [removePass, countPasses, ← List.countP_eq_length_filter]
  have := List.length_eq_countP_add_countP (fun p : Pass => p.name == some name) (l := s.passes)
  simp only [Bool.not_eq_true, Bool.decide_eq_false] at this
  simp only [bne]
  omega

def insertLine (s : SubShader) (index? : Option Nat) (line : String) : SubShader :=
  s.mapPasses fun b => b.insertLine index? line

def insertCode (s : SubShader) (index? : Option Nat) (code : String) : SubShader :=
  s.mapPasses fun b => b.insertCode index? code

def countLines (s : SubShader) (part : String) : Nat :=
  (s.passes.flatMap fun p => p.lines).countP fun line => holds part.toList line.toList

def removeLines (s : SubShader) (part : String) : SubShader := s.mapPasses fun b => b.removeLines part

def countIncluding (s : SubShader) (path : String) : Nat := s.blocks.countP fun b => b.includes path

def replaceInclude (s : SubShader) (path content : String) : SubShader :=
  s.mapBlocks fun b => b.replaceInclude path content

def insertBefore (s : SubShader) (test : String → Bool) (code : String) : SubShader :=
  s.mapPasses fun b => b.insertBefore test code

def countReplaced (s : SubShader) (σ : Substitution) : Nat := σ.count (s.blocks.flatMap Block.values)

def substitute (s : SubShader) (σ : Substitution) : SubShader := s.mapBlocks fun b => b.substitute σ

def addTag (s : SubShader) (key value : String) : SubShader := s.mapBlock fun b => b.addTag key value

end SubShader

namespace Shader

def mapBlock (f : Block → Block) (s : Shader) : Shader := { s with toBlock := f s.toBlock }

def mapSubShaders (f : SubShader → SubShader) (s : Shader) : Shader :=
  { s with subShaders := s.subShaders.map f }

def mapBlocks (f : Block → Block) (s : Shader) : Shader := (s.mapBlock f).mapSubShaders (SubShader.mapBlocks f)

def countPasses (s : Shader) (name : String) : Nat := s.passes.countP fun p => p.name == some name

def removePass (s : Shader) (name : String) : Shader := s.mapSubShaders fun sub => sub.removePass name

def insertLine (s : Shader) (index? : Option Nat) (line : String) : Shader :=
  s.mapSubShaders fun sub => sub.insertLine index? line

def insertCode (s : Shader) (index? : Option Nat) (code : String) : Shader :=
  s.mapSubShaders fun sub => sub.insertCode index? code

def countLines (s : Shader) (part : String) : Nat :=
  (s.passes.flatMap fun p => p.lines).countP fun line => holds part.toList line.toList

def removeLines (s : Shader) (part : String) : Shader := s.mapSubShaders fun sub => sub.removeLines part

def countIncluding (s : Shader) (path : String) : Nat := s.blocks.countP fun b => b.includes path

def replaceInclude (s : Shader) (path content : String) : Shader :=
  s.mapBlocks fun b => b.replaceInclude path content

def insertBefore (s : Shader) (test : String → Bool) (code : String) : Shader :=
  s.mapSubShaders fun sub => sub.insertBefore test code

def countReplaced (s : Shader) (σ : Substitution) : Nat := σ.count (s.blocks.flatMap Block.values)

def substitute (s : Shader) (σ : Substitution) : Shader := s.mapBlocks fun b => b.substitute σ

def addTag (s : Shader) (key value : String) : Shader := s.mapSubShaders fun sub => sub.addTag key value

end Shader
end ShaderText
