import ShaderText.Shader
import ShaderText.Outline

/-! The tree that a document denotes. Each item of an outline changes the block it stands in, and the
tree is what all items together leave. Main statement: a document has a tree exactly when its outline
has no fault.
-/
namespace ShaderText

namespace Block

/-- A block after one more clause. A later value replaces an earlier one, and so does a program. -/
def add (b : Block) : Clause → Block
  | .program _ lines => { b with program := some lines }
  | .tags pairs _ => { b with tags := b.tags.insertAll pairs }
  | .stencil entries => { b with stencil := b.stencil.insertAll (entries.filterMap (·.field?)) }
  | .state state value => { b with states := b.states.insert state value }
  | .remark | .endlessProgram _ | .droppedStencil _ | .unknown _ => b

end Block

namespace Pass

def add (p : Pass) : PassItem → Pass
  | .name value => { p with name := some value }
  | .clause said => { p with toBlock := p.toBlock.add said }

def ofEntries (entries : List (Entry PassItem)) : Pass :=
  entries.foldl (fun p entry => p.add entry.item) (.named none)

end Pass

namespace SubShader

def add (s : SubShader) : SubShaderItem → SubShader
  | .pass entries => { s with passes := s.passes ++ [.ofEntries entries] }
  | .droppedPass _ => s
  | .clause said => { s with toBlock := s.toBlock.add said }

def ofEntries (entries : List (Entry SubShaderItem)) : SubShader :=
  entries.foldl (fun s entry => s.add entry.item) .empty

end SubShader

namespace Shader

def add (s : Shader) : ShaderItem → Shader
  | .properties | .droppedSubShader _ => s
  | .subShader entries => { s with subShaders := s.subShaders ++ [.ofEntries entries] }
  | .clause said => { s with toBlock := s.toBlock.add said }

def ofEntries (name : String) (entries : List (Entry ShaderItem)) : Shader :=
  entries.foldl (fun s entry => s.add entry.item) (.named name)

def ofOutline (o : Outline) : Except Fault Shader :=
  match o.fault? with
  | some fault => .error fault
  | none => .ok (ofEntries o.name o.entries)

def parse (document : String) : Except ParseError Shader :=
  match ofOutline (.ofText document.toList) with
  | .error fault => .error (fault.locate document.toList)
  | .ok s => .ok s

theorem parse_eq_ok_iff {document : String} {s : Shader} :
    parse document = .ok s ↔
      (Outline.ofText document.toList).fault? = none ∧
        s = ofEntries (Outline.ofText document.toList).name (Outline.ofText document.toList).entries := by
  unfold parse ofOutline
  cases (Outline.ofText document.toList).fault? with
  | none => simp [eq_comm]
  | some fault => simp

theorem parse_eq_error_iff {document : String} {e : ParseError} :
    parse document = .error e ↔
      ∃ fault, (Outline.ofText document.toList).fault? = some fault ∧ fault.locate document.toList = e := by
  unfold parse ofOutline
  cases (Outline.ofText document.toList).fault? with
  | none => simp
  | some fault => simp

end Shader
end ShaderText
