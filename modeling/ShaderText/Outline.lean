import ShaderText.Clause

/-! The outline of a document: its statements in order, each with what it says. One reader serves the
bodies of all three kinds of block; what a statement may say besides the clauses that all blocks know
is the item type of the body. Reading a body stops after the first item with a fault. Main statement: after
a statement, reading goes on at a tail of what the statement leaves.
-/
namespace ShaderText

structure Entry (α : Type) where
  statement : Statement
  item : α
deriving Repr, DecidableEq

/-- How the statements of one kind of body are read. -/
structure Body (α : Type) where
  read : Statement → α × Region
  read_suffix : ∀ s, (read s).2.chars <:+ s.rest.chars
  fault? : α → Option Fault

namespace Body

variable {α : Type}

/-- The entries of a body, up to the first one with a fault. -/
def entries (body : Body α) (r : Region) : List (Entry α) :=
  match _h : Statement.first? r with
  | none => []
  | some s =>
    let found := body.read s
    ⟨s, found.1⟩ :: if (body.fault? found.1).isSome then [] else body.entries found.2
termination_by r.chars.length
decreasing_by
  have := (body.read_suffix s).length_le
  have := (Statement.rest_suffix _h).2
  omega

/-- The fault that ended the reading of a body. -/
def faultOf? (body : Body α) (entries : List (Entry α)) : Option Fault :=
  entries.findSome? fun entry => body.fault? entry.item

end Body

/-- The name that a name statement gives: its value, without quotes around it. -/
def Statement.nameValue (s : Statement) : String :=
  match s.value.chars with
  | '"' :: rest => if rest.getLast? = some '"' then String.ofList rest.dropLast else s.value.text
  | _ => s.value.text

inductive PassItem
  | name (value : String)
  | clause (clause : Clause)
deriving Repr, DecidableEq

def PassItem.read (s : Statement) : PassItem × Region :=
  if s.kind ≠ .comment ∧ keyword? s.name.chars = some .name then (.name s.nameValue, s.rest)
  else
    let (said, next) := Clause.read s
    (.clause said, next)

theorem PassItem.read_suffix (s : Statement) : (read s).2.chars <:+ s.rest.chars := by
  unfold read
  split
  · exact List.suffix_refl _
  · exact Clause.read_suffix s

def PassItem.fault? : PassItem → Option Fault
  | .name _ => none
  | .clause said => said.fault?

def passBody : Body PassItem := ⟨PassItem.read, PassItem.read_suffix, PassItem.fault?⟩

inductive SubShaderItem
  | pass (entries : List (Entry PassItem))
  /-- A pass without a closed block. -/
  | droppedPass (fault : Fault)
  | clause (clause : Clause)
deriving Repr, DecidableEq

def SubShaderItem.read (s : Statement) : SubShaderItem × Region :=
  if s.kind ≠ .comment ∧ keyword? s.name.chars = some .pass then
    match s.interior Keyword.pass.word with
    | .error fault => (.droppedPass fault, s.rest)
    | .ok inside => (.pass (passBody.entries inside), s.rest)
  else
    let (said, next) := Clause.read s
    (.clause said, next)

theorem SubShaderItem.read_suffix (s : Statement) : (read s).2.chars <:+ s.rest.chars := by
  unfold read
  split
  · split <;> exact List.suffix_refl _
  · exact Clause.read_suffix s

def SubShaderItem.fault? : SubShaderItem → Option Fault
  | .pass entries => passBody.faultOf? entries
  | .droppedPass _ => none
  | .clause said => said.fault?

def subShaderBody : Body SubShaderItem :=
  ⟨SubShaderItem.read, SubShaderItem.read_suffix, SubShaderItem.fault?⟩

inductive ShaderItem
  | properties
  | subShader (entries : List (Entry SubShaderItem))
  /-- A sub-shader without a closed block. -/
  | droppedSubShader (fault : Fault)
  | clause (clause : Clause)
deriving Repr, DecidableEq

def ShaderItem.read (s : Statement) : ShaderItem × Region :=
  if s.kind ≠ .comment ∧ keyword? s.name.chars = some .properties then (.properties, s.rest)
  else if s.kind ≠ .comment ∧ keyword? s.name.chars = some .subShader then
    match s.interior Keyword.subShader.word with
    | .error fault => (.droppedSubShader fault, s.rest)
    | .ok inside => (.subShader (subShaderBody.entries inside), s.rest)
  else
    let (said, next) := Clause.read s
    (.clause said, next)

theorem ShaderItem.read_suffix (s : Statement) : (read s).2.chars <:+ s.rest.chars := by
  unfold read
  split
  · exact List.suffix_refl _
  · split
    · split <;> exact List.suffix_refl _
    · exact Clause.read_suffix s

def ShaderItem.fault? : ShaderItem → Option Fault
  | .properties => none
  | .subShader entries => subShaderBody.faultOf? entries
  | .droppedSubShader _ => none
  | .clause said => said.fault?

def shaderBody : Body ShaderItem := ⟨ShaderItem.read, ShaderItem.read_suffix, ShaderItem.fault?⟩

/-- The first statement that is no comment. -/
def Region.header? (r : Region) : Option Statement :=
  match _h : Statement.first? r with
  | none => none
  | some s => if s.kind = .comment then s.rest.header? else some s
termination_by r.chars.length
decreasing_by exact (Statement.rest_suffix _h).2

/-- A document as it is read: the statement that names the shader, its name, the entries of its body,
and the fault that ended the reading. -/
structure Outline where
  header? : Option Statement
  name : String
  entries : List (Entry ShaderItem)
  fault? : Option Fault
deriving Repr, DecidableEq

namespace Outline

/-- Where the block of the shader is looked for. -/
def blockPlace (header : Statement) : Region :=
  if header.kind = .block then header.value else header.rest.skipTrivia

def nameOf (header : Statement) : String := if header.kind = .block then "" else header.nameValue

/-- The text inside the block of a shader. -/
def shaderInterior (header : Statement) : Except Fault Region :=
  let place := blockPlace header
  match place.chars with
  | '{' :: inside =>
    match afterBlock? place.chars with
    | none => .error ⟨place.start, .unterminatedBlock Keyword.shader.word⟩
    | some rest => .ok ⟨place.start + 1, inside.take (inside.length - rest.length - 1)⟩
  | _ => .error ⟨place.start, .missingBlock Keyword.shader.word⟩

def ofText (document : List Char) : Outline :=
  match (Region.whole document).header? with
  | none => ⟨none, "", [], some ⟨byteSize document, .endOfText⟩⟩
  | some header =>
    if keyword? header.name.chars ≠ some .shader then
      ⟨header, "", [], some ⟨header.name.start, .missingShader header.name.text⟩⟩
    else
      match shaderInterior header with
      | .error fault => ⟨header, nameOf header, [], some fault⟩
      | .ok inside =>
        let entries := shaderBody.entries inside
        ⟨header, nameOf header, entries, shaderBody.faultOf? entries⟩

theorem shaderInterior_of_closed {s : Statement} {start : Nat} {inside rest : List Char}
    (place : blockPlace s = ⟨start, '{' :: (inside ++ '}' :: rest)⟩)
    (closes : afterBlock? ('{' :: (inside ++ '}' :: rest)) = some rest) :
    shaderInterior s = .ok ⟨start + 1, inside⟩ := by
  have front : (inside ++ '}' :: rest).take ((inside ++ '}' :: rest).length - rest.length - 1) = inside := by
    rw [List.length_append, List.length_cons,
      show inside.length + (rest.length + 1) - rest.length - 1 = inside.length by omega, List.take_left]
  simp only [shaderInterior, place, closes, front]

theorem shaderInterior_of_open {s : Statement} {start : Nat} {inside : List Char}
    (place : blockPlace s = ⟨start, '{' :: inside⟩) (never : afterBlock? ('{' :: inside) = none) :
    shaderInterior s = .error ⟨start, .unterminatedBlock Keyword.shader.word⟩ := by
  simp only [shaderInterior, place, never]

theorem shaderInterior_of_missing {s : Statement} (missing : (blockPlace s).chars.head? ≠ some '{') :
    shaderInterior s = .error ⟨(blockPlace s).start, .missingBlock Keyword.shader.word⟩ := by
  unfold shaderInterior
  dsimp only
  split
  · rename_i opens
    exact absurd (by rw [opens]; rfl) missing
  · rfl

end Outline
end ShaderText
