import ShaderText.Log
import ShaderText.Text.Quoted
import ShaderText.Source

/-! What is logged while a document is read. The log follows the outline: each statement, then what it
says, and at the end of a block the block. It ends at the fault that ends the reading.
-/
namespace ShaderText

open Log

def quotedName : Option String → String
  | none => "None"
  | some name => s!"Some({quoted name})"

def Kind.word : Kind → String
  | .comment => "Comment"
  | .program s => s!"Program({s.word})"
  | .quoted => "Quoted"
  | .block => "Block"
  | .bare => "Bare"
  | .empty => "Empty"

/-- Statements with a value are announced; comments and programs are not. -/
def Statement.log (s : Statement) : List Message :=
  match s.kind with
  | .comment | .program _ => []
  | kind => [⟨.trace, .scanning, s!"Scanned parameter '{s.name.text}' ({kind.word}) at {s.name.start}"⟩]

def StencilEntry.log (e : StencilEntry) : List Message :=
  e.statement.log ++
    if e.field?.isNone then [⟨.debug, .reading, s!"Ignoring stencil field '{e.statement.name.text}'"⟩] else []

def Clause.log (document : List Char) (s : Statement) : Clause → List Message
  | .remark | .endlessProgram _ | .state _ _ => []
  | .program sentinel lines =>
    [⟨.debug, .reading, s!"Parsed {sentinel.word} block with {lines.length} line(s)"⟩]
  | .tags pairs _ => pairs.map fun (key, value) => ⟨.trace, .reading, s!"Tag '{key}' = '{value}'"⟩
  | .stencil entries => entries.flatMap StencilEntry.log
  | .droppedStencil fault =>
    [⟨.warn, .reading, s!"Ignoring Stencil without a block: {(fault.locate document).message}"⟩]
  | .unknown arguments =>
    ⟨.debug, .reading, s!"Ignoring directive '{s.name.text}'"⟩ ::
      arguments.map fun argument => ⟨.trace, .reading, s!"Dropping argument '{argument}'"⟩

def logEntries {α : Type} (log : Statement → α → List Message) (entries : List (Entry α)) : List Message :=
  entries.flatMap fun entry => entry.statement.log ++ log entry.statement entry.item

def PassItem.log (document : List Char) (s : Statement) : PassItem → List Message
  | .name _ => []
  | .clause said => said.log document s

def Pass.logEntries (document : List Char) (entries : List (Entry PassItem)) : List Message :=
  ShaderText.logEntries (PassItem.log document) entries ++
    if (passBody.faultOf? entries).isSome then []
    else [⟨.debug, .reading, s!"Parsed pass {quotedName (Pass.ofEntries entries).name}"⟩]

def SubShaderItem.log (document : List Char) (s : Statement) : SubShaderItem → List Message
  | .pass entries => Pass.logEntries document entries
  | .droppedPass fault =>
    [⟨.warn, .reading, s!"Dropping malformed pass: {(fault.locate document).message}"⟩]
  | .clause said => said.log document s

def SubShader.logEntries (document : List Char) (entries : List (Entry SubShaderItem)) : List Message :=
  ShaderText.logEntries (SubShaderItem.log document) entries ++
    if (subShaderBody.faultOf? entries).isSome then []
    else
      [⟨.debug, .reading, s!"Parsed SubShader with {(SubShader.ofEntries entries).passes.length} pass(es)"⟩]

def ShaderItem.log (document : List Char) (s : Statement) : ShaderItem → List Message
  | .properties => []
  | .subShader entries => SubShader.logEntries document entries
  | .droppedSubShader fault =>
    [⟨.warn, .reading, s!"Dropping malformed SubShader: {(fault.locate document).message}"⟩]
  | .clause said => said.log document s

def Outline.log (document : List Char) (o : Outline) : List Message :=
  (o.header?.map Statement.log).getD [] ++ ShaderText.logEntries (ShaderItem.log document) o.entries ++
    match Shader.ofOutline o with
    | .error _ => []
    | .ok s => [⟨.debug, .reading, s!"Parsed shader '{s.name}' with {s.subShaders.length} SubShader(s)"⟩]

def Shader.parseLog (document : String) : List Message :=
  (Outline.ofText document.toList).log document.toList

def Shader.loadLog (read : Reader) (path : Path) : List Message :=
  match read path with
  | .error _ => []
  | .ok text =>
    ⟨.debug, .loading, s!"Parsing {path.display} ({text.utf8ByteSize} bytes)"⟩ :: parseLog text

end ShaderText
