import ShaderText.FileSystem
import ShaderText.Shader.Parse
import ShaderText.Shader.Edit

/-! Where documents and included files come from. A reader answers the text of a path or an error; it
may be a file system or a list of files that stand in for one. Main statement: a shader can be loaded
exactly when its file can be read and the text of the file can be parsed.
-/
namespace ShaderText

inductive SourceError
  | notFound (path : Path)
  | unreadable (path : Path) (cause : SystemError)
deriving Repr, DecidableEq

def SourceError.message : SourceError → String
  | notFound path => s!"file not found {path.display}"
  | unreadable path cause => s!"io error reading {path.display}: {cause.message}"

/-- Answers the text of a file. -/
abbrev Reader := Path → Except SourceError String

def FileSystem.reader (fs : FileSystem) : Reader := fun path =>
  match fs.read path with
  | .ok content => .ok content
  | .error .missing => .error (.notFound path)
  | .error cause => .error (.unreadable path cause)

/-- Reads the files of a list. Of two files with the same path the later one counts. -/
def Reader.ofList (files : List (Path × String)) : Reader := fun path =>
  match files.reverse.find? fun file => file.1.parts == path.parts with
  | some file => .ok file.2
  | none => .error (.notFound path)

inductive LoadError
  | source (error : SourceError)
  | parse (path : Path) (error : ParseError)
deriving Repr, DecidableEq

def LoadError.message : LoadError → String
  | source error => s!"source error: {error.message}"
  | parse path error => s!"parse error in {path.display} at {error.message}"

namespace Shader

def load (read : Reader) (path : Path) : Except LoadError Shader :=
  match read path with
  | .error error => .error (.source error)
  | .ok text =>
    match parse text with
    | .error error => .error (.parse path error)
    | .ok s => .ok s

theorem load_eq_ok_iff {read : Reader} {path : Path} {s : Shader} :
    load read path = .ok s ↔ ∃ text, read path = .ok text ∧ parse text = .ok s := by
  unfold load
  cases read path with
  | error error => simp
  | ok text => cases parsed : parse text <;> simp [parsed]

end Shader
end ShaderText
