import ShaderText.Text.Quoted

/-! File paths. A path is kept as it was given; the pieces between its slashes say what it names. An
empty piece and a single dot name nothing, except that a path may start with a dot.
-/
namespace ShaderText

structure Path where
  text : String
deriving Repr, DecidableEq, Inhabited

namespace Path

inductive Part
  | root
  | here
  | up
  | name (text : List Char)
deriving Repr, DecidableEq

def isSeparator (c : Char) : Bool := c == '/'

def pieces (cs : List Char) : List (List Char) :=
  match _h : cs.dropWhile fun c => !isSeparator c with
  | [] => [cs]
  | _ :: rest => (cs.takeWhile fun c => !isSeparator c) :: pieces rest
termination_by cs.length
decreasing_by
  have shorter := (List.dropWhile_suffix (fun c => !isSeparator c) (l := cs)).length_le
  rw [_h, List.length_cons] at shorter
  omega

/-- The step that a piece of a path takes. An empty piece takes none. -/
def step? (piece : List Char) : Option Part :=
  if piece = [] then none
  else if piece = ['.'] then some .here
  else if piece = ['.', '.'] then some .up
  else some (.name piece)

/-- The steps from the folder where the path starts, single dots too. -/
def steps (p : Path) : List Part :=
  let pieces := pieces p.text.toList
  let front :=
    match pieces with
    | [] :: _ :: _ => [Part.root]
    | _ => []
  front ++ pieces.filterMap step?

/-- The parts of a path: its steps without the dots inside it. Paths with the same parts are equal as
keys. -/
def parts (p : Path) : List Part :=
  match p.steps with
  | [] => []
  | first :: rest => first :: rest.filter (· ≠ .here)

def endsOpen (p : Path) : Bool := p.text.toList.getLast? == some '/'

def fileName? (p : Path) : Option (List Char) :=
  match p.parts.getLast? with
  | some (.name text) => some text
  | _ => none

/-- A file name without its last dot and what follows. A dot in front does not count. -/
def stemOf (name : List Char) : List Char :=
  let back := name.reverse
  match back.dropWhile (· != '.') with
  | [] => name
  | [_] => name
  | _ :: rest => rest.reverse

/-- The reversed text of a path without the slashes and dots at its end that name nothing. -/
def dropIdle : List Char → List Char
  | '/' :: c :: rest => dropIdle (c :: rest)
  | '.' :: '/' :: rest => dropIdle ('/' :: rest)
  | back => back
termination_by back => back.length

def parentText (p : Path) : List Char :=
  (dropIdle ((dropIdle p.text.toList.reverse).dropWhile fun c => !isSeparator c)).reverse

/-- A text with a slash at its end, unless it is empty. -/
def asFolder (cs : List Char) : List Char :=
  if cs = [] ∨ cs.getLast? = some '/' then cs else cs ++ ['/']

def child (p : Path) (name : List Char) : Path := ⟨String.ofList (asFolder p.text.toList ++ name)⟩

/-- The path with another file name. A path that ends in no name gets one more part. -/
def withFileName (p : Path) (name : List Char) : Path :=
  match p.fileName? with
  | none => p.child name
  | some _ => child ⟨String.ofList p.parentText⟩ name

def display (p : Path) : String := quoted p.text

end Path
end ShaderText
