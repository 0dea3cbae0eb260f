import ShaderText.Text.Blank
import ShaderText.Text.Lines
import ShaderText.Word

/-! The lines of an embedded program. A program is kept without the indentation that its lines share
and without blanks at line ends. Main statements: `unindent` answers one line per line of the code,
and no line ends in a blank.
-/
namespace ShaderText

/-- A tab counts as one space. -/
def untab (cs : List Char) : List Char := cs.map fun c => if c = '\t' then ' ' else c

def indentOf (line : List Char) : Nat := (line.takeWhile (· == ' ')).length

/-- The indentation shared by all lines that are not blank. -/
def sharedIndent (lines : List (List Char)) : Nat :=
  (((lines.filter fun line => !isBlankText line).map indentOf).min?).getD 0

/-- A line without `indent` characters in front and without blanks at its end. -/
def outdent (indent : Nat) (line : List Char) : List Char :=
  if isBlankText line then [] else trimEnd (line.drop indent)

/-- The lines of a text without their shared indentation. -/
def unindentText (code : List Char) : List (List Char) :=
  let lines := splitLines (untab code)
  lines.map (outdent (sharedIndent lines))

def unindent (code : String) : List String := (unindentText code.toList).map String.ofList

/-- The text after the rest of the opening line, if that holds only blanks. -/
def programText (body : List Char) : List Char :=
  if isBlankText (body.takeWhile isInLine) then (body.dropWhile isInLine).drop 1 else body

/-- A text without the line feed that ends it. -/
def dropFinalBreak (cs : List Char) : List Char :=
  if cs.getLast? = some '\n' then cs.dropLast else cs

/-- The lines of a program, given the text between its opening and its closing word. -/
def programLines (body : List Char) : List String :=
  match programText body with
  | [] => []
  | text => (unindentText (dropFinalBreak text)).map String.ofList

def includeWord : List Char := "#include".toList

/-- Whether a line includes the file `path`: blanks, the directive in any case, blanks, and the path
between the next two quotes. -/
def isInclude (line path : String) : Bool :=
  let line := trimStart line.toList
  sameWord (line.take includeWord.length) includeWord &&
    match trimStart (line.drop includeWord.length) with
    | '"' :: rest => rest.contains '"' && rest.takeWhile (· != '"') == path.toList
    | _ => false

/-- Whether `part` stands somewhere in a text. -/
def holds (part : List Char) : List Char → Bool
  | [] => part.isEmpty
  | c :: cs => part.isPrefixOf (c :: cs) || holds part cs

def trimBreaks (content : String) : String :=
  String.ofList (content.toList.reverse.dropWhile fun c => c == '\n' || c == '\r').reverse

theorem length_unindentText (code : List Char) :
    (unindentText code).length = (splitLines (untab code)).length := by
  simp [unindentText]

theorem not_isBlank_getLast_outdent {indent : Nat} {line : List Char} (h : outdent indent line ≠ []) :
    isBlank ((outdent indent line).getLast h) = false := by
  by_cases blank : isBlankText line = true
  · exact absurd (by simp [outdent, blank]) h
  · have kept : outdent indent line = trimEnd (line.drop indent) := by simp [outdent, blank]
    simp only [kept]
    exact not_isBlank_getLast_trimEnd _

theorem holds_iff {part cs : List Char} : holds part cs ↔ part <:+: cs := by
  induction cs with
  | nil => simp [holds, List.isEmpty_iff]
  | cons c cs ih => simp [holds, ih, List.infix_cons_iff, List.isPrefixOf_iff_prefix]

end ShaderText
