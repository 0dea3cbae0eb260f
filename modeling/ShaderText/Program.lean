import ShaderText.Text.Region
import ShaderText.Trivia
import ShaderText.Code

/-! Where an embedded program ends. The text after a sentinel belongs to the program up to the first
later line whose first word is the closing word. Main statements: the closing line found starts with
the closing word, and what is left after it is a tail of the text given.
-/
namespace ShaderText

/-- A space that does not end the line. -/
def isMargin (c : Char) : Bool := isSpace c && isInLine c

def firstWord (line : List Char) : List Char := (line.dropWhile isMargin).takeWhile fun c => !isSpace c

def afterFirstWord (line : List Char) : List Char := afterBare (line.dropWhile isMargin)

/-- The text from the first line on that starts with the word `closing`. -/
def fromClosingLine? (closing : List Char) (cs : List Char) : Option (List Char) :=
  match cs with
  | [] => none
  | c :: rest =>
    if sameWord (firstWord (c :: rest)) closing then some (c :: rest)
    else fromClosingLine? closing (afterLine (c :: rest))
termination_by cs.length
decreasing_by
  have := length_afterLine_le (c :: rest)
  simp at this ⊢
  omega

/-- A program in its place: the text between its sentinel and its closing line, and what is left after
the closing word. -/
structure Program where
  body : Region
  rest : Region
deriving Repr, DecidableEq

/-- The program whose text starts at the front of a region, right after its sentinel. -/
def Program.first? (sentinel : Sentinel) (r : Region) : Option Program :=
  match fromClosingLine? sentinel.closing.toList (afterLine r.chars) with
  | none => none
  | some last => some ⟨r.upTo last, r.onward (afterFirstWord last)⟩

theorem afterFirstWord_suffix (line : List Char) : afterFirstWord line <:+ line :=
  (afterBare_suffix _).trans (List.dropWhile_suffix _)

theorem fromClosingLine?_suffix {closing cs last : List Char}
    (h : fromClosingLine? closing cs = some last) : last <:+ cs := by
  fun_induction fromClosingLine? closing cs with
  | case1 => simp at h
  | case2 => exact Option.some.inj h ▸ List.suffix_refl _
  | case3 c rest _ ih => exact (ih h).trans (afterLine_suffix _)

theorem sameWord_of_fromClosingLine? {closing cs last : List Char}
    (h : fromClosingLine? closing cs = some last) : sameWord (firstWord last) closing := by
  fun_induction fromClosingLine? closing cs with
  | case1 => simp at h
  | case2 c rest closes => exact Option.some.inj h ▸ closes
  | case3 c rest _ ih => exact ih h

theorem Program.rest_suffix {sentinel : Sentinel} {r : Region} {p : Program}
    (h : first? sentinel r = some p) : p.rest.chars <:+ r.chars := by
  unfold first? at h
  split at h
  · simp at h
  · rename_i last found
    obtain rfl := Option.some.inj h
    exact ((afterFirstWord_suffix last).trans (fromClosingLine?_suffix found)).trans (afterLine_suffix _)

end ShaderText
