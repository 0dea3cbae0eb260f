/-! Lines. A text is cut at its line feeds, so a text with `n` line feeds has `n + 1` lines. Main
statements: no line holds a line feed, and joining the lines gives the text back.
-/
namespace ShaderText

/-- Every character but the line feed. -/
def isInLine (c : Char) : Bool := c != '\n'

def splitLines (cs : List Char) : List (List Char) :=
  match _h : cs.dropWhile isInLine with
  | [] => [cs]
  | _ :: rest => cs.takeWhile isInLine :: splitLines rest
termination_by cs.length
decreasing_by
  have shorter := (List.dropWhile_suffix isInLine (l := cs)).length_le
  rw [_h, List.length_cons] at shorter
  omega

def joinLines : List (List Char) → List Char
  | [] => []
  | [line] => line
  | line :: lines => line ++ '\n' :: joinLines lines

theorem splitLines_ne_nil (cs : List Char) : splitLines cs ≠ [] := by
  rw [splitLines]
  split <;> simp

private theorem front_append {cs rest : List Char} {c : Char} (h : cs.dropWhile isInLine = c :: rest) :
    cs = cs.takeWhile isInLine ++ '\n' :: rest := by
  have ends : c = '\n' := by
    have := List.head_dropWhile_not (p := isInLine) (l := cs) (by rw [h]; simp)
    simpa [h, isInLine] using this
  conv => lhs; rw [← List.takeWhile_append_dropWhile (p := isInLine) (l := cs)]
  rw [h, ends]

private theorem takeWhile_of_dropWhile_nil {cs : List Char} (h : cs.dropWhile isInLine = []) :
    cs.takeWhile isInLine = cs := by
  conv => rhs; rw [← List.takeWhile_append_dropWhile (p := isInLine) (l := cs), h]
  simp

theorem not_mem_takeWhile_isInLine (cs : List Char) : '\n' ∉ cs.takeWhile isInLine := by
  intro member
  have := List.all_eq_true.mp (List.all_takeWhile (p := isInLine) (l := cs)) _ member
  simp [isInLine] at this

theorem not_mem_of_mem_splitLines {cs line : List Char} (h : line ∈ splitLines cs) : '\n' ∉ line := by
  fun_induction splitLines cs with
  | case1 cs end_ =>
    rw [List.mem_singleton.mp h, ← takeWhile_of_dropWhile_nil end_]
    exact not_mem_takeWhile_isInLine cs
  | case2 cs c rest _ ih =>
    rcases List.mem_cons.mp h with rfl | h
    · exact not_mem_takeWhile_isInLine cs
    · exact ih h

theorem joinLines_splitLines (cs : List Char) : joinLines (splitLines cs) = cs := by
  fun_induction splitLines cs with
  | case1 cs _ => rfl
  | case2 cs c rest h ih =>
    have nonempty := splitLines_ne_nil rest
    cases lines : splitLines rest with
    | nil => exact absurd lines nonempty
    | cons line more =>
      rw [joinLines, ← lines, ih, ← front_append h]
      simp

end ShaderText
