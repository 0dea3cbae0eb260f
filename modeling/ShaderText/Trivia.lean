/-! What stands between statements: spaces, line comments and block comments. Each function takes the
text at some place and answers the text that is left, so what it passes over is always a front part.
Main statements: every answer is a tail of the text given, and `afterTrivia` leaves neither a space
nor the start of a comment in front.
-/
namespace ShaderText

/-- The six ASCII characters that separate words. -/
def isSpace (c : Char) : Bool :=
  c == ' ' || c == '\n' || c == '\t' || c == '\r' || c == '\x0b' || c == '\x0c'

def afterSpaces (cs : List Char) : List Char := cs.dropWhile isSpace

/-- A bare value runs up to the next space. -/
def afterBare (cs : List Char) : List Char := cs.dropWhile fun c => !isSpace c

def afterLine : List Char → List Char
  | [] => []
  | c :: cs => if c = '\n' then cs else afterLine cs

/-- Past the end of a block comment whose opening has been read. -/
def afterNote : List Char → List Char
  | [] => []
  | '*' :: '/' :: cs => cs
  | _ :: cs => afterNote cs

/-- Past the comment that starts here, if one does. -/
def afterComment? : List Char → Option (List Char)
  | '/' :: '/' :: cs => some (afterLine cs)
  | '/' :: '*' :: cs => some (afterNote cs)
  | _ => none

theorem afterSpaces_suffix (cs : List Char) : afterSpaces cs <:+ cs := List.dropWhile_suffix _

theorem afterBare_suffix (cs : List Char) : afterBare cs <:+ cs := List.dropWhile_suffix _

theorem afterLine_suffix (cs : List Char) : afterLine cs <:+ cs := by
  fun_induction afterLine cs with
  | case1 => exact List.suffix_refl _
  | case2 => exact List.suffix_cons _ _
  | case3 c cs _ ih => exact ih.trans (List.suffix_cons _ _)

theorem length_afterLine_le (cs : List Char) : (afterLine cs).length ≤ cs.length - 1 := by
  cases cs with
  | nil => simp [afterLine]
  | cons c cs =>
    have := (afterLine_suffix cs).length_le
    simp only [afterLine]
    split <;> simp
    omega

theorem afterNote_cons {c : Char} {cs : List Char} (inside : c = '*' → cs.head? ≠ some '/') :
    afterNote (c :: cs) = afterNote cs := by
  rw [afterNote]
  rintro rest rfl rfl
  exact inside rfl rfl

theorem afterNote_suffix (cs : List Char) : afterNote cs <:+ cs := by
  fun_induction afterNote cs with
  | case1 => exact List.suffix_refl _
  | case2 cs => exact (List.suffix_cons _ _).trans (List.suffix_cons _ _)
  | case3 c cs _ ih => exact ih.trans (List.suffix_cons _ _)

theorem afterComment?_suffix {cs rest : List Char} (h : afterComment? cs = some rest) :
    rest <:+ cs ∧ rest.length < cs.length := by
  unfold afterComment? at h
  split at h
  · obtain rfl := Option.some.inj h
    have := afterLine_suffix ‹_›
    refine ⟨(this.trans (List.suffix_cons _ _)).trans (List.suffix_cons _ _), ?_⟩
    have := this.length_le
    simp
    omega
  · obtain rfl := Option.some.inj h
    have := afterNote_suffix ‹_›
    refine ⟨(this.trans (List.suffix_cons _ _)).trans (List.suffix_cons _ _), ?_⟩
    have := this.length_le
    simp
    omega
  · simp at h

def afterTrivia (cs : List Char) : List Char :=
  match _h : afterComment? (afterSpaces cs) with
  | none => afterSpaces cs
  | some rest => afterTrivia rest
termination_by cs.length
decreasing_by
  have := (afterComment?_suffix _h).2
  have := (afterSpaces_suffix cs).length_le
  omega

theorem afterTrivia_suffix (cs : List Char) : afterTrivia cs <:+ cs := by
  fun_induction afterTrivia cs with
  | case1 cs _ => exact afterSpaces_suffix cs
  | case2 cs rest h ih => exact (ih.trans (afterComment?_suffix h).1).trans (afterSpaces_suffix cs)

theorem afterComment?_afterTrivia (cs : List Char) : afterComment? (afterTrivia cs) = none := by
  fun_induction afterTrivia cs with
  | case1 cs h => exact h
  | case2 cs rest _ ih => exact ih

theorem not_isSpace_head_afterTrivia {cs rest : List Char} {c : Char} (h : afterTrivia cs = c :: rest) :
    isSpace c = false := by
  fun_induction afterTrivia cs with
  | case1 cs _ =>
    have := List.head_dropWhile_not (p := isSpace) (l := cs) (by
      change afterSpaces cs ≠ []
      rw [h]
      simp)
    unfold afterSpaces at h
    simpa [h] using this
  | case2 cs rest _ ih => exact ih h

end ShaderText
