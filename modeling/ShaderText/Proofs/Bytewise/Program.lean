import ShaderText.Proofs.Alignment
import ShaderText.Proofs.Bytewise.Statement

/-! Programs by bytes. The closing line of a program is found by the bytes at the front of each line,
and its lines are slices of the text in front of that line. Main statements: the reader of bytes finds
the program that a region starts with, and every slice it takes from a line is one of whole characters.
-/
namespace ShaderText.Bytewise

def isMarginByte (b : UInt8) : Bool := isSpaceByte b && !(b == code '\n')

theorem agrees_isMargin : Agrees isMarginByte isMargin := agrees_isSpace.and (agrees_code (by decide)).not

variable (document : String)

/-- From a line start on, where the line starts whose first word closes a program, and where that word
ends. -/
def closingLine? (closing : List Char) (pos stop : Nat) : Option (Option (Nat × Nat)) :=
  if pos < stop then do
    let start ← skipWhile? document isMarginByte pos stop
    let wordStop ← skipWhile? document (fun b => !isSpaceByte b) start stop
    if sameWord (← slice? document.toList start wordStop) closing then return some (pos, wordStop)
    else
      let next ← skipLine? document wordStop stop
      if pos < next ∧ next ≤ stop then closingLine? closing next stop else none
  else some none
termination_by stop - pos

variable {document}

theorem afterLine_afterFirstWord (cs : List Char) : afterLine (afterFirstWord cs) = afterLine cs := by
  have skipped (p : Char → Bool) (no : p '\n' = false) (cs : List Char) :
      afterLine (cs.dropWhile p) = afterLine cs := by
    have noBreak : '\n' ∉ cs.takeWhile p := fun member => by
      have holds := List.all_eq_true.mp (List.all_takeWhile (p := p) (l := cs)) _ member
      rw [no] at holds
      exact Bool.false_ne_true holds
    have front := afterLine_append noBreak (cs.dropWhile p)
    rw [List.takeWhile_append_dropWhile] at front
    exact front.symm
  rw [afterFirstWord, afterBare, skipped _ (by decide), skipped _ (by decide)]

theorem closingLine?_step {closing cs : List Char} {pos stop : Nat} (h : Spans document.toList pos cs stop)
    (more : cs ≠ []) :
    closingLine? document closing pos stop =
      if sameWord (firstWord cs) closing then some (some (pos, stop - byteSize (afterFirstWord cs)))
      else closingLine? document closing (stop - byteSize (afterLine cs)) stop := by
  have bound : pos < stop := by
    obtain ⟨c, rest, rfl⟩ := List.exists_cons_of_ne_nil more
    have size := c.utf8Size_pos
    rw [h.stop_eq, byteSize_cons]
    omega
  have begun := h.onward (List.dropWhile_suffix isMargin)
  have word := (begun.takeWhile fun c => !isSpace c).slice?_eq
  have ends : skipWhile? document (fun b => !isSpaceByte b) (stop - byteSize (cs.dropWhile isMargin)) stop =
      some (stop - byteSize (afterFirstWord cs)) := skipWhile?_eq agrees_isSpace.not begun
  have line := skipLine?_eq (h.onward (afterFirstWord_suffix cs))
  have shorter := length_afterLine_le cs
  have filled := List.length_pos_iff.mpr more
  have goesOn : pos < stop - byteSize (afterLine cs) ∧ stop - byteSize (afterLine cs) ≤ stop :=
    ⟨h.lt_onward (afterLine_suffix cs) (by omega), Nat.sub_le _ _⟩
  change slice? _ _ (stop - byteSize (afterFirstWord cs)) = some (firstWord cs) at word
  rw [afterLine_afterFirstWord] at line
  rw [closingLine?, if_pos bound, skipWhile?_eq agrees_isMargin h]
  simp only [Option.bind_eq_bind, Option.bind_some, ends, word, line, if_pos goesOn, Option.pure_def]

theorem closingLine?_eq (closing : List Char) {cs : List Char} {pos stop : Nat}
    (h : Spans document.toList pos cs stop) :
    closingLine? document closing pos stop =
      some ((fromClosingLine? closing cs).map fun last =>
        (stop - byteSize last, stop - byteSize (afterFirstWord last))) := by
  fun_induction fromClosingLine? closing cs generalizing pos with
  | case1 =>
    have here : stop = pos := h.stop_eq
    rw [closingLine?, if_neg (by omega)]
    rfl
  | case2 c rest closes =>
    have here : stop - byteSize (c :: rest) = pos := by rw [h.stop_eq, Nat.add_sub_cancel]
    rw [closingLine?_step h (List.cons_ne_nil c rest), if_pos closes, Option.map_some, here]
  | case3 c rest other ih =>
    rw [closingLine?_step h (List.cons_ne_nil c rest), if_neg other]
    exact ih (h.onward (afterLine_suffix (c :: rest)))

variable (document)

/-- The text of the program whose opening word ends at a place, and where its closing word ends. -/
def scanProgram? (sentinel : Sentinel) (pos stop : Nat) : Option (Option (List Char × Nat)) := do
  match ← closingLine? document sentinel.closing.toList (← skipLine? document pos stop) stop with
  | none => return none
  | some (bodyStop, next) => return some (← slice? document.toList pos bodyStop, next)

variable {document}

theorem scanProgram?_eq {r : Region} (h : r.LiesIn document.toList) (sentinel : Sentinel) :
    scanProgram? document sentinel r.start r.stop =
      some ((Program.first? sentinel r).map fun found => (found.body.chars, found.rest.start)) := by
  have line := liesIn_onward h (afterLine_suffix r.chars)
  have closing := closingLine?_eq sentinel.closing.toList line
  rw [Region.stop_onward (afterLine_suffix r.chars)] at closing
  have start : skipLine? document r.start r.stop = some (r.onward (afterLine r.chars)).start := skipLine?_eq h
  rw [scanProgram?, start, Option.bind_eq_bind, Option.bind_some, closing, Program.first?]
  cases found : fromClosingLine? sentinel.closing.toList (afterLine r.chars) with
  | none => simp [found]
  | some last =>
    have suffix := (fromClosingLine?_suffix found).trans (afterLine_suffix r.chars)
    have body := slice?_of_liesIn (liesIn_upTo h suffix)
    rw [Region.stop_upTo suffix] at body
    have slice : slice? document.toList r.start (r.stop - byteSize last) = some (r.upTo last).chars := body
    simp only [found, Option.map_some, Option.bind_eq_bind, Option.bind_some, Region.onward_chars, slice,
      Option.pure_def]
    rfl

/-- The text after the rest of the opening line, if that holds only blanks. -/
def programText? (body : List Char) : Option (List Char) :=
  let line := body.takeWhile isInLine
  if line.length < body.length then do
    if isBlankText (← slice? body 0 (byteSize line)) then slice? body (byteSize line + 1) (byteSize body)
    else return body
  else return if isBlankText body then [] else body

def outdent? (indent : Nat) (line : List Char) : Option (List Char) :=
  if indent < byteSize line ∧ !isBlankText line then do
    return trimEnd (← slice? line indent (byteSize line))
  else return trimEnd line

def programLines? (body : List Char) : Option (List String) := do
  let text ← programText? body
  if text.isEmpty then return []
  else
    let lines := splitLines (untab (dropFinalBreak text))
    return (← lines.mapM (outdent? (sharedIndent lines))).map String.ofList

theorem programText?_eq (body : List Char) : programText? body = some (programText body) := by
  have split := List.takeWhile_append_dropWhile (p := isInLine) (l := body)
  have front : slice? body 0 (byteSize (body.takeWhile isInLine)) = some (body.takeWhile isInLine) :=
    Spans.slice?_eq ⟨[], body.dropWhile isInLine, split.symm, rfl, by simp⟩
  have unit : ('\n').utf8Size = 1 := rfl
  rw [programText?, programText]
  cases rest : body.dropWhile isInLine with
  | nil =>
    rw [rest, List.append_nil] at split
    rw [split, if_neg (Nat.lt_irrefl _)]
    split <;> rfl
  | cons c rest' =>
    have ends : c = '\n' := by
      have head := List.head_dropWhile_not (p := isInLine) (l := body) (by rw [rest]; simp)
      simpa [rest, isInLine] using head
    rw [rest, ends] at split
    have after : slice? body (byteSize (body.takeWhile isInLine) + 1) (byteSize body) = some rest' := by
      refine Spans.slice?_eq ⟨body.takeWhile isInLine ++ ['\n'], [], by simpa using split.symm, by simp [unit], ?_⟩
      have size := congrArg byteSize split
      simp only [byteSize_append, byteSize_cons, unit] at size
      omega
    have shorter : (body.takeWhile isInLine).length < body.length := by
      have count := congrArg List.length split
      rw [List.length_append, List.length_cons] at count
      omega
    simp only [if_pos shorter, front, after, Option.bind_eq_bind, Option.bind_some]
    split <;> rfl

theorem outdent?_eq {lines : List (List Char)} {line : List Char} (member : line ∈ lines) :
    outdent? (sharedIndent lines) line = some (outdent (sharedIndent lines) line) := by
  rw [outdent?, outdent]
  by_cases blank : isBlankText line = true
  · have empty : trimEnd line = [] := by
      rw [trimEnd, List.dropWhile_eq_nil_iff.mpr, List.reverse_nil]
      simpa [isBlankText] using blank
    rw [if_neg (by simp [blank]), if_pos blank, empty]
    rfl
  · -- only spaces of one byte are cut off, so the cut is between characters
    have filled : isBlankText line = false := by simpa using blank
    have split := eq_spaces_append_drop (sharedIndent_le member filled)
    have size (k : Nat) : byteSize (List.replicate k ' ') = k := by
      induction k with
      | zero => rfl
      | succ k ih =>
        rw [List.replicate_succ, byteSize_cons, ih, show (' ').utf8Size = 1 from rfl, Nat.add_comm]
    generalize sharedIndent lines = k at split
    have rest : line.drop k ≠ [] := by
      intro none
      rw [split, none, List.append_nil] at filled
      have blank := isBlankText_spaces k []
      rw [List.append_nil, filled] at blank
      simp [isBlankText] at blank
    obtain ⟨c, cs, begins⟩ := List.exists_cons_of_ne_nil rest
    have positive := c.utf8Size_pos
    have whole := congrArg byteSize split
    rw [byteSize_append, size, begins, byteSize_cons] at whole
    have slice : slice? line k (byteSize line) = some (line.drop k) := by
      refine Spans.slice?_eq ⟨List.replicate k ' ', [], by rwa [List.append_nil], (size k).symm, ?_⟩
      rw [begins, byteSize_cons]
      exact whole
    rw [if_pos ⟨by omega, by simp [filled]⟩, slice, if_neg blank]
    rfl

theorem mapM_eq_some {α β : Type} {f : α → Option β} {g : α → β} {xs : List α} (h : ∀ x ∈ xs, f x = some (g x)) :
    xs.mapM f = some (xs.map g) := by
  induction xs with
  | nil => rfl
  | cons x xs ih =>
    rw [List.mapM_cons, h x (List.mem_cons_self ..), ih fun y member => h y (List.mem_cons_of_mem x member)]
    rfl

theorem programLines?_eq (body : List Char) : programLines? body = some (programLines body) := by
  rw [programLines?, programText?_eq, Option.bind_eq_bind, Option.bind_some, programLines]
  cases text : programText body with
  | nil => rfl
  | cons c cs =>
    have lines (lines : List (List Char)) :
        lines.mapM (outdent? (sharedIndent lines)) = some (lines.map (outdent (sharedIndent lines))) :=
      mapM_eq_some fun _ => outdent?_eq
    simp only [List.isEmpty_cons, Bool.false_eq_true, if_false, lines, Option.bind_eq_bind, Option.bind_some]
    rfl

end ShaderText.Bytewise
