import Mathlib.Data.List.Forall2
import ShaderText.Proofs.Alignment
import ShaderText.Proofs.Respelling

/-! Respelled programs. A line of a respelled text is the respelled line, and may have a carriage return
at its end, which counts as a space and as a blank. Main statements: the closing line of a program is
found in the same place, and the lines of a respelled program are the respelled lines.
-/
namespace ShaderText.Respelling

variable (ρ : Respelling)

/-- What a character inside a line becomes. -/
def letter (c : Char) : Char := (ρ.image c).getLastD c

theorem alike_letter (c : Char) : Alike c (ρ.letter c) := by
  rcases ρ.image_alike c with ⟨rfl, image⟩ | ⟨d, image, alike⟩
  · simp [letter, image, Alike]
  · simpa [letter, image] using alike

theorem image_break : ρ.image '\n' = ['\n'] ∨ ρ.image '\n' = ['\r', '\n'] := by
  rcases ρ.image_alike '\n' with ⟨-, image⟩ | ⟨d, image, alike⟩
  · exact .inr image
  · exact .inl (by rw [image, alike.eq_of_not_isAlpha (by decide)])

theorem text_eq_map {cs : List Char} (single : '\n' ∉ cs) : ρ.text cs = cs.map ρ.letter := by
  induction cs with
  | nil => rfl
  | cons c cs ih =>
    simp only [List.mem_cons, not_or] at single
    rcases ρ.image_alike c with ⟨rfl, -⟩ | ⟨d, image, -⟩
    · exact absurd rfl single.1
    · simp [letter, image, ih single.2]

theorem not_mem_text {cs : List Char} (single : '\n' ∉ cs) : '\n' ∉ ρ.text cs := by
  rw [ρ.text_eq_map single]
  intro member
  obtain ⟨c, inside, equal⟩ := List.mem_map.mp member
  rw [((ρ.alike_letter c).eq_iff (by decide)).mp equal] at inside
  exact single inside

/-- A line, and what stands for it in the respelled text. -/
def IsLine (line line' : List Char) : Prop :=
  '\n' ∉ line ∧ ∃ tail, (tail = [] ∨ tail = ['\r']) ∧ line' = ρ.text line ++ tail

theorem splitLines_text (cs : List Char) {tail : List Char} (ends : tail = [] ∨ tail = ['\r']) :
    List.Forall₂ ρ.IsLine (splitLines cs) (splitLines (ρ.text cs ++ tail)) := by
  have lined (line : List Char) (member : line ∈ splitLines cs) : '\n' ∉ line :=
    not_mem_of_mem_splitLines member
  have nonempty := splitLines_ne_nil cs
  conv => rhs; rw [← joinLines_splitLines cs]
  generalize splitLines cs = lines at lined nonempty
  have single {line tail : List Char} (noBreak : '\n' ∉ line) (ends : tail = [] ∨ tail = ['\r']) :
      '\n' ∉ ρ.text line ++ tail := by
    rcases ends with rfl | rfl <;> simp [ρ.not_mem_text noBreak]
  fun_induction joinLines lines with
  | case1 => exact absurd rfl nonempty
  | case2 line =>
    have noBreak := lined line List.mem_cons_self
    rw [splitLines_of_not_mem (single noBreak ends)]
    exact .cons ⟨noBreak, tail, ends, rfl⟩ .nil
  | case3 line lines more ih =>
    have noBreak := lined line List.mem_cons_self
    obtain ⟨front, first, image⟩ : ∃ front, (front = [] ∨ front = ['\r']) ∧ ρ.image '\n' = front ++ ['\n'] := by
      rcases ρ.image_break with image | image
      · exact ⟨[], .inl rfl, image⟩
      · exact ⟨['\r'], .inr rfl, image⟩
    have split : ρ.text (line ++ '\n' :: joinLines lines) ++ tail =
        (ρ.text line ++ front) ++ '\n' :: (ρ.text (joinLines lines) ++ tail) := by
      simp [image]
    rw [split, splitLines_cons_break (single noBreak first)]
    exact .cons ⟨noBreak, front, first, rfl⟩
      (ih (fun other member => lined other (List.mem_cons_of_mem _ member)) more)

theorem untab_text (cs : List Char) : untab (ρ.text cs) = ρ.text (untab cs) := by
  induction cs with
  | nil => rfl
  | cons c cs ih =>
    simp only [untab, text_cons, List.map_append, List.map_cons] at ih ⊢
    rw [ih]
    by_cases tab : c = '\t'
    · subst tab
      rw [ρ.image_of_sign (by decide) (by decide), if_pos rfl, ρ.image_of_sign (by decide) (by decide)]
      rfl
    · rw [if_neg tab]
      rcases ρ.image_alike c with ⟨rfl, image⟩ | ⟨d, image, alike⟩
      · simp [image]
      · simp [image, alike.eq_iff, tab]

theorem trimEnd_append_of_isBlankText (cs : List Char) {tail : List Char} (blank : isBlankText tail) :
    trimEnd (cs ++ tail) = trimEnd cs := by
  have passes : ∀ c ∈ tail.reverse, isBlank c := fun c member =>
    List.all_eq_true.mp blank c (List.mem_reverse.mp member)
  rw [trimEnd, trimEnd, List.reverse_append, List.dropWhile_append_of_pos passes]

theorem trimEnd_map_letter (cs : List Char) : trimEnd (cs.map ρ.letter) = (trimEnd cs).map ρ.letter := by
  have same : isBlank ∘ ρ.letter = isBlank := funext fun c => isCoarse_isBlank.alike (ρ.alike_letter c)
  rw [trimEnd, trimEnd, ← List.map_reverse, List.dropWhile_map, same, List.map_reverse]

theorem isCoarse_isGap : IsCoarse (· == ' ') :=
  isCoarse_of_letters false (fun c letter => beq_false_of_ne (ne_of_isAlpha letter (by decide))) (by decide)

variable {ρ}

namespace IsLine

variable {line line' : List Char}

theorem untab (h : ρ.IsLine line line') : ρ.IsLine (untab line) (untab line') := by
  obtain ⟨noBreak, tail, ends, rfl⟩ := h
  refine ⟨not_mem_untab noBreak, tail, ends, ?_⟩
  rw [← ρ.untab_text, ShaderText.untab, List.map_append]
  rcases ends with rfl | rfl <;> rfl

theorem isBlankText_eq (h : ρ.IsLine line line') : isBlankText line' = isBlankText line := by
  obtain ⟨noBreak, tail, ends, rfl⟩ := h
  rw [isBlankText, List.all_append, ρ.all_text isCoarse_isBlank]
  rcases ends with rfl | rfl
  · simp [isBlankText]
  · simp [isBlankText, show isBlank '\r' from by decide]

theorem indentOf_eq (h : ρ.IsLine line line') : indentOf line' = indentOf line := by
  obtain ⟨noBreak, tail, ends, rfl⟩ := h
  have front : (ρ.text line ++ tail).takeWhile (· == ' ') = ρ.text (line.takeWhile (· == ' ')) := by
    rw [← ρ.takeWhile_text isCoarse_isGap]
    rcases ends with rfl | rfl
    · rw [List.append_nil]
    · rw [List.takeWhile_append]
      split
      · rename_i all
        have same := (List.takeWhile_prefix (· == ' ') (l := ρ.text line)).eq_of_length all
        simp [same]
      · rfl
  have noBreak' : '\n' ∉ line.takeWhile (· == ' ') := fun member =>
    noBreak ((List.takeWhile_prefix _).subset member)
  rw [indentOf, indentOf, front, ρ.text_eq_map noBreak', List.length_map]

theorem outdent_eq (h : ρ.IsLine line line') (indent : Nat) :
    outdent indent line' = ρ.text (outdent indent line) := by
  have blank := h.isBlankText_eq
  obtain ⟨noBreak, tail, ends, rfl⟩ := h
  have blankTail : isBlankText (tail.drop (indent - (ρ.text line).length)) := by
    refine List.all_eq_true.mpr fun c member => ?_
    have inside := List.mem_of_mem_drop member
    rcases ends with rfl | rfl
    · simp at inside
    · rw [List.mem_singleton.mp inside]
      decide
  have kept : '\n' ∉ trimEnd (line.drop indent) := fun member =>
    noBreak (List.mem_of_mem_drop ((isPrefix_trimEnd _).subset member))
  rw [outdent, outdent, blank]
  by_cases empty : isBlankText line
  · simp [empty]
  · rw [if_neg empty, if_neg empty, List.drop_append, trimEnd_append_of_isBlankText _ blankTail,
      ρ.text_eq_map noBreak, ← List.map_drop, ρ.trimEnd_map_letter, ρ.text_eq_map kept]

end IsLine

theorem sharedIndent_eq {lines lines' : List (List Char)} (h : List.Forall₂ ρ.IsLine lines lines') :
    sharedIndent lines' = sharedIndent lines := by
  have indents : (lines'.filter fun line => !isBlankText line).map indentOf =
      (lines.filter fun line => !isBlankText line).map indentOf := by
    induction h with
    | nil => rfl
    | cons first _ ih =>
      rw [List.filter_cons, List.filter_cons, first.isBlankText_eq]
      split
      · rw [List.map_cons, List.map_cons, ih, first.indentOf_eq]
      · exact ih
  rw [sharedIndent, sharedIndent, indents]

theorem align_eq {lines lines' : List (List Char)} (h : List.Forall₂ ρ.IsLine lines lines') :
    align lines' = (align lines).map ρ.text := by
  have untabbed : List.Forall₂ ρ.IsLine (lines.map untab) (lines'.map untab) := by
    rw [List.forall₂_map_left_iff, List.forall₂_map_right_iff]
    exact h.imp fun _ _ line => line.untab
  rw [align, align, sharedIndent_eq untabbed]
  generalize sharedIndent (lines.map untab) = indent
  generalize lines.map untab = before, lines'.map untab = after at untabbed
  induction untabbed with
  | nil => rfl
  | cons first _ ih => rw [List.map_cons, List.map_cons, List.map_cons, first.outdent_eq, ih]

variable (ρ)

theorem takeWhile_isInLine_text (cs : List Char) :
    ρ.IsLine (cs.takeWhile isInLine) ((ρ.text cs).takeWhile isInLine) ∧
      ((ρ.text cs).dropWhile isInLine).drop 1 = ρ.text ((cs.dropWhile isInLine).drop 1) := by
  induction cs with
  | nil => exact ⟨⟨by simp, [], .inl rfl, rfl⟩, rfl⟩
  | cons c cs ih =>
    by_cases breaks : c = '\n'
    · subst breaks
      rcases ρ.image_break with image | image
      · exact ⟨⟨by simp [isInLine], [], .inl rfl, by simp [image, isInLine]⟩, by simp [image, isInLine]⟩
      · have inLine : isInLine '\r' := by decide
        have ends : isInLine '\n' = false := by decide
        exact ⟨⟨by simp [ends], ['\r'], .inr rfl, by simp [image, inLine, ends]⟩,
          by simp [image, inLine, ends]⟩
    · have inLine : isInLine c := by simpa [isInLine] using breaks
      rcases ρ.image_alike c with ⟨rfl, -⟩ | ⟨d, image, alike⟩
      · exact absurd rfl breaks
      · have inLine' : isInLine d := by simpa [isInLine, alike.eq_iff] using breaks
        obtain ⟨⟨noBreak, tail, ends, front⟩, rest⟩ := ih
        rw [text_cons, image, List.singleton_append, List.takeWhile_cons_of_pos inLine',
          List.takeWhile_cons_of_pos inLine, List.dropWhile_cons_of_pos inLine',
          List.dropWhile_cons_of_pos inLine]
        refine ⟨⟨?_, tail, ends, ?_⟩, rest⟩
        · simp only [List.mem_cons, not_or]
          exact ⟨Ne.symm breaks, noBreak⟩
        · rw [text_cons, image, front]
          rfl

theorem programText_text (body : List Char) : programText (ρ.text body) = ρ.text (programText body) := by
  obtain ⟨first, rest⟩ := ρ.takeWhile_isInLine_text body
  rw [programText, programText, first.isBlankText_eq, rest]
  split <;> rfl

theorem dropFinalBreak_text (cs : List Char) :
    ∃ tail, (tail = [] ∨ tail = ['\r']) ∧ dropFinalBreak (ρ.text cs) = ρ.text (dropFinalBreak cs) ++ tail := by
  have ends : (ρ.text cs).getLast? = some '\n' ↔ cs.getLast? = some '\n' := ρ.getLast?_text (by decide)
  unfold dropFinalBreak
  by_cases last : cs.getLast? = some '\n'
  · rw [if_pos last, if_pos (ends.mpr last)]
    obtain ⟨front, rfl⟩ := List.getLast?_eq_some_iff.mp last
    rcases ρ.image_break with image | image
    · exact ⟨[], .inl rfl, by simp [image]⟩
    · exact ⟨['\r'], .inr rfl, by simp [image, List.dropLast_append_of_ne_nil]⟩
  · rw [if_neg last, if_neg (mt ends.mp last)]
    exact ⟨[], .inl rfl, (List.append_nil _).symm⟩

theorem unindentText_text (cs : List Char) {tail : List Char} (ends : tail = [] ∨ tail = ['\r']) :
    unindentText (ρ.text cs ++ tail) = (unindentText cs).map ρ.text := by
  rw [unindentText_eq_align, unindentText_eq_align, align_eq (ρ.splitLines_text cs ends)]

theorem programLines_of_ne_nil {body : List Char} (nonempty : programText body ≠ []) :
    programLines body = (unindentText (dropFinalBreak (programText body))).map String.ofList := by
  unfold programLines
  split
  · exact absurd ‹_› nonempty
  · rfl

theorem programLines_text (body : List Char) :
    programLines (ρ.text body) = (programLines body).map ρ.string := by
  by_cases empty : programText body = []
  · have empty' : programText (ρ.text body) = [] := by rw [ρ.programText_text, empty, ρ.text_nil]
    rw [programLines, programLines, empty, empty']
    rfl
  · have nonempty : programText (ρ.text body) ≠ [] := by
      rw [ρ.programText_text]
      exact mt ρ.text_eq_nil_iff.mp empty
    obtain ⟨tail, ends, shortened⟩ := ρ.dropFinalBreak_text (programText body)
    rw [programLines_of_ne_nil empty, programLines_of_ne_nil nonempty, ρ.programText_text, shortened,
      ρ.unindentText_text _ ends]
    simp

theorem firstWord_text (cs : List Char) : firstWord (ρ.text cs) = ρ.text (firstWord cs) := by
  unfold firstWord
  rcases ρ.dropWhile_isMargin_text cs with same | ⟨rest, here, here'⟩
  · rw [same, ρ.takeWhile_text isCoarse_not_isSpace]
  · simp [here, here', show isSpace '\n' from by decide]

theorem afterFirstWord_text {cs : List Char} (word : firstWord cs ≠ []) :
    afterFirstWord (ρ.text cs) = ρ.text (afterFirstWord cs) := by
  unfold afterFirstWord
  rcases ρ.dropWhile_isMargin_text cs with same | ⟨rest, here, -⟩
  · rw [same, ρ.afterBare_text]
  · exact absurd (by simp [firstWord, here, show isSpace '\n' from by decide]) word

theorem fromClosingLine?_of_ne_nil {closing cs : List Char} (some : cs ≠ []) :
    fromClosingLine? closing cs =
      if sameWord (firstWord cs) closing then .some cs else fromClosingLine? closing (afterLine cs) := by
  cases cs with
  | nil => exact absurd rfl some
  | cons c cs => rw [fromClosingLine?]

theorem fromClosingLine?_text (closing cs : List Char) :
    fromClosingLine? closing (ρ.text cs) = (fromClosingLine? closing cs).map ρ.text := by
  have same (line : List Char) :
      sameWord (firstWord (ρ.text line)) closing = sameWord (firstWord line) closing := by
    have single : '\n' ∉ firstWord line := not_mem_takeWhile (by decide) _
    rw [ρ.firstWord_text, ρ.sameWord_text single]
  fun_induction fromClosingLine? closing cs with
  | case1 => simp [fromClosingLine?]
  | case2 c rest closes =>
    rw [fromClosingLine?_of_ne_nil (mt ρ.text_eq_nil_iff.mp (by simp)), same, if_pos closes]
    rfl
  | case3 c rest goesOn ih =>
    rw [fromClosingLine?_of_ne_nil (mt ρ.text_eq_nil_iff.mp (by simp)), same, if_neg goesOn,
      ρ.afterLine_text, ih]

theorem firstWord_ne_nil {sentinel : Sentinel} {cs last : List Char}
    (h : fromClosingLine? sentinel.closing.toList cs = some last) : firstWord last ≠ [] := by
  intro empty
  have closes := sameWord_of_fromClosingLine? h
  rw [empty] at closes
  cases sentinel <;> exact absurd closes (by decide)

end ShaderText.Respelling
