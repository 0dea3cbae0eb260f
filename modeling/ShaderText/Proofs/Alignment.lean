import Mathlib.Data.List.DropRight
import ShaderText.Program
import ShaderText.Code

/-! Programs as lines. The text of a program is its lines, each ended by a line break, and the reader
takes the indentation off that the lines share. Main statements: spaces put in front of all lines do
not change what is read, what was read is not changed by another reading, and the lines in front of
the closing line can be told from the text.
-/
namespace ShaderText

/-- Lines, each with the line break that ends it. -/
def linesText (lines : List (List Char)) : List Char := lines.flatMap fun line => line ++ ['\n']

/-- The lines without tabs, blank ends and the indentation that they share. -/
def align (lines : List (List Char)) : List (List Char) :=
  (lines.map untab).map (outdent (sharedIndent (lines.map untab)))

def indentLine (n : Nat) (line : List Char) : List Char :=
  if line.isEmpty then [] else List.replicate n ' ' ++ line

theorem linesText_cons (line : List Char) (lines : List (List Char)) :
    linesText (line :: lines) = line ++ '\n' :: linesText lines := by
  simp [linesText]

theorem linesText_append (first second : List (List Char)) :
    linesText (first ++ second) = linesText first ++ linesText second := List.flatMap_append

theorem not_mem_untab {line : List Char} (h : '\n' ∉ line) : '\n' ∉ untab line := by
  intro member
  obtain ⟨c, inLine, equal⟩ := List.mem_map.mp member
  by_cases tab : c = '\t'
  · simp [tab] at equal
  · simp only [tab, if_false] at equal
    exact h (equal ▸ inLine)

theorem splitLines_cons_break {line : List Char} (h : '\n' ∉ line) (cs : List Char) :
    splitLines (line ++ '\n' :: cs) = line :: splitLines cs := by
  have inLine : ∀ c ∈ line, isInLine c := fun c member => by
    simp only [isInLine, bne_iff_ne]
    exact fun equal => h (equal ▸ member)
  rw [splitLines]
  have rest : (line ++ '\n' :: cs).dropWhile isInLine = '\n' :: cs := by
    rw [List.dropWhile_append_of_pos inLine, List.dropWhile_cons_of_neg (by decide)]
  have front : (line ++ '\n' :: cs).takeWhile isInLine = line := by
    rw [List.takeWhile_append_of_pos inLine, List.takeWhile_cons_of_neg (by decide), List.append_nil]
  split
  · rename_i none
    rw [rest] at none
    simp at none
  · rename_i d more some
    rw [rest] at some
    rw [front, (List.cons.inj some).2]

theorem splitLines_of_not_mem {line : List Char} (h : '\n' ∉ line) : splitLines line = [line] := by
  have inLine : ∀ c ∈ line, isInLine c := fun c member => by
    simp only [isInLine, bne_iff_ne]
    exact fun equal => h (equal ▸ member)
  rw [splitLines]
  have rest : line.dropWhile isInLine = [] := by
    rw [List.dropWhile_eq_nil_iff]
    exact inLine
  split
  · rfl
  · rename_i some
    rw [rest] at some
    simp at some

theorem splitLines_joinLines {lines : List (List Char)} (some : lines ≠ [])
    (h : ∀ line ∈ lines, '\n' ∉ line) : splitLines (joinLines lines) = lines := by
  fun_induction joinLines lines with
  | case1 => exact absurd rfl some
  | case2 line => exact splitLines_of_not_mem (h line List.mem_cons_self)
  | case3 line lines nonempty ih =>
    rw [splitLines_cons_break (h line List.mem_cons_self),
      ih nonempty fun other member => h other (List.mem_cons_of_mem _ member)]

theorem linesText_eq_joinLines {lines : List (List Char)} (some : lines ≠ []) :
    linesText lines = joinLines lines ++ ['\n'] := by
  fun_induction joinLines lines with
  | case1 => exact absurd rfl some
  | case2 line => simp [linesText]
  | case3 line lines nonempty ih => rw [linesText_cons, ih nonempty, List.append_assoc, List.cons_append]

theorem untab_joinLines (lines : List (List Char)) :
    untab (joinLines lines) = joinLines (lines.map untab) := by
  fun_induction joinLines lines with
  | case1 => rfl
  | case2 line => rfl
  | case3 line lines nonempty ih =>
    cases lines with
    | nil => exact absurd rfl nonempty
    | cons next lines =>
      have after : joinLines ((line :: next :: lines).map untab) =
          untab line ++ '\n' :: joinLines ((next :: lines).map untab) := rfl
      rw [after, ← ih]
      simp [untab]

theorem unindentText_joinLines {lines : List (List Char)} (some : lines ≠ [])
    (h : ∀ line ∈ lines, '\n' ∉ line) : unindentText (joinLines lines) = align lines := by
  have untabbed : ∀ line ∈ lines.map untab, '\n' ∉ line := fun line member => by
    obtain ⟨raw, inLines, rfl⟩ := List.mem_map.mp member
    exact not_mem_untab (h raw inLines)
  unfold unindentText align
  rw [untab_joinLines, splitLines_joinLines (by simpa using some) untabbed]

theorem unindent_joinLines {lines : List (List Char)} (some : lines ≠ []) (h : ∀ line ∈ lines, '\n' ∉ line) :
    unindent (String.ofList (joinLines lines)) = (align lines).map String.ofList := by
  rw [unindent, String.toList_ofList, unindentText_joinLines some h]

theorem programText_linesText {opening : List Char} (h : '\n' ∉ opening) (lines : List (List Char)) :
    programText (linesText (opening :: lines)) =
      linesText (if isBlankText opening then lines else opening :: lines) := by
  have inLine : ∀ c ∈ opening, isInLine c := fun c member => by
    simp only [isInLine, bne_iff_ne]
    exact fun equal => h (equal ▸ member)
  have front : (linesText (opening :: lines)).takeWhile isInLine = opening := by
    rw [linesText_cons, List.takeWhile_append_of_pos inLine, List.takeWhile_cons_of_neg (by decide), List.append_nil]
  have rest : (linesText (opening :: lines)).dropWhile isInLine = '\n' :: linesText lines := by
    rw [linesText_cons, List.dropWhile_append_of_pos inLine, List.dropWhile_cons_of_neg (by decide)]
  rw [programText, front, rest]
  split <;> rfl

theorem programLines_of_programText {body : List Char} {lines : List (List Char)}
    (text : programText body = linesText lines) (h : ∀ line ∈ lines, '\n' ∉ line) :
    programLines body = (align lines).map String.ofList := by
  unfold programLines
  rw [text]
  by_cases none : lines = []
  · subst none
    rfl
  · have ended := linesText_eq_joinLines none
    split
    · rename_i empty
      rw [empty] at ended
      simp at ended
    · rw [ended, dropFinalBreak, List.getLast?_concat, if_pos rfl, List.dropLast_concat,
        unindentText_joinLines none h]

theorem programLines_linesText {lines : List (List Char)} (h : ∀ line ∈ lines, '\n' ∉ line) :
    programLines ('\n' :: linesText lines) = (align lines).map String.ofList := by
  apply programLines_of_programText _ h
  exact programText_linesText List.not_mem_nil lines

theorem unindentText_eq_align (text : List Char) : unindentText text = align (splitLines text) := by
  conv => lhs; rw [← joinLines_splitLines text]
  exact unindentText_joinLines (splitLines_ne_nil text) fun line member =>
    not_mem_of_mem_splitLines member

theorem exists_align_of_programLines (body : List Char) :
    ∃ lines : List (List Char), (∀ line ∈ lines, '\n' ∉ line) ∧
      programLines body = (align lines).map String.ofList := by
  unfold programLines
  split
  · exact ⟨[], by simp, rfl⟩
  · exact ⟨_, fun line member => not_mem_of_mem_splitLines member, by rw [unindentText_eq_align]⟩

theorem length_align (lines : List (List Char)) : (align lines).length = lines.length := by
  simp [align]

theorem isBlankText_spaces (n : Nat) (line : List Char) :
    isBlankText (List.replicate n ' ' ++ line) = isBlankText line := by
  have blank : isBlank ' ' = true := by decide
  simp [isBlankText, List.all_append, List.all_replicate, blank]

theorem indentOf_spaces (n : Nat) (line : List Char) :
    indentOf (List.replicate n ' ' ++ line) = n + indentOf line := by
  induction n with
  | zero => simp
  | succ n ih =>
    rw [List.replicate_succ, List.cons_append]
    simp only [indentOf, List.takeWhile_cons, beq_self_eq_true, if_true, List.length_cons] at *
    omega

theorem untab_indentLine (n : Nat) (line : List Char) :
    untab (indentLine n line) = indentLine n (untab line) := by
  cases line <;> simp [untab, indentLine]

theorem isBlankText_indentLine (n : Nat) (line : List Char) :
    isBlankText (indentLine n line) = isBlankText line := by
  unfold indentLine
  split
  · rename_i empty
    rw [List.isEmpty_iff.mp empty]
  · exact isBlankText_spaces n line

theorem not_mem_indentLine {line : List Char} (h : '\n' ∉ line) (n : Nat) : '\n' ∉ indentLine n line := by
  intro member
  unfold indentLine at member
  split at member
  · simp at member
  · rcases List.mem_append.mp member with space | inLine
    · exact absurd (List.eq_of_mem_replicate space) (by decide)
    · exact h inLine

theorem min?_map_add (n : Nat) (ks : List Nat) : (ks.map (n + ·)).min? = ks.min?.map (n + ·) := by
  cases ks with
  | nil => rfl
  | cons k ks =>
    simp only [List.map_cons, List.min?_cons', Option.map_some, Option.some.injEq]
    induction ks generalizing k with
    | nil => rfl
    | cons j ks ih =>
      simp only [List.map_cons, List.foldl_cons]
      rw [← ih, Nat.add_min_add_left]

/-- Spaces put in front of every line that is not blank are cut off again with the shared indentation. -/
theorem outdent_sharedIndent_deepened {n : Nat} {deepen : List Char → List Char}
    (blanks : ∀ line, isBlankText (deepen line) = isBlankText line)
    (deeper : ∀ line, isBlankText line = false → deepen line = List.replicate n ' ' ++ line)
    (lines : List (List Char)) :
    (lines.map deepen).map (outdent (sharedIndent (lines.map deepen))) =
      lines.map (outdent (sharedIndent lines)) := by
  have filled : (lines.map deepen).filter (fun line => !isBlankText line) =
      (lines.filter fun line => !isBlankText line).map deepen := by
    rw [List.filter_map]
    simp only [Function.comp_def, blanks]
  have indents : ((lines.filter fun line => !isBlankText line).map deepen).map indentOf =
      ((lines.filter fun line => !isBlankText line).map indentOf).map (n + ·) := by
    rw [List.map_map, List.map_map]
    refine List.map_congr_left fun line member => ?_
    have kept : isBlankText line = false := by simpa using (List.mem_filter.mp member).2
    rw [Function.comp_apply, Function.comp_apply, deeper line kept, indentOf_spaces]
  rw [List.map_map]
  refine List.map_congr_left fun line member => ?_
  rw [Function.comp_apply]
  by_cases blank : isBlankText line = true
  · simp [outdent, blanks, blank]
  · have shared : sharedIndent (lines.map deepen) = n + sharedIndent lines := by
      unfold sharedIndent
      rw [filled, indents, min?_map_add]
      cases smallest : ((lines.filter fun line => !isBlankText line).map indentOf).min? with
      | some k => rfl
      | none =>
        have none := List.min?_eq_none_iff.mp smallest
        have kept : line ∈ lines.filter fun line => !isBlankText line :=
          List.mem_filter.mpr ⟨member, by simpa using blank⟩
        rw [List.map_eq_nil_iff.mp none] at kept
        simp at kept
    have dropped : (deepen line).drop (n + sharedIndent lines) = line.drop (sharedIndent lines) := by
      rw [deeper line (by simpa using blank), ← List.drop_drop, List.drop_left' (by simp)]
    simp [outdent, blanks, blank, shared, dropped]

theorem outdent_sharedIndent_indentLine (n : Nat) (lines : List (List Char)) :
    (lines.map (indentLine n)).map (outdent (sharedIndent (lines.map (indentLine n)))) =
      lines.map (outdent (sharedIndent lines)) := by
  apply outdent_sharedIndent_deepened (isBlankText_indentLine n)
  intro line filled
  have some : line ≠ [] := by
    rintro rfl
    simp [isBlankText] at filled
  rw [indentLine, if_neg (by simpa using some)]

theorem align_indentLine (n : Nat) (lines : List (List Char)) :
    align (lines.map (indentLine n)) = align lines := by
  have untabbed : (lines.map (indentLine n)).map untab = (lines.map untab).map (indentLine n) := by
    simp [untab_indentLine]
  unfold align
  rw [untabbed, outdent_sharedIndent_indentLine]

theorem trimEnd_trimEnd (cs : List Char) : trimEnd (trimEnd cs) = trimEnd cs :=
  List.rdropWhile_idempotent isBlank cs

theorem isPrefix_trimEnd (cs : List Char) : trimEnd cs <+: cs := List.rdropWhile_prefix isBlank cs

theorem isBlankText_trimEnd (cs : List Char) : isBlankText (trimEnd cs) = isBlankText cs := by
  obtain ⟨tail, blank, split⟩ := trimEnd_append_blank cs
  conv => rhs; rw [split]
  rw [isBlankText, isBlankText, List.all_append, show tail.all isBlank = true from blank, Bool.and_true]

theorem drop_indentOf (line : List Char) : line.drop (indentOf line) = line.dropWhile (· == ' ') := by
  have width : (line.takeWhile (· == ' ')).length = indentOf line := rfl
  conv => lhs; arg 2; rw [← List.takeWhile_append_dropWhile (p := (· == ' ')) (l := line)]
  exact List.drop_left' width

theorem eq_spaces_append_drop {k : Nat} {line : List Char} (h : k ≤ indentOf line) :
    line = List.replicate k ' ' ++ line.drop k := by
  have front := List.prefix_iff_eq_take.mp (List.takeWhile_prefix (l := line) (· == ' '))
  have spaces : line.takeWhile (· == ' ') = List.replicate (indentOf line) ' ' := by
    refine List.eq_replicate_iff.mpr ⟨rfl, fun c member => ?_⟩
    simpa using List.all_eq_true.mp (List.all_takeWhile (p := (· == ' ')) (l := line)) c member
  have cut : line.take k = List.replicate k ' ' := by
    have shorter := congrArg (List.take k) (front.symm.trans spaces)
    rw [List.take_take, List.take_replicate, Nat.min_eq_left h] at shorter
    rwa [show min k (line.takeWhile (· == ' ')).length = k from Nat.min_eq_left h] at shorter
  rw [← cut, List.take_append_drop]

theorem sharedIndent_le {lines : List (List Char)} {line : List Char} (member : line ∈ lines)
    (h : isBlankText line = false) : sharedIndent lines ≤ indentOf line := by
  have kept : indentOf line ∈ (lines.filter fun line => !isBlankText line).map indentOf :=
    List.mem_map_of_mem (List.mem_filter.mpr ⟨member, by simp [h]⟩)
  unfold sharedIndent
  cases smallest : ((lines.filter fun line => !isBlankText line).map indentOf).min? with
  | none => exact Nat.zero_le _
  | some k => exact (List.min?_eq_some_iff.mp smallest).2 _ kept

theorem exists_indentOf_eq_sharedIndent {lines : List (List Char)} {line : List Char} (member : line ∈ lines)
    (h : isBlankText line = false) :
    ∃ least ∈ lines, isBlankText least = false ∧ indentOf least = sharedIndent lines := by
  have kept : indentOf line ∈ (lines.filter fun line => !isBlankText line).map indentOf :=
    List.mem_map_of_mem (List.mem_filter.mpr ⟨member, by simp [h]⟩)
  cases smallest : ((lines.filter fun line => !isBlankText line).map indentOf).min? with
  | none =>
    rw [List.min?_eq_none_iff.mp smallest] at kept
    simp at kept
  | some k =>
    obtain ⟨least, inFilled, rfl⟩ := List.mem_map.mp (List.min?_mem smallest)
    obtain ⟨inLines, filled⟩ := List.mem_filter.mp inFilled
    refine ⟨least, inLines, by simpa using filled, ?_⟩
    rw [sharedIndent, smallest, Option.getD_some]

theorem isBlankText_outdent {k : Nat} {line : List Char} (h : isBlankText line = false)
    (far : k ≤ indentOf line) : isBlankText (outdent k line) = false := by
  have split := eq_spaces_append_drop far
  rw [outdent, if_neg (by simp [h]), isBlankText_trimEnd, ← h]
  conv => rhs; rw [split]
  rw [isBlankText_spaces]

theorem indentOf_outdent {line : List Char} (h : isBlankText line = false) :
    indentOf (outdent (indentOf line) line) = 0 := by
  have filled := isBlankText_outdent h (Nat.le_refl _)
  have front : outdent (indentOf line) line <+: line.dropWhile (· == ' ') := by
    rw [outdent, if_neg (by simp [h]), drop_indentOf]
    exact isPrefix_trimEnd _
  cases out : outdent (indentOf line) line with
  | nil => simp [out, isBlankText] at filled
  | cons c rest =>
    rw [out] at front
    obtain ⟨tail, whole⟩ := front
    have head := List.head_dropWhile_not (p := (· == ' ')) (l := line) (by
      rw [← whole]
      simp)
    simp only [← whole, List.cons_append, List.head_cons] at head
    simp [indentOf, head]

theorem sharedIndent_outdent (lines : List (List Char)) :
    sharedIndent (lines.map (outdent (sharedIndent lines))) = 0 := by
  by_cases some : ∃ line ∈ lines, isBlankText line = false
  · obtain ⟨line, member, filled⟩ := some
    obtain ⟨least, inLines, filled, indent⟩ := exists_indentOf_eq_sharedIndent member filled
    rw [← indent]
    have zero := sharedIndent_le (List.mem_map_of_mem (f := outdent (indentOf least)) inLines)
      (isBlankText_outdent filled (Nat.le_refl _))
    rw [indentOf_outdent filled] at zero
    exact Nat.le_zero.mp zero
  · have blank : ∀ line ∈ lines, isBlankText line := by simpa using some
    have empty : (lines.map (outdent (sharedIndent lines))).filter (fun line => !isBlankText line) =
      [] := by
      refine List.filter_eq_nil_iff.mpr fun line member => ?_
      obtain ⟨raw, inLines, rfl⟩ := List.mem_map.mp member
      rw [outdent, if_pos (blank raw inLines)]
      decide
    rw [sharedIndent, empty]
    rfl

theorem outdent_zero_outdent (k : Nat) (line : List Char) :
    outdent 0 (outdent k line) = outdent k line := by
  by_cases blank : isBlankText line = true
  · have empty : outdent k line = [] := by rw [outdent, if_pos blank]
    rw [empty]
    rfl
  · have out : outdent k line = trimEnd (line.drop k) := by simp [outdent, blank]
    rw [out, outdent, isBlankText_trimEnd, List.drop_zero, trimEnd_trimEnd]
    split
    · rename_i empty
      exact (List.rdropWhile_eq_nil_iff.mpr fun c member => List.all_eq_true.mp empty c member).symm
    · rfl

theorem outdent_subset (k : Nat) (line : List Char) : outdent k line ⊆ line := by
  unfold outdent
  split
  · exact List.nil_subset _
  · exact List.Subset.trans (isPrefix_trimEnd _).subset (List.drop_subset k line)

theorem untab_eq_self {line : List Char} (h : '\t' ∉ line) : untab line = line := by
  unfold untab
  conv => rhs; rw [← List.map_id line]
  refine List.map_congr_left fun c member => ?_
  have other : c ≠ '\t' := fun equal => h (equal ▸ member)
  simp [other]

theorem not_mem_untab_tab (line : List Char) : '\t' ∉ untab line := by
  intro member
  obtain ⟨c, -, equal⟩ := List.mem_map.mp member
  by_cases tab : c = '\t' <;> simp [tab] at equal

theorem align_align (lines : List (List Char)) : align (align lines) = align lines := by
  have untabbed : (align lines).map untab = align lines := by
    conv => rhs; rw [← List.map_id (align lines)]
    refine List.map_congr_left fun line member => ?_
    obtain ⟨raw, inLines, rfl⟩ := List.mem_map.mp member
    obtain ⟨source, -, rfl⟩ := List.mem_map.mp inLines
    exact untab_eq_self fun tab => not_mem_untab_tab source (outdent_subset _ _ tab)
  have shared : sharedIndent (align lines) = 0 := sharedIndent_outdent (lines.map untab)
  have again : align (align lines) =
      ((align lines).map untab).map (outdent (sharedIndent ((align lines).map untab))) := rfl
  rw [again, untabbed, shared, align, List.map_map]
  exact List.map_congr_left fun line _ => outdent_zero_outdent _ line

theorem not_mem_align {lines : List (List Char)} (h : ∀ line ∈ lines, '\n' ∉ line) :
    ∀ line ∈ align lines, '\n' ∉ line := by
  intro line member
  obtain ⟨raw, inLines, rfl⟩ := List.mem_map.mp member
  obtain ⟨source, inSource, rfl⟩ := List.mem_map.mp inLines
  exact fun break_ => not_mem_untab (h source inSource) (outdent_subset _ _ break_)

theorem firstWord_spaces (n : Nat) (line : List Char) :
    firstWord (List.replicate n ' ' ++ line) = firstWord line := by
  unfold firstWord
  rw [List.dropWhile_append_of_pos fun c member => by rw [List.eq_of_mem_replicate member]; decide]

theorem firstWord_indentLine (n : Nat) (line : List Char) :
    firstWord (indentLine n line) = firstWord line := by
  cases line with
  | nil => rfl
  | cons c line => exact firstWord_spaces n (c :: line)

theorem firstWord_append_break {line : List Char} (h : '\n' ∉ line) (cs : List Char) :
    firstWord (line ++ '\n' :: cs) = firstWord line := by
  unfold firstWord
  induction line with
  | nil => rfl
  | cons c line ih =>
    simp only [List.mem_cons, not_or] at h
    by_cases margin : isMargin c = true
    · rw [List.cons_append, List.dropWhile_cons_of_pos margin, List.dropWhile_cons_of_pos margin]
      exact ih h.2
    · rw [List.cons_append, List.dropWhile_cons_of_neg margin, List.dropWhile_cons_of_neg margin,
        ← List.cons_append]
      have ended (front : List Char) : (front ++ '\n' :: cs).takeWhile (fun c => !isSpace c) =
          front.takeWhile fun c => !isSpace c := by
        induction front with
        | nil => rfl
        | cons d front ih =>
          by_cases space : isSpace d = true
          · simp [space]
          · simp [space, ih]
      exact ended _

theorem afterLine_append_break {line : List Char} (h : '\n' ∉ line) (cs : List Char) :
    afterLine (line ++ '\n' :: cs) = cs := by
  induction line with
  | nil => rfl
  | cons c line ih =>
    simp only [List.mem_cons, not_or] at h
    rw [List.cons_append, afterLine, if_neg (Ne.symm h.1)]
    exact ih h.2

theorem fromClosingLine?_append {closing : List Char} {lines : List (List Char)} (last : List Char)
    (h : ∀ line ∈ lines, '\n' ∉ line ∧ sameWord (firstWord line) closing = false) :
    fromClosingLine? closing (linesText lines ++ last) = fromClosingLine? closing last := by
  induction lines with
  | nil => rfl
  | cons line lines ih =>
    obtain ⟨single, other⟩ := h line List.mem_cons_self
    have later := ih fun next member => h next (List.mem_cons_of_mem _ member)
    rw [linesText_cons, List.append_assoc, List.cons_append]
    generalize linesText lines ++ last = text at *
    have past := afterLine_append_break single text
    have word := firstWord_append_break single text
    cases whole : line ++ '\n' :: text with
    | nil => simp at whole
    | cons c cs =>
      rw [fromClosingLine?, ← whole, word, other, past, if_neg (by simp)]
      exact later

theorem exists_linesText_of_fromClosingLine? {closing cs last : List Char}
    (h : fromClosingLine? closing cs = some last) :
    ∃ lines : List (List Char), cs = linesText lines ++ last ∧
      ∀ line ∈ lines, '\n' ∉ line ∧ sameWord (firstWord line) closing = false := by
  fun_induction fromClosingLine? closing cs with
  | case1 => simp at h
  | case2 => exact ⟨[], by rw [Option.some.inj h]; rfl, by simp⟩
  | case3 c rest other ih =>
    obtain ⟨lines, split, plain⟩ := ih h
    have single := not_mem_takeWhile_isInLine (c :: rest)
    cases tail : (c :: rest).dropWhile isInLine with
    | nil =>
      have noBreak : '\n' ∉ c :: rest := by
        have whole := List.takeWhile_append_dropWhile (p := isInLine) (l := c :: rest)
        rw [tail, List.append_nil] at whole
        rwa [whole] at single
      have ends : afterLine (c :: rest) = [] := by
        have none (cs : List Char) (h : '\n' ∉ cs) : afterLine cs = [] := by
          induction cs with
          | nil => rfl
          | cons d cs ih =>
            simp only [List.mem_cons, not_or] at h
            rw [afterLine, if_neg (Ne.symm h.1)]
            exact ih h.2
        exact none _ noBreak
      rw [ends] at h
      simp [fromClosingLine?] at h
    | cons d more =>
      have whole := List.takeWhile_append_dropWhile (p := isInLine) (l := c :: rest)
      have break_ : d = '\n' := by
        have := List.head_dropWhile_not (p := isInLine) (l := c :: rest) (by simp [tail])
        simpa [tail, isInLine] using this
      rw [tail, break_] at whole
      rw [← whole, afterLine_append_break single] at split
      rw [← whole, firstWord_append_break single] at other
      refine ⟨(c :: rest).takeWhile isInLine :: lines, ?_, ?_⟩
      · rw [linesText_cons, List.append_assoc, List.cons_append, ← split, whole]
      · intro line member
        rcases List.mem_cons.mp member with rfl | member
        · exact ⟨single, by simpa using other⟩
        · exact plain line member

theorem fromClosingLine?_here {closing : List Char} {space : Char} (n : Nat) (rest : List Char)
    (some : closing ≠ []) (word : ∀ c ∈ closing, isSpace c = false) (separates : isSpace space) :
    fromClosingLine? closing (List.replicate n ' ' ++ (closing ++ space :: rest)) =
        Option.some (List.replicate n ' ' ++ (closing ++ space :: rest)) ∧
      afterFirstWord (List.replicate n ' ' ++ (closing ++ space :: rest)) = space :: rest := by
  have margin : ∀ c ∈ List.replicate n ' ', isMargin c := fun c member => by
    rw [List.eq_of_mem_replicate member]
    decide
  have bare : ∀ c ∈ closing, (!isSpace c) = true := fun c member => by simp [word c member]
  have flush : (List.replicate n ' ' ++ (closing ++ space :: rest)).dropWhile isMargin =
      closing ++ space :: rest := by
    rw [List.dropWhile_append_of_pos margin]
    cases closing with
    | nil => exact absurd rfl some
    | cons c closing =>
      have head := word c List.mem_cons_self
      rw [List.cons_append, List.dropWhile_cons_of_neg (by simp [isMargin, head])]
  have first : firstWord (List.replicate n ' ' ++ (closing ++ space :: rest)) = closing := by
    rw [firstWord, flush, List.takeWhile_append_of_pos bare, List.takeWhile_cons_of_neg (by simp [separates]),
      List.append_nil]
  constructor
  · cases whole : List.replicate n ' ' ++ (closing ++ space :: rest) with
    | nil => simp [some] at whole
    | cons c cs =>
      rw [whole] at first
      rw [fromClosingLine?, first]
      simp [sameWord]
  · rw [afterFirstWord, flush, afterBare, List.dropWhile_append_of_pos bare,
      List.dropWhile_cons_of_neg (by simp [separates])]

theorem linesText_inj {first second : List (List Char)} {cs ds : List Char}
    (h : linesText first ++ cs = linesText second ++ ds) (length : first.length = second.length)
    (single : ∀ line ∈ first, '\n' ∉ line) (single' : ∀ line ∈ second, '\n' ∉ line) :
    first = second ∧ cs = ds := by
  induction first generalizing second with
  | nil =>
    obtain rfl := List.length_eq_zero_iff.mp length.symm
    exact ⟨rfl, h⟩
  | cons line first ih =>
    cases second with
    | nil => simp at length
    | cons line' second =>
      rw [linesText_cons, linesText_cons, List.append_assoc, List.append_assoc, List.cons_append,
        List.cons_append] at h
      have here := single line List.mem_cons_self
      have here' := single' line' List.mem_cons_self
      have rest : linesText first ++ cs = linesText second ++ ds := by
        have := congrArg afterLine h
        rwa [afterLine_append_break here, afterLine_append_break here'] at this
      rw [rest] at h
      obtain rfl := List.append_cancel_right h
      obtain ⟨rfl, rfl⟩ := ih rest (by simpa using length)
        (fun other member => single other (List.mem_cons_of_mem _ member))
        fun other member => single' other (List.mem_cons_of_mem _ member)
      exact ⟨rfl, rfl⟩

end ShaderText
