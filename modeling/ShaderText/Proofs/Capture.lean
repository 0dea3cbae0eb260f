import ShaderText.Proofs.Bytewise.Program
import ShaderText.Proofs.Tiling

/-! What a program holds. The text behind its opening word is taken line by line, and the program ends in
front of the first later line whose first word is the closing word. Main statement: when a program is
found, which text it is, where its closing word ends, and which lines are read from it.
-/
namespace ShaderText

open Bytewise

/-- Whether a line ends the programs of a sentinel. -/
def Sentinel.closes (sentinel : Sentinel) (line : List Char) : Bool :=
  sameWord (firstWord line) sentinel.closing.toList

theorem joinLines_append (before : List (List Char)) {after : List (List Char)} (some : after ≠ []) :
    joinLines (before ++ after) = linesText before ++ joinLines after := by
  induction before with
  | nil => rfl
  | cons line before ih =>
    rw [linesText_cons, List.append_assoc, List.cons_append, List.cons_append, joinLines, ih]
    intro none
    exact some (List.append_eq_nil_iff.mp none).2

theorem afterLine_joinLines {lines : List (List Char)} (h : ∀ line ∈ lines, '\n' ∉ line) :
    afterLine (joinLines lines) = joinLines lines.tail := by
  fun_cases joinLines lines with
  | case1 => rfl
  | case2 line =>
    have only := afterLine_append (h line List.mem_cons_self) []
    rwa [List.append_nil] at only
  | case3 line lines nonempty => exact afterLine_append_break (h line List.mem_cons_self) _

theorem takeWhile_joinLines {p : Char → Bool} (stops : p '\n' = false) (line : List Char)
    (after : List (List Char)) : (joinLines (line :: after)).takeWhile p = line.takeWhile p := by
  cases after with
  | nil => rfl
  | cons next after =>
    rw [joinLines, List.takeWhile_append, List.takeWhile_cons_of_neg (by simp [stops]), List.append_nil]
    · split
      · rename_i whole
        exact ((List.takeWhile_prefix p).eq_of_length whole).symm
      · rfl
    · simp

theorem firstWord_joinLines {line : List Char} (h : '\n' ∉ line) (after : List (List Char)) :
    firstWord (joinLines (line :: after)) = firstWord line := by
  cases after with
  | nil => rfl
  | cons next after =>
    rw [joinLines]
    · exact firstWord_append_break h _
    · simp

theorem append_afterFirstWord (line : List Char) :
    line = line.takeWhile isMargin ++ firstWord line ++ afterFirstWord line := by
  rw [firstWord, afterFirstWord, afterBare, List.append_assoc, List.takeWhile_append_dropWhile,
    List.takeWhile_append_dropWhile]

section Closing

variable {sentinel : Sentinel} {before : List (List Char)}

theorem fromClosingLine?_joinLines_eq_none
    (h : ∀ line ∈ before, '\n' ∉ line ∧ sentinel.closes line = false) :
    fromClosingLine? sentinel.closing.toList (joinLines before) = none := by
  cases before using List.reverseRecOn with
  | nil => rw [joinLines, fromClosingLine?]
  | append_singleton before last =>
    obtain ⟨single, other⟩ := h last (by simp)
    rw [joinLines_append before (List.cons_ne_nil last []),
      fromClosingLine?_append _ fun line member => h line (List.mem_append_left _ member), joinLines]
    have ends := afterLine_append single []
    rw [List.append_nil] at ends
    cases last with
    | nil => rw [fromClosingLine?]
    | cons c last =>
      rw [fromClosingLine?, ends, if_neg (by simpa [Sentinel.closes] using other), afterLine, fromClosingLine?]

theorem fromClosingLine?_joinLines {closing : List Char} {after : List (List Char)}
    (h : ∀ line ∈ before, '\n' ∉ line ∧ sentinel.closes line = false) (single : '\n' ∉ closing)
    (closes : sentinel.closes closing) :
    fromClosingLine? sentinel.closing.toList (joinLines (before ++ closing :: after)) =
      some (joinLines (closing :: after)) := by
  rw [joinLines_append before (List.cons_ne_nil closing after), fromClosingLine?_append _ h]
  have word := firstWord_joinLines single after
  cases begins : joinLines (closing :: after) with
  | nil =>
    -- a closing word has letters
    rw [begins] at word
    rw [Sentinel.closes, ← word] at closes
    cases sentinel <;> exact absurd closes (by decide)
  | cons c rest =>
    rw [fromClosingLine?, ← begins, word]
    exact if_pos closes

theorem isSome_fromClosingLine?_joinLines {lines : List (List Char)} (single : ∀ line ∈ lines, '\n' ∉ line) :
    (fromClosingLine? sentinel.closing.toList (joinLines lines)).isSome ↔
      ∃ line ∈ lines, sentinel.closes line := by
  constructor
  · intro found
    by_contra open_
    have plain : ∀ line ∈ lines, '\n' ∉ line ∧ sentinel.closes line = false :=
      fun line member => ⟨single line member, by simpa using fun closes => open_ ⟨line, member, closes⟩⟩
    rw [fromClosingLine?_joinLines_eq_none plain] at found
    contradiction
  · intro closed
    obtain ⟨closing, hit⟩ := Option.isSome_iff_exists.mp (List.find?_isSome.mpr closed)
    obtain ⟨closes, before, after, rfl, other⟩ := List.find?_eq_some_iff_append.mp hit
    have plain : ∀ line ∈ before, '\n' ∉ line ∧ sentinel.closes line = false :=
      fun line member => ⟨single line (by simp [member]), by simpa using other line member⟩
    rw [fromClosingLine?_joinLines plain (single closing (by simp)) closes]
    rfl

end Closing

/-- The program behind an opening word, if a closing line starts in front of a bound and of the end. -/
def programEnd? (document : String) (sentinel : Sentinel) (start bound : Nat) : Option (Option (List Char × Nat)) :=
  scanProgram? document sentinel start (min bound (byteSize document.toList))

theorem scanProgram?_of_le (document : String) (sentinel : Sentinel) {start stop : Nat} (h : stop ≤ start) :
    scanProgram? document sentinel start stop = some none := by
  rw [scanProgram?, skipLine?, if_neg (by omega), Option.bind_eq_bind, Option.bind_some, closingLine?,
    if_neg (by omega)]
  rfl

theorem stretch_of_le (text : List Char) {start stop : Nat} (h : stop ≤ start) : stretch text start stop = [] := by
  rw [stretch, Region.within, Span.between, Nat.sub_eq_zero_of_le h]
  exact eq_nil_of_byteSize_le (byteSize_takeBytes_le 0 _)

/-- Between two places between characters, the program is the one in front of the closing line. -/
theorem scanProgram?_eq_fromClosingLine? {document : String} (sentinel : Sentinel) {start stop : Nat}
    {lines : List (List Char)} (spans : Spans document.toList start (joinLines lines) stop)
    (single : ∀ line ∈ lines, '\n' ∉ line) :
    scanProgram? document sentinel start stop =
      some ((fromClosingLine? sentinel.closing.toList (joinLines lines.tail)).map fun last =>
        ((Region.upTo ⟨start, joinLines lines⟩ last).chars, stop - byteSize (afterFirstWord last))) := by
  obtain ⟨lies, place⟩ := spans.liesIn
  have found := scanProgram?_eq lies sentinel
  rw [place, Program.first?, afterLine_joinLines single] at found
  rw [found]
  cases fromClosingLine? sentinel.closing.toList (joinLines lines.tail) with
  | none => rfl
  | some last => simp [Region.onward, place]

theorem scanProgram?_of_closes {document : String} {sentinel : Sentinel} {start stop : Nat}
    {opening closing : List Char} {before after : List (List Char)}
    (spans : Spans document.toList start (joinLines (opening :: (before ++ closing :: after))) stop)
    (single : ∀ line ∈ opening :: (before ++ closing :: after), '\n' ∉ line)
    (other : ∀ line ∈ before, sentinel.closes line = false) (closes : sentinel.closes closing) :
    scanProgram? document sentinel start stop =
      some (some (linesText (opening :: before), start + byteSize (linesText (opening :: before)) +
        byteSize (closing.takeWhile isMargin ++ firstWord closing))) := by
  have single' : '\n' ∉ closing := single closing (by simp)
  have plain : ∀ line ∈ before, '\n' ∉ line ∧ sentinel.closes line = false :=
    fun line member => ⟨single line (by simp [member]), other line member⟩
  have cut := append_afterFirstWord (joinLines (closing :: after))
  rw [takeWhile_joinLines (by decide), firstWord_joinLines single'] at cut
  have split : joinLines (opening :: (before ++ closing :: after)) =
      linesText (opening :: before) ++ joinLines (closing :: after) :=
    joinLines_append (opening :: before) (List.cons_ne_nil closing after)
  have stop_eq := spans.stop_eq
  rw [split, byteSize_append, cut, byteSize_append] at stop_eq
  rw [scanProgram?_eq_fromClosingLine? sentinel spans single, List.tail_cons,
    fromClosingLine?_joinLines plain single' closes, Option.map_some, split, Region.upTo_append]
  congr
  omega

theorem programLines_linesText_cons {opening : List Char} {before : List (List Char)}
    (h : ∀ line ∈ opening :: before, '\n' ∉ line) :
    programLines (linesText (opening :: before)) =
      if isBlankText opening then
        if before = [] then [] else unindent (String.ofList (joinLines before))
      else unindent (String.ofList (joinLines (opening :: before))) := by
  have text := programText_linesText (h opening List.mem_cons_self) before
  have later : ∀ line ∈ before, '\n' ∉ line := fun line member => h line (List.mem_cons_of_mem opening member)
  by_cases blank : isBlankText opening = true
  · rw [if_pos blank] at text
    rw [programLines_of_programText text later, if_pos blank]
    split
    · rename_i none
      rw [none]
      rfl
    · rename_i some
      exact (unindent_joinLines some later).symm
  · rw [if_neg blank] at text
    rw [programLines_of_programText text h, if_neg blank]
    exact (unindent_joinLines (List.cons_ne_nil opening before) h).symm

/-- A program is found exactly if one of the lines behind its first begins with the closing word. Its text goes
up to the first such line, and its lines are those in between, after what stands on the line of the opening
word unless that is blank. -/
theorem programEnd?_exact {document : String} (sentinel : Sentinel) {start bound : Nat}
    (whole : start < min bound (byteSize document.toList) →
      IsBoundary document.toList start ∧ IsBoundary document.toList (min bound (byteSize document.toList))) :
    ∃ found?, programEnd? document sentinel start bound = some found? ∧
      (found?.isSome ↔
        ∃ line ∈ (splitLines (stretch document.toList start (min bound (byteSize document.toList)))).tail,
          sentinel.closes line) ∧
      ∀ opening before closing after,
        splitLines (stretch document.toList start (min bound (byteSize document.toList))) =
          opening :: (before ++ closing :: after) →
        (∀ line ∈ before, sentinel.closes line = false) → sentinel.closes closing →
          found? = some (linesText (opening :: before), start + byteSize (linesText (opening :: before)) +
            byteSize (closing.takeWhile isMargin ++ firstWord closing)) ∧
          programLines (linesText (opening :: before)) =
            if isBlankText opening then
              if before = [] then [] else unindent (String.ofList (joinLines before))
            else unindent (String.ofList (joinLines (opening :: before))) := by
  unfold programEnd?
  generalize min bound (byteSize document.toList) = stop at whole
  by_cases ordered : start < stop
  · obtain ⟨first, last⟩ := whole ordered
    have spans := spans_stretch (Nat.le_of_lt ordered) first last
    have single : ∀ line ∈ splitLines (stretch document.toList start stop), '\n' ∉ line :=
      fun line => not_mem_of_mem_splitLines
    rw [← joinLines_splitLines (stretch document.toList start stop)] at spans
    generalize splitLines (stretch document.toList start stop) = lines at spans single
    have answer := scanProgram?_eq_fromClosingLine? sentinel spans single
    refine ⟨_, answer, ?_, ?_⟩
    · rw [Option.isSome_map]
      exact isSome_fromClosingLine?_joinLines fun line member => single line (List.mem_of_mem_tail member)
    · rintro opening before closing after rfl other closes
      refine ⟨Option.some.inj (answer.symm.trans (scanProgram?_of_closes spans single other closes)), ?_⟩
      exact programLines_linesText_cons fun line member => single line (by
        rcases List.mem_cons.mp member with rfl | member <;> simp_all)
  · have none := scanProgram?_of_le document sentinel (Nat.le_of_not_lt ordered)
    have empty : splitLines [] = [[]] := splitLines_of_not_mem List.not_mem_nil
    refine ⟨.none, none, ?_, ?_⟩
    · simp [stretch_of_le _ (Nat.le_of_not_lt ordered), empty]
    · intro opening before closing after parts
      simp [stretch_of_le _ (Nat.le_of_not_lt ordered), empty] at parts

theorem programEnd?_exact_two_words :
    let document := "CGPROGRAM é\n\tf;\n\n endcg2\n\t eNDcg\r \x7d\nENDCG"
    (9 < min 100 (byteSize document.toList) →
        IsBoundary document.toList 9 ∧ IsBoundary document.toList (min 100 (byteSize document.toList))) ∧
      programEnd? document .cgProgram 9 100 = some (some (" é\n\tf;\n\n endcg2\n".toList, 33)) ∧
      programLines " é\n\tf;\n\n endcg2\n".toList = unindent " é\n\tf;\n\n endcg2" := by
  intro document
  have whole : 9 < min 100 (byteSize document.toList) →
      IsBoundary document.toList 9 ∧ IsBoundary document.toList (min 100 (byteSize document.toList)) := by
    decide
  obtain ⟨found?, answer, -, exact_⟩ := programEnd?_exact .cgProgram whole
  obtain ⟨found, lines⟩ := exact_ " é".toList ["\tf;".toList, [], " endcg2".toList] "\t eNDcg\r \x7d".toList
    ["ENDCG".toList] (by decide +kernel) (by decide) (by decide)
  refine ⟨whole, ?_, lines⟩
  rw [answer, found]
  decide

end ShaderText
