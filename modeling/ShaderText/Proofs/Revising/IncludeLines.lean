import ShaderText.Code
import ShaderText.Proofs.Respelling
import ShaderText.Proofs.Bytewise.Scanning

/-! Lines that include a file. Such a line is the directive, in any case of its letters, and the path between two
quotes; blanks may stand in front of either, and anything behind the second quote. Main statement: these are the
lines that are taken for an include of the path, whether the line is cut by characters or by bytes, so a line
includes one file at most, and never one whose path holds a quote.
-/
namespace ShaderText

/-- Whether a line is the include of a file: blanks, the directive in any case of its letters, blanks, and the path
between two quotes, with anything behind. -/
def IncludesFile (path line : List Char) : Prop :=
  ∃ gap word gap' rest, line = gap ++ (word ++ (gap' ++ '"' :: (path ++ '"' :: rest))) ∧
    isBlankText gap ∧ sameWord word includeWord ∧ isBlankText gap' ∧ '"' ∉ path

theorem length_of_sameWord {a b : List Char} (same : sameWord a b) : a.length = b.length := by
  simpa using congrArg List.length (sameWord_iff.mp same)

theorem byteSize_of_sameWord {a b : List Char} (same : sameWord a b) : byteSize a = byteSize b := by
  induction a generalizing b with
  | nil => rw [List.length_eq_zero_iff.mp (length_of_sameWord same).symm]
  | cons c a ih =>
    cases b with
    | nil => exact absurd (length_of_sameWord same) (by simp)
    | cons d b =>
      obtain ⟨alike, rest⟩ := List.cons.inj (sameWord_iff.mp same)
      rw [byteSize_cons, byteSize_cons, ih (sameWord_iff.mpr rest), Alike.utf8Size_eq alike]

theorem trimStart_append {gap : List Char} (blank : isBlankText gap) {c : Char} (filled : isBlank c = false)
    (cs : List Char) : trimStart (gap ++ c :: cs) = c :: cs := by
  rw [trimStart, List.dropWhile_append_of_pos (List.all_eq_true.mp blank),
    List.dropWhile_cons_of_neg (by simp [filled])]

theorem exists_cons_of_sameWord_includeWord {word : List Char} (directive : sameWord word includeWord) :
    ∃ letters, word = '#' :: letters := by
  cases word with
  | nil => exact absurd (length_of_sameWord directive) (by decide)
  | cons c letters =>
    have alike : Alike '#' c := (List.cons.inj (sameWord_iff.mp directive)).1.symm
    exact ⟨letters, by rw [alike.eq_of_not_isAlpha (by decide)]⟩

theorem takeWhile_quote {path : List Char} (plain : '"' ∉ path) (rest : List Char) :
    (path ++ '"' :: rest).takeWhile (· != '"') = path := by
  have inside : ∀ c ∈ path, (c != '"') = true := fun c member => by
    rw [bne_iff_ne]
    rintro rfl
    exact plain member
  rw [List.takeWhile_append_of_pos inside, List.takeWhile_cons_of_neg (by simp), List.append_nil]

theorem exists_takeWhile_quote {cs : List Char} (quoted : '"' ∈ cs) :
    ∃ rest, cs = cs.takeWhile (· != '"') ++ '"' :: rest ∧ '"' ∉ cs.takeWhile (· != '"') := by
  have plain : '"' ∉ cs.takeWhile (· != '"') := fun member => by
    simpa using List.all_eq_true.mp (List.all_takeWhile (p := (· != '"')) (l := cs)) _ member
  have split := List.takeWhile_append_dropWhile (p := (· != '"')) (l := cs)
  cases behind : cs.dropWhile (· != '"') with
  | nil =>
    rw [behind, List.append_nil] at split
    exact absurd quoted (split ▸ plain)
  | cons c rest =>
    have quote := List.head_dropWhile_not (· != '"') (l := cs) (by simp [behind])
    simp only [behind, List.head_cons, bne_eq_false_iff_eq] at quote
    rw [behind, quote] at split
    exact ⟨rest, split.symm, plain⟩

theorem includesFile_of_isInclude {line path : String} (h : isInclude line path) :
    IncludesFile path.toList line.toList := by
  obtain ⟨gap, blank, split⟩ := trimStart_append_blank line.toList
  rw [isInclude, Bool.and_eq_true] at h
  obtain ⟨directive, value⟩ := h
  obtain ⟨gap', blank', split'⟩ := trimStart_append_blank ((trimStart line.toList).drop includeWord.length)
  have cut := List.take_append_drop includeWord.length (trimStart line.toList)
  rw [split'] at cut
  split at value
  · rename_i inside opens
    rw [Bool.and_eq_true, List.contains_iff_mem, beq_iff_eq] at value
    obtain ⟨rest, closes, plain⟩ := exists_takeWhile_quote value.1
    rw [value.2] at closes plain
    rw [opens, closes] at cut
    exact ⟨gap, _, gap', rest, by rw [cut, ← split], blank, directive, blank', plain⟩
  · simp at value

theorem isInclude_of_includesFile {line path : String} (h : IncludesFile path.toList line.toList) :
    isInclude line path := by
  obtain ⟨gap, word, gap', rest, whole, blank, directive, blank', plain⟩ := h
  obtain ⟨letters, rfl⟩ := exists_cons_of_sameWord_includeWord directive
  have begins := trimStart_append blank (c := '#') (by decide)
    (letters ++ (gap' ++ '"' :: (path.toList ++ '"' :: rest)))
  rw [← List.cons_append, ← whole] at begins
  have value := trimStart_append blank' (c := '"') (by decide) (path.toList ++ '"' :: rest)
  rw [isInclude]
  simp only [begins, ← length_of_sameWord directive, List.take_left, List.drop_left, directive, value,
    takeWhile_quote plain, Bool.true_and]
  simp

theorem isInclude_iff {line path : String} : isInclude line path ↔ IncludesFile path.toList line.toList :=
  ⟨includesFile_of_isInclude, isInclude_of_includesFile⟩

theorem eq_of_isInclude {line path other : String} (here : isInclude line path) (there : isInclude line other) :
    other = path := by
  rw [isInclude, Bool.and_eq_true] at here there
  obtain ⟨-, here⟩ := here
  obtain ⟨-, there⟩ := there
  split at here
  · rename_i inside opens
    simp only [opens, Bool.and_eq_true, beq_iff_eq] at here there
    exact String.toList_inj.mp (there.2.symm.trans here.2)
  · contradiction

namespace Bytewise

/-- Whether a line includes a file, told by cuts at byte offsets. There is no answer if a cut that must not fail
does not stand between two characters. -/
def isInclude? (line path : String) : Option Bool :=
  let line := trimStart line.toList
  match slice? line 0 (byteSize includeWord) with
  | none => some false
  | some word =>
    if sameWord word includeWord then do
      let value := trimStart (← slice? line (byteSize includeWord) (byteSize line))
      if byte? (String.ofList value) 0 = some (code '"') then
        let inside ← slice? value 1 (byteSize value)
        if inside.contains '"' then
          return (← slice? value 1 (byteSize (inside.takeWhile (· != '"')) + 1)) == path.toList
        else return false
      else return false
    else some false

theorem slice?_word {line : List Char} (directive : sameWord (line.take includeWord.length) includeWord) :
    slice? line 0 (byteSize includeWord) = some (line.take includeWord.length) ∧
      slice? line (byteSize includeWord) (byteSize line) = some (line.drop includeWord.length) := by
  have whole := spans_whole line
  rw [← List.take_append_drop includeWord.length line] at whole
  have parts := whole.split
  rw [List.take_append_drop, byteSize_of_sameWord directive, Nat.zero_add] at parts
  exact ⟨parts.1.slice?_eq, parts.2.slice?_eq⟩

theorem sameWord_take_of_slice? {line word : List Char} (found : slice? line 0 (byteSize includeWord) = some word)
    (directive : sameWord word includeWord) : sameWord (line.take includeWord.length) includeWord := by
  rw [slice?] at found
  split at found
  · have front : takeBytes (byteSize includeWord) line = word := by
      have none : dropBytes 0 line = line := dropBytes_byteSize_append [] line
      rw [none] at found
      exact Option.some.inj found
    have cut : word ++ dropBytes (byteSize includeWord) line = line := by
      rw [← front, takeBytes_append_dropBytes]
    rwa [← cut, ← length_of_sameWord directive, List.take_left]
  · contradiction

theorem byte?_quote_iff {value : List Char} :
    byte? (String.ofList value) 0 = some (code '"') ↔ ∃ inside, value = '"' :: inside := by
  cases value with
  | nil =>
    have empty : (String.ofList []).toList = [] ++ [] := by simp
    have none := byte?_eq empty 0
    rw [byteSize_nil, Nat.zero_add] at none
    simp [none]
  | cons c inside =>
    have spans : Spans (String.ofList (c :: inside)).toList 0 (c :: inside) (byteSize (c :: inside)) := by
      rw [String.toList_ofList]
      exact spans_whole (c :: inside)
    obtain ⟨b, member, read⟩ := spans.byte?_eq c.utf8Size_pos
    rw [Nat.add_zero] at read
    rw [read, Option.some_inj, eq_code_iff member (by decide)]
    simp

/-- Behind an opening quote every cut stands between characters. -/
theorem slice?_inside (inside : List Char) :
    slice? ('"' :: inside) 1 (byteSize ('"' :: inside)) = some inside ∧
      slice? ('"' :: inside) 1 (byteSize (inside.takeWhile (· != '"')) + 1) = some (inside.takeWhile (· != '"')) := by
  have behind : Spans ('"' :: inside) 1 inside (byteSize ('"' :: inside)) := (spans_whole ('"' :: inside)).tail
  refine ⟨behind.slice?_eq, ?_⟩
  have front := behind
  rw [← List.takeWhile_append_dropWhile (p := (· != '"')) (l := inside)] at front
  have held := front.split.1
  rw [List.takeWhile_append_dropWhile, Nat.add_comm] at held
  exact held.slice?_eq

theorem isInclude?_eq (line path : String) : isInclude? line path = some (isInclude line path) := by
  rw [isInclude?, isInclude]
  generalize trimStart line.toList = line
  dsimp only
  by_cases directive : sameWord (line.take includeWord.length) includeWord = true
  · obtain ⟨word, value⟩ := slice?_word directive
    rw [word, value, directive, Bool.true_and]
    dsimp only
    rw [if_pos directive, Option.bind_eq_bind, Option.bind_some]
    generalize trimStart (line.drop includeWord.length) = value
    by_cases opens : ∃ inside, value = '"' :: inside
    · rw [if_pos (byte?_quote_iff.mpr opens)]
      obtain ⟨inside, rfl⟩ := opens
      obtain ⟨all, held⟩ := slice?_inside inside
      rw [all, Option.bind_some, held]
      show _ = some (inside.contains '"' && inside.takeWhile (· != '"') == path.toList)
      cases inside.contains '"' <;> rfl
    · rw [if_neg (mt byte?_quote_iff.mp opens)]
      split
      · rename_i inside
        exact absurd ⟨inside, rfl⟩ opens
      · rfl
  · rw [Bool.eq_false_iff.mpr directive, Bool.false_and]
    cases found : slice? line 0 (byteSize includeWord) with
    | none => rfl
    | some word =>
      have other : ¬ sameWord word includeWord = true := fun spelt => directive (sameWord_take_of_slice? found spelt)
      exact if_neg other

end Bytewise

/-- A line is taken for an include of a path exactly if it is one; the cuts at byte offsets never fail and tell the
same. So a line includes one path at most, and none with a quote in it. -/
theorem isInclude_exact (line path : String) :
    (isInclude line path ↔ IncludesFile path.toList line.toList) ∧
      Bytewise.isInclude? line path = some (isInclude line path) ∧
      (∀ other, isInclude line path → isInclude line other → other = path) ∧
      ('"' ∈ path.toList → isInclude line path = false) := by
  refine ⟨isInclude_iff, Bytewise.isInclude?_eq line path, ?_, ?_⟩
  · intro other here there
    exact eq_of_isInclude here there
  · intro quote
    rw [Bool.eq_false_iff]
    intro here
    obtain ⟨gap, word, gap', rest, -, -, -, -, plain⟩ := isInclude_iff.mp here
    exact plain quote

theorem isInclude_exact_spread :
    let line := "\u2003 #InClude\t\"é/λ.hlsl\" // \"b.hlsl\""
    isInclude line "é/λ.hlsl" = true ∧ isInclude line "b.hlsl" = false ∧
      Bytewise.isInclude? line "é/λ.hlsl" = some true ∧
      '"' ∈ "é/λ.hlsl\" // ".toList ∧ isInclude line "é/λ.hlsl\" // " = false := by
  intro line
  have spelt : line.toList = "\u2003 ".toList ++ ("#InClude".toList ++
      ("\t".toList ++ '"' :: ("é/λ.hlsl".toList ++ '"' :: " // \"b.hlsl\"".toList))) := by decide +kernel
  have quote : '"' ∈ "é/λ.hlsl\" // ".toList := by decide +kernel
  obtain ⟨exact, bytes, single, -⟩ := isInclude_exact line "é/λ.hlsl"
  have here : isInclude line "é/λ.hlsl" = true :=
    exact.mpr ⟨_, _, _, _, spelt, by decide +kernel, by decide +kernel, by decide +kernel, by decide +kernel⟩
  refine ⟨here, ?_, by rw [bytes, here], quote, (isInclude_exact line "é/λ.hlsl\" // ").2.2.2 quote⟩
  exact Bool.eq_false_iff.mpr fun there => absurd (single "b.hlsl" here there) (by decide +kernel)

end ShaderText
