import ShaderText.Proofs.RoundTrip
import ShaderText.Proofs.Spacing.Pieces

/-! Other texts in the gaps of a written shader. A gap admits every text that says nothing to the reader
of its place; the gap between a name and its value admits only what is written there. Main statement: a
representable shader is read back from its pieces, whatever its gaps admit between them.
-/
namespace ShaderText

def IsSpaced (cs : List Char) : Prop := ∃ c rest, cs = c :: rest ∧ isSpace c

/-- A text that is read as no statement, or as statements that leave what is held as it is. -/
structure Idle {σ : Type} (takes : σ → Phrase → σ → List Char → Prop) (cs : List Char) : Prop where
  spaced : IsSpaced cs
  neutral : IsNeutral cs
  reads : ∀ held tail last, Reads takes held (cs ++ tail) last ↔ Reads takes held tail last

def Scope.Ignores : Scope → List Char → Prop
  | .shader => Idle Shader.Takes
  | .subShader => Idle SubShader.Takes
  | .pass => Idle Pass.Takes
  | .stencil => Idle Settings.TakesField

/-- A text at the end of a body that leaves what is held as it is. -/
structure Trails {σ : Type} (takes : σ → Phrase → σ → List Char → Prop) (cs : List Char) : Prop where
  spaced : IsSpaced cs
  neutral : IsNeutral cs
  reads : ∀ held last, Reads takes held cs last ↔ last = held

def Scope.Ends : Scope → List Char → Prop
  | .shader => Trails Shader.Takes
  | .subShader => Trails SubShader.Takes
  | .pass => Trails Pass.Takes
  | .stencil => Trails Settings.TakesField

theorem Scope.idle_shader (cs : List Char) (h : Scope.shader.Ignores cs) : Idle Shader.Takes cs := h

theorem Scope.idle_subShader (cs : List Char) (h : Scope.subShader.Ignores cs) :
    Idle SubShader.Takes cs := h

theorem Scope.idle_pass (cs : List Char) (h : Scope.pass.Ignores cs) : Idle Pass.Takes cs := h

theorem Scope.idle_stencil (cs : List Char) (h : Scope.stencil.Ignores cs) :
    Idle Settings.TakesField cs := h

/-- A text that is skipped as spaces and comments are. -/
structure IsTrivia (cs : List Char) : Prop where
  neutral : IsNeutral cs
  passed : ∀ tail, afterTrivia (cs ++ tail) = afterTrivia tail

/-- Whether a text may stand in the place of a gap. -/
def Gap.Admits (cs : List Char) : Gap → Prop
  | .before => ∀ tail header, Heads (cs ++ tail) header ↔ Heads tail header
  | .header | .tag => IsTrivia cs
  | .statement scope _ => scope.Ignores cs
  | .closing scope _ => scope.Ends cs
  | .value => cs = [' ']
  | .brace depth => cs = '\n' :: List.replicate (4 * depth) ' '
  | .after => True

/-- Whether a text is pieces with admitted texts in their gaps. -/
def IsRelaid : List Piece → List Char → Prop
  | [], cs => cs = []
  | t :: pieces, cs => ∃ gap rest, t.gap.Admits gap ∧ cs = gap ++ (t.text ++ rest) ∧ IsRelaid pieces rest

theorem isRelaid_append {first second : List Piece} {cs : List Char} :
    IsRelaid (first ++ second) cs ↔
      ∃ front back, cs = front ++ back ∧ IsRelaid first front ∧ IsRelaid second back := by
  induction first generalizing cs with
  | nil => simp [IsRelaid]
  | cons t first ih =>
    constructor
    · rintro ⟨gap, rest, admits, rfl, more⟩
      obtain ⟨front, back, rfl, left, right⟩ := ih.mp more
      exact ⟨gap ++ (t.text ++ front), back, by simp, ⟨gap, front, admits, rfl, left⟩, right⟩
    · rintro ⟨-, back, rfl, ⟨gap, front, admits, rfl, left⟩, right⟩
      exact ⟨gap, front ++ back, admits, by simp, ih.mpr ⟨front, back, rfl, left, right⟩⟩

theorem IsSpaced.append {cs : List Char} (h : IsSpaced cs) (tail : List Char) : IsSpaced (cs ++ tail) := by
  obtain ⟨c, rest, rfl, space⟩ := h
  exact ⟨c, rest ++ tail, rfl, space⟩

theorem isNeutral_spaces {cs : List Char} (h : cs.all isSpace) : IsNeutral cs := by
  refine isNeutral_of_isPlain (List.all_eq_true.mpr fun c member => ?_)
  obtain ⟨opens, closes, quote, slash, -⟩ := not_isSpace_sign (List.all_eq_true.mp h c member)
  simp [isPlain, opens, closes, quote, slash]

theorem afterSpaces_append {cs : List Char} (h : cs.all isSpace) (tail : List Char) :
    afterSpaces (cs ++ tail) = afterSpaces tail :=
  List.dropWhile_append_of_pos (List.all_eq_true.mp h)

theorem first?_spaces (cs : List Char) (h : cs.all isSpace) (tail : List Char) :
    Phrase.first? (cs ++ tail) = Phrase.first? tail := by
  rw [Phrase.first?, Phrase.first?, afterSpaces_append h]

theorem heads_congr {cs tail : List Char} {header : Phrase} (same : Phrase.first? cs = Phrase.first? tail) :
    Heads cs header ↔ Heads tail header := by
  constructor
  · intro heads
    cases heads with
    | here found comment => exact .here (same ▸ found) comment
    | past found comment more => exact .past (same ▸ found) comment more
  · intro heads
    cases heads with
    | here found comment => exact .here (same ▸ found) comment
    | past found comment more => exact .past (same ▸ found) comment more

theorem idle_spaces {σ : Type} {takes : σ → Phrase → σ → List Char → Prop} {cs : List Char}
    (spaces : cs.all isSpace) (nonempty : cs ≠ []) : Idle takes cs where
  spaced := by
    cases cs with
    | nil => exact absurd rfl nonempty
    | cons c rest => exact ⟨c, rest, rfl, List.all_eq_true.mp spaces c List.mem_cons_self⟩
  neutral := isNeutral_spaces spaces
  reads _ tail _ := reads_congr (first?_spaces cs spaces tail)

theorem Idle.trails {σ : Type} {takes : σ → Phrase → σ → List Char → Prop} {cs : List Char}
    (h : Idle takes cs) : Trails takes cs where
  spaced := h.spaced
  neutral := h.neutral
  reads held last := by
    have ends := h.reads held [] last
    rw [List.append_nil] at ends
    rw [ends, reads_iff_of_none (by rfl), eq_comm]

theorem Scope.ends_of_ignores {scope : Scope} {cs : List Char} (h : scope.Ignores cs) : scope.Ends cs := by
  cases scope <;> exact Idle.trails h

theorem isTrivia_spaces {cs : List Char} (h : cs.all isSpace) : IsTrivia cs where
  neutral := isNeutral_spaces h
  passed tail := by rw [afterTrivia, afterTrivia, afterSpaces_append h]

theorem Scope.ignores_of_idle {scope : Scope} {cs : List Char}
    (h : ∀ {σ : Type} {takes : σ → Phrase → σ → List Char → Prop}, Idle takes cs) : scope.Ignores cs := by
  cases scope <;> exact h

theorem Gap.all_isSpace_text (gap : Gap) : gap.text.all isSpace := by
  cases gap <;> simp [text, isSpace]

theorem Gap.admits_text (gap : Gap) : gap.Admits gap.text := by
  cases gap with
  | before => exact fun tail header => Iff.rfl
  | header => exact isTrivia_spaces (Gap.all_isSpace_text .header)
  | tag => exact isTrivia_spaces (Gap.all_isSpace_text .tag)
  | statement scope depth =>
    exact Scope.ignores_of_idle (idle_spaces (Gap.all_isSpace_text (.statement scope depth)) (by simp [text]))
  | closing scope depth =>
    exact Scope.ends_of_ignores (Scope.ignores_of_idle
      (idle_spaces (Gap.all_isSpace_text (.closing scope depth)) (by simp [text])))
  | value | brace => rfl
  | after => trivial

theorem isRelaid_laid (pieces : List Piece) : IsRelaid pieces (laid pieces) := by
  induction pieces with
  | nil => rfl
  | cons t pieces ih => exact ⟨t.gap.text, laid pieces, t.gap.admits_text, laid_cons t pieces, ih⟩

/-- What leaves the block of a body as it is leaves the body as it is. -/
theorem stays_of_block {σ : Type} (fill : Block → σ) {held : Block} {ph : Phrase} {taken : Prop} {next : σ}
    {rest onward : List Char} (clause : taken ↔ ∃ b, held.Takes ph b rest ∧ next = fill b)
    (stays : ∀ b, held.Takes ph b rest ↔ b = held ∧ rest = onward) :
    taken ↔ next = fill held ∧ rest = onward := by
  rw [clause]
  constructor
  · rintro ⟨b, takes, rfl⟩
    obtain ⟨rfl, goes⟩ := (stays b).mp takes
    exact ⟨rfl, goes⟩
  · rintro ⟨rfl, goes⟩
    exact ⟨held, (stays held).mpr ⟨rfl, goes⟩, rfl⟩

theorem across?_of_isSpaced {depth : Nat} {mode : Mode} {cs : List Char} (code : mode.isCode)
    (spaced : IsSpaced cs) : across? depth mode cs = across? depth .code cs := by
  obtain ⟨c, rest, rfl, space⟩ := spaced
  obtain ⟨opens, closes, quote, slash, star⟩ := not_isSpace_sign space
  cases mode <;> simp_all [across?, Mode.isCode, Mode.next]

theorem IsNeutral.append_closes {cs ds : List Char} (h : IsNeutral cs) (h' : Closes ds) :
    Closes (cs ++ ds) := by
  obtain ⟨mode, code, crossed⟩ := closes_iff.mp h'
  refine closes_iff.mpr ⟨mode, code, ?_⟩
  rw [across?_append, h]
  exact crossed

theorem Closes.append {cs ds : List Char} (h : Closes cs) (h' : Closes ds) (spaced : IsSpaced ds) :
    Closes (cs ++ ds) := by
  obtain ⟨mode, code, crossed⟩ := closes_iff.mp h
  obtain ⟨mode', code', crossed'⟩ := closes_iff.mp h'
  refine closes_iff.mpr ⟨mode', code', ?_⟩
  rw [across?_append, crossed, Option.bind_some, across?_of_isSpaced code spaced, crossed']

/-- A text that is read in front of any space, and changes what is held. -/
structure ReadsOver {σ : Type} (takes : σ → Phrase → σ → List Char → Prop) (held : σ) (cs : List Char)
    (next : σ) : Prop where
  spaced : cs ≠ [] → IsSpaced cs
  closes : Closes cs
  reads : ∀ {tail last}, IsSpaced tail → (Reads takes held (cs ++ tail) last ↔ Reads takes next tail last)

section

variable {σ : Type} {takes : σ → Phrase → σ → List Char → Prop} {held next last : σ} {cs ds gap : List Char}

theorem readsOver_nil : ReadsOver takes held [] held :=
  ⟨fun filled => absurd rfl filled, isNeutral_nil.closes, fun _ => Iff.rfl⟩

theorem ReadsOver.append {middle : σ} (h : ReadsOver takes held cs middle)
    (h' : ReadsOver takes middle ds next) : ReadsOver takes held (cs ++ ds) next := by
  -- only a text that begins with a space ends the value in front of it
  by_cases empty : ds = []
  · subst empty
    rw [List.append_nil]
    exact ⟨h.spaced, h.closes, fun spaced => (h.reads spaced).trans (h'.reads spaced)⟩
  · have spaced := h'.spaced empty
    refine ⟨fun filled => ?_, h.closes.append h'.closes spaced, fun {tail last} more => ?_⟩
    · by_cases none : cs = []
      · subst none
        exact spaced
      · exact (h.spaced none).append ds
    · rw [List.append_assoc, h.reads (spaced.append tail), h'.reads more]

theorem ReadsOver.statement {text : List Char} (idle : Idle takes gap) (closes : Closes text)
    (one : ∀ tail, IsSpaced tail → ∃ ph, Phrase.first? (text ++ tail) = some ph ∧
      ∀ next' rest, takes held ph next' rest ↔ next' = next ∧ rest = tail) :
    ReadsOver takes held (gap ++ text) next where
  spaced _ := idle.spaced.append text
  closes := idle.neutral.append_closes closes
  reads {tail last} spaced := by
    obtain ⟨ph, first, only⟩ := one tail spaced
    rw [List.append_assoc, idle.reads, reads_of_only first next tail only]

theorem ReadsOver.inside (h : ReadsOver takes held cs next) (trails : Trails takes gap) :
    Closes (cs ++ gap) ∧ ∀ last, Reads takes held (cs ++ gap) last ↔ last = next :=
  ⟨h.closes.append trails.neutral.closes trails.spaced,
    fun last => (h.reads trails.spaced).trans (trails.reads next last)⟩

theorem ReadsOver.block {word : Keyword} {inside : List Char} (margin : Nat) (idle : Idle takes gap)
    (free : sentinel? word.word.toList = none) (plain : word.word.toList.all isPlain)
    (closes : Closes inside)
    (one : ∀ ph, ph.kind ≠ .comment → keyword? ph.name = some word → ph.interior? = some inside →
      ∀ next' rest, takes held ph next' rest ↔ next' = next ∧ rest = ph.rest) :
    ReadsOver takes held (gap ++ (word.word.toList ++
      '\n' :: (List.replicate margin ' ' ++ ('{' :: (inside ++ ['}']))))) next := by
  refine .statement idle ?_ fun tail spaced => ?_
  · have space : IsNeutral ('\n' :: List.replicate margin ' ') := isNeutral_spaces (by simp [isSpace])
    exact ((isNeutral_of_isPlain plain).append (space.append closes.isNeutral)).closes
  · have first := Phrase.first?_of_free (isName_keyword word) free isSpace_break
      (List.replicate margin ' ' ++ ('{' :: (inside ++ '}' :: tail)))
    rw [Phrase.ofWord_block closes] at first
    refine ⟨_, by simpa using first, ?_⟩
    exact one _ (by simp) (WordFamily.find?_word word) (Phrase.interior?_block _ _ _)

end

theorem isRelaid_nestPieces {outer inner : Scope} {depth : Nat} {word : Keyword} {pieces : List Piece}
    {cs : List Char} (h : IsRelaid (nestPieces outer depth inner word pieces) cs) :
    ∃ gap front last, outer.Ignores gap ∧ IsRelaid pieces front ∧ inner.Ends last ∧
      cs = gap ++ (word.word.toList ++
        '\n' :: (List.replicate (4 * depth) ' ' ++ ('{' :: ((front ++ last) ++ ['}'])))) := by
  obtain ⟨gap, _, ignored, rfl, _, _, rfl, rfl, more⟩ := h
  obtain ⟨front, _, rfl, relaid, last, _, ends, rfl, rfl⟩ := isRelaid_append.mp more
  exact ⟨gap, front, last, ignored, relaid, ends, by simp⟩

theorem readsTags_of_isRelaid {pairs : List (String × String)} {cs : List Char}
    (h : ∀ pair ∈ pairs, IsStringBody pair.1 ∧ IsStringBody pair.2)
    (relaid : IsRelaid (pairPieces pairs ++ [⟨.tag, ['}']⟩]) cs) :
    ∃ inside, cs = inside ++ ['}'] ∧ IsNeutral inside ∧ ReadsTags inside pairs := by
  induction pairs generalizing cs with
  | nil =>
    obtain ⟨gap, _, trivia, rfl, rfl⟩ := relaid
    have blank := trivia.passed []
    rw [List.append_nil] at blank
    exact ⟨gap, by simp, trivia.neutral, .done (by rw [blank]; simp [afterTrivia, afterSpaces, afterComment?])⟩
  | cons pair pairs ih =>
    obtain ⟨keyBody, valueBody⟩ := h pair List.mem_cons_self
    obtain ⟨first, _, trivia, rfl, second, _, trivia', rfl, third, _, trivia'', rfl, more⟩ := relaid
    obtain ⟨inside, rfl, neutral, reads⟩ := ih (fun other member => h other (List.mem_cons_of_mem _ member)) more
    have sign : IsNeutral ['='] := isNeutral_of_isPlain (by decide)
    have key := isNeutral_string keyBody
    have value := isNeutral_string valueBody
    refine ⟨first ++ ('"' :: (pair.1.toList ++ ['"'])) ++ (second ++ ['='] ++
      (third ++ ('"' :: (pair.2.toList ++ ['"'])) ++ inside)), by simp [inQuotes], ?_, ?_⟩
    · exact (trivia.neutral.append key).append ((trivia'.neutral.append sign).append
        ((trivia''.neutral.append value).append neutral))
    · have read : ReadsTags (first ++ ('"' :: (pair.1.toList ++ '"' :: (second ++ '=' :: (third ++
          '"' :: (pair.2.toList ++ '"' :: inside)))))) _ := .pair
        (by rw [trivia.passed, afterTrivia_of_sign rfl (by decide), tagToken?_quoted keyBody])
        (by rw [trivia'.passed, afterTrivia_of_sign rfl (by decide)])
        (by rw [trivia''.passed, afterTrivia_of_sign rfl (by decide), tagToken?_quoted valueBody]) reads
      simpa using read

section

variable {σ : Type} {takes : σ → Phrase → σ → List Char → Prop} {scope : Scope} {depth : Nat}
  {cs : List Char}

theorem readsOver_settings {κ : Type} [WordFamily κ] [DecidableEq κ]
    (idle : ∀ gap, scope.Ignores gap → Idle takes gap) (put : Settings κ → σ)
    (name : ∀ k : κ, isName (WordFamily.word k).toList ∧ sentinel? (WordFamily.word k).toList = none)
    (plain : ∀ k : κ, (WordFamily.word k).toList.all isPlain)
    (one : ∀ (s : Settings κ) (k : κ) (value : String) (kind : Kind) (rest : List Char) (next : σ)
      (rest' : List Char), kind ≠ .comment → kind ≠ .empty →
      (takes (put s) ⟨kind, (WordFamily.word k).toList, value.toList, rest⟩ next rest' ↔
        next = put (s.insert k value) ∧ rest' = rest))
    {entries : List (κ × String)} (h : ∀ entry ∈ entries, IsValueToken entry.2) (s : Settings κ)
    (relaid : IsRelaid (settingPieces scope depth entries) cs) :
    ReadsOver takes (put s) cs (put (s.insertAll entries)) := by
  induction entries generalizing s cs with
  | nil =>
    obtain rfl := relaid
    exact readsOver_nil
  | cons entry entries ih =>
    obtain ⟨k, value⟩ := entry
    obtain ⟨gap, _, ignored, rfl, _, rest, rfl, rfl, more⟩ := relaid
    have token : IsValueToken value := h (k, value) List.mem_cons_self
    have single := isSingleValue_of_isValueToken token
    have later := ih (fun other member => h other (List.mem_cons_of_mem _ member)) (s.insert k value) more
    have here : ReadsOver takes (put s) (gap ++ ((WordFamily.word k).toList ++ ' ' :: value.toList))
        (put (s.insert k value)) := by
      refine .statement (idle gap ignored) ?_ ?_
      · have space : IsNeutral [' '] := isNeutral_of_isPlain (by decide)
        exact (isNeutral_of_isPlain (plain k)).append_closes
          (space.append_closes (closes_of_isValueToken token))
      · rintro - ⟨c, tail, rfl, separates⟩
        obtain ⟨comment, nonempty⟩ := Remainder.kind_of_isSingleValue single
        refine ⟨_, ?_, fun next' rest => one s k value _ (c :: tail) next' rest comment nonempty⟩
        rw [List.append_assoc, List.cons_append, Phrase.first?_of_free (name k).1 (name k).2 isSpace_space,
          Phrase.ofWord_of_isSingleValue single separates]
    have text : gap ++ ((WordFamily.word k).toList ++ ([' '] ++ (value.toList ++ rest))) =
        gap ++ ((WordFamily.word k).toList ++ ' ' :: value.toList) ++ rest := by simp
    rw [text]
    exact here.append later

theorem readsOver_fields {entries : List (StencilField × String)}
    (h : ∀ entry ∈ entries, IsValueToken entry.2)
    (relaid : IsRelaid (settingPieces .stencil depth entries) cs) :
    ReadsOver Settings.TakesField .empty cs (Settings.empty.insertAll entries) :=
  readsOver_settings Scope.idle_stencil id isName_stencilField (fun k => by cases k <;> decide)
    (fun _ _ _ _ _ _ _ comment nonempty => takesField_iff comment nonempty) h .empty relaid

variable {fill : Block → σ}

theorem readsOver_tags (clauses : TakesClauses takes fill)
    (idle : ∀ gap, scope.Ignores gap → Idle takes gap) {t : Tags} (intact : t.IsIntact) (b : Block)
    (empty : b.tags = .empty) (relaid : IsRelaid (t.pieces scope depth) cs) :
    ReadsOver takes (fill b) cs (fill { b with tags := t }) := by
  unfold Tags.pieces at relaid
  by_cases none : t.isEmpty
  · have nothing : t = .empty := by
      rw [← Tags.insertAll_toList t, List.isEmpty_iff.mp none]
      rfl
    rw [if_pos none] at relaid
    obtain rfl := relaid
    rw [nothing, ← empty]
    exact readsOver_nil
  · rw [if_neg none] at relaid
    obtain ⟨gap, _, ignored, rfl, _, _, rfl, rfl, more⟩ := relaid
    obtain ⟨inside, rfl, neutral, reads⟩ := readsTags_of_isRelaid intact more
    have word : sentinel? Keyword.tags.word.toList = Option.none := by rw [sentinel?, keyword?_tags]
    refine .statement (idle gap ignored) ?_ fun tail spaced => ?_
    · have space : IsNeutral [' '] := isNeutral_of_isPlain (by decide)
      have plain : IsNeutral Keyword.tags.word.toList := isNeutral_of_isPlain (by decide)
      exact (plain.append (space.append neutral.closes.isNeutral)).closes
    · have first := Phrase.first?_of_free (isName_keyword .tags) word isSpace_space
        (List.replicate 0 ' ' ++ '{' :: (inside ++ '}' :: tail))
      rw [Phrase.ofWord_block neutral.closes] at first
      refine ⟨_, by simpa using first, fun next' rest => ?_⟩
      have inTags : ReadsTags (Phrase.tagsText
          ⟨.block, Keyword.tags.word.toList, '{' :: (inside ++ ['}']), tail⟩) t.toList := by
        rwa [Phrase.tagsText_block]
      have only : takes (fill b) _ next' rest ↔ _ := clauses.tags_iff b rfl keyword?_tags inTags
      rwa [empty, Tags.insertAll_toList] at only

theorem readsOver_stencil (clauses : TakesClauses takes fill)
    (idle : ∀ gap, scope.Ignores gap → Idle takes gap) {s : Settings StencilField}
    (h : ∀ entry ∈ s.entries, IsValueToken entry.2) (b : Block) (empty : b.stencil = .empty)
    (relaid : IsRelaid (stencilPieces scope depth s) cs) :
    ReadsOver takes (fill b) cs (fill { b with stencil := s }) := by
  unfold stencilPieces at relaid
  by_cases none : s.isEmpty
  · have nothing : s = .empty := by
      rw [← Settings.insertAll_entries s, List.isEmpty_iff.mp none]
      rfl
    rw [if_pos none] at relaid
    obtain rfl := relaid
    rw [nothing, ← empty]
    exact readsOver_nil
  · rw [if_neg none] at relaid
    obtain ⟨gap, front, last, ignored, relaid', trails, rfl⟩ := isRelaid_nestPieces relaid
    obtain ⟨closes, only⟩ := (readsOver_fields h relaid').inside trails
    refine .block (4 * depth) (idle gap ignored) (by decide) (by decide) closes
      fun ph comment word interior next' rest => clauses.stencil_iff b comment word interior fun fields => ?_
    rw [empty, only, Settings.insertAll_entries]

theorem isNeutral_enclosedProgram (sentinel : Sentinel) {lines : List String} (h : IsKeptProgram lines) :
    IsNeutral (enclosedProgram depth sentinel lines) := by
  have indented : IsNeutral (linesText ((lines.map String.toList).map (indentLine (4 * depth)))) := by
    have flush : rowsText 0 (lines.map Row.ofString) = linesText (lines.map String.toList) := by
      rw [rowsText, linesText, List.flatMap_map, List.flatMap_map]
      refine List.flatMap_congr fun line _ => ?_
      by_cases empty : line.toList = [] <;> simp [Row.text, Row.ofString, empty]
    rw [← rowsText_lines, IsNeutral, across?_rowsText _ _ _ _ rfl, flush]
    exact isNeutral_linesText h
  have margin : IsNeutral (List.replicate (4 * depth) ' ') := isNeutral_spaces (by simp [isSpace])
  have word : IsNeutral sentinel.word.toList := by cases sentinel <;> rfl
  have closing : IsNeutral sentinel.closing.toList := by cases sentinel <;> rfl
  exact word.append (isNeutral_break.append (indented.append (margin.append closing)))

theorem readsOver_program (clauses : TakesClauses takes fill)
    (idle : ∀ gap, scope.Ignores gap → Idle takes gap) {sentinel : Sentinel}
    (written : sentinel.closing.toList = writtenClosing) {program : Option (List String)}
    (h : ∀ lines ∈ program, IsKeptProgram lines) (b : Block) (empty : b.program = none)
    (relaid : IsRelaid (programPieces scope depth sentinel program) cs) :
    ReadsOver takes (fill b) cs (fill { b with program := program }) := by
  cases program with
  | none =>
    obtain rfl := relaid
    rw [← empty]
    exact readsOver_nil
  | some lines =>
    obtain ⟨gap, _, ignored, rfl, rfl⟩ := relaid
    have kept := h lines rfl
    obtain ⟨name, word⟩ := isName_sentinel sentinel
    rw [List.append_nil]
    refine .statement (idle gap ignored) ?_ ?_
    · exact (isNeutral_enclosedProgram sentinel kept).closes
    · rintro - ⟨c, tail, rfl, separates⟩
      have opens : sentinel? sentinel.word.toList = some sentinel := by rw [sentinel?, word]
      have first := Phrase.first?_of_isName name isSpace_break
        (linesText ((lines.map String.toList).map (indentLine (4 * depth))) ++
          (List.replicate (4 * depth) ' ' ++ (sentinel.closing.toList ++ c :: tail)))
      rw [opens] at first
      refine ⟨_, by simpa [enclosedProgram, -List.map_map] using first, fun next' rest => ?_⟩
      have only : takes (fill b) _ next' rest ↔ _ := clauses.program_iff b written
        (isProgramLine_of_isKeptProgram kept) separates (4 * depth) tail
      rwa [realign_of_isKeptProgram kept] at only

theorem readsOver_block (clauses : TakesClauses takes fill)
    (idle : ∀ gap, scope.Ignores gap → Idle takes gap) (sentinel : Sentinel)
    (written : sentinel.closing.toList = writtenClosing) {b : Block} (h : b.IsRepresentable)
    (relaid : IsRelaid (b.pieces scope depth sentinel) cs) :
    ReadsOver takes (fill .empty) cs (fill b) := by
  obtain ⟨before, program, rfl, relaid, inProgram⟩ := isRelaid_append.mp relaid
  obtain ⟨before, stencil, rfl, relaid, inStencil⟩ := isRelaid_append.mp relaid
  obtain ⟨tags, states, rfl, inTags, inStates⟩ := isRelaid_append.mp relaid
  have first := readsOver_tags clauses idle h.tags .empty rfl inTags
  have second := readsOver_settings idle (fun states => fill { Block.empty with tags := b.tags, states })
    (fun k => ⟨(isName_renderState k).1, by
      rw [sentinel?, show keyword? (WordFamily.word k).toList = none from (isName_renderState k).2]⟩)
    (fun k => by cases k <;> decide)
    (fun states _ _ _ _ _ _ comment nonempty => clauses.state_iff { Block.empty with tags := b.tags, states }
      comment nonempty) h.states .empty inStates
  rw [Settings.insertAll_entries] at second
  have third := readsOver_stencil clauses idle h.stencil
    { Block.empty with tags := b.tags, states := b.states } rfl inStencil
  have last := readsOver_program clauses idle written h.program
    { Block.empty with tags := b.tags, states := b.states, stencil := b.stencil } rfl inProgram
  exact ((first.append second).append third).append last

theorem readsOver_children {γ : Type} {inner : Scope} {word : Keyword}
    (idle : ∀ gap, scope.Ignores gap → Idle takes gap) (free : sentinel? word.word.toList = none)
    (plain : word.word.toList.all isPlain) {pieces : γ → List Piece} (put : List γ → σ) {items : List γ}
    (child : ∀ item ∈ items, ∀ front last, IsRelaid (pieces item) front → inner.Ends last →
      Closes (front ++ last) ∧ ∀ done ph, ph.kind ≠ .comment → keyword? ph.name = some word →
        ph.interior? = some (front ++ last) → ∀ next rest,
          takes (put done) ph next rest ↔ next = put (done ++ [item]) ∧ rest = ph.rest)
    (done : List γ)
    (relaid : IsRelaid (items.flatMap fun item => nestPieces scope depth inner word (pieces item)) cs) :
    ReadsOver takes (put done) cs (put (done ++ items)) := by
  induction items generalizing done cs with
  | nil =>
    obtain rfl := relaid
    rw [List.append_nil]
    exact readsOver_nil
  | cons item items ih =>
    rw [List.flatMap_cons] at relaid
    obtain ⟨here, later, rfl, relaid, more⟩ := isRelaid_append.mp relaid
    obtain ⟨gap, front, last, ignored, relaid', trails, rfl⟩ := isRelaid_nestPieces relaid
    obtain ⟨closes, one⟩ := child item List.mem_cons_self front last relaid' trails
    have first := ReadsOver.block (4 * depth) (idle gap ignored) free plain closes (one done)
    have rest := ih (fun other member => child other (List.mem_cons_of_mem _ member)) (done ++ [item]) more
    rw [List.append_assoc, List.singleton_append] at rest
    exact first.append rest

end

section

variable {depth : Nat} {cs : List Char}

theorem readsOver_name {name : Option String} (h : ∀ text ∈ name, IsStringBody text)
    (relaid : IsRelaid (namePieces depth name) cs) :
    ReadsOver Pass.Takes (.named none) cs (.named name) := by
  cases name with
  | none =>
    obtain rfl := relaid
    exact readsOver_nil
  | some name =>
    obtain ⟨gap, _, ignored, rfl, _, _, rfl, rfl, rfl⟩ := relaid
    have body := h name rfl
    have word : sentinel? Keyword.name.word.toList = none := by rw [sentinel?, keyword?_name]
    rw [List.append_nil]
    refine .statement ignored ?_ fun tail _ => ?_
    · have space : IsNeutral (Keyword.name.word.toList ++ [' ']) := isNeutral_of_isPlain (by decide)
      have quoted := (space.append (isNeutral_string body)).closes
      simpa [inQuotes] using quoted
    · have first := Phrase.first?_of_free (isName_keyword .name) word isSpace_space
        ('"' :: (name.toList ++ '"' :: tail))
      rw [Phrase.ofWord_quoted body] at first
      refine ⟨_, by simpa [inQuotes] using first, fun next rest => ?_⟩
      exact Pass.takes_name_iff (by simp) keyword?_name (by rw [Phrase.nameValue_quoted, String.ofList_toList])

theorem Pass.reads_inside_of_isRelaid {p : Pass} (name : ∀ text ∈ p.name, IsStringBody text)
    (block : p.toBlock.IsRepresentable) {last : List Char} (relaid : IsRelaid (p.innerPieces depth) cs)
    (trails : Trails Pass.Takes last) :
    Closes (cs ++ last) ∧ ∀ read, Reads Pass.Takes (.named none) (cs ++ last) read ↔ read = p := by
  obtain ⟨front, back, rfl, inName, inBlock⟩ := isRelaid_append.mp relaid
  have body : ReadsOver Pass.Takes (.named p.name) back p :=
    readsOver_block (Pass.takesClauses p.name) Scope.idle_pass Pass.sentinel rfl block inBlock
  exact ((readsOver_name name inName).append body).inside trails

theorem SubShader.reads_inside_of_isRelaid {s : SubShader}
    (names : ∀ p ∈ s.passes, ∀ name ∈ p.name, IsStringBody name)
    (blocks : ∀ b ∈ s.blocks, b.IsRepresentable) {last : List Char}
    (relaid : IsRelaid (s.innerPieces depth) cs) (trails : Trails SubShader.Takes last) :
    Closes (cs ++ last) ∧ ∀ read, Reads SubShader.Takes .empty (cs ++ last) read ↔ read = s := by
  obtain ⟨front, back, rfl, inBlock, inPasses⟩ := isRelaid_append.mp relaid
  have block : ReadsOver SubShader.Takes .empty front ⟨s.toBlock, []⟩ :=
    readsOver_block (SubShader.takesClauses []) Scope.idle_subShader Shader.sentinel rfl
      (blocks s.toBlock List.mem_cons_self) inBlock
  have word : sentinel? Keyword.pass.word.toList = none := by rw [sentinel?, keyword?_pass]
  have passes : ReadsOver SubShader.Takes ⟨s.toBlock, []⟩ back s := by
    refine readsOver_children Scope.idle_subShader word (by decide) (SubShader.mk s.toBlock) ?_ []
      inPasses
    intro p member front last relaid trails
    obtain ⟨closes, only⟩ := p.reads_inside_of_isRelaid (names p member)
      (blocks p.toBlock (List.mem_cons_of_mem _ (List.mem_map_of_mem member))) relaid trails
    exact ⟨closes, fun done ph comment known interior _ _ => takes_pass_iff comment known interior only⟩
  exact (block.append passes).inside trails

theorem Shader.reads_inside_of_isRelaid {s : Shader} (h : s.IsRepresentable) {last : List Char}
    (relaid : IsRelaid s.innerPieces cs) (trails : Trails Shader.Takes last) :
    Closes (cs ++ last) ∧ ∀ read, Reads Shader.Takes (.named s.name) (cs ++ last) read ↔ read = s := by
  obtain ⟨front, back, rfl, inBlock, inSubs⟩ := isRelaid_append.mp relaid
  have block : ReadsOver Shader.Takes (.named s.name) front ⟨s.toBlock, s.name, []⟩ :=
    readsOver_block (Shader.takesClauses s.name []) Scope.idle_shader Shader.sentinel rfl
      (h.blocks s.toBlock List.mem_cons_self) inBlock
  have word : sentinel? Keyword.subShader.word.toList = none := by rw [sentinel?, keyword?_subShader]
  have subs : ReadsOver Shader.Takes ⟨s.toBlock, s.name, []⟩ back s := by
    refine readsOver_children Scope.idle_shader word (by decide) (Shader.mk s.toBlock s.name) ?_ []
      inSubs
    intro sub member front last relaid trails
    obtain ⟨closes, only⟩ := sub.reads_inside_of_isRelaid
      (fun p inSub => h.passNames p (List.mem_flatMap.mpr ⟨sub, member, inSub⟩))
      (fun b inSub => h.blocks b (List.mem_cons_of_mem _ (List.mem_flatMap.mpr ⟨sub, member, inSub⟩)))
      relaid trails
    exact ⟨closes, fun done ph comment known interior _ _ => takes_subShader_iff comment known interior only⟩
  exact (block.append subs).inside trails

/-- A representable shader is read back from its pieces, whatever its gaps admit between them. -/
theorem Shader.parse_of_isRelaid {s : Shader} (h : s.IsRepresentable) (relaid : IsRelaid s.pieces cs) :
    Shader.parse (String.ofList cs) = .ok s := by
  obtain ⟨first, _, heads, rfl, _, _, rfl, rfl, second, _, trivia, rfl, more⟩ := relaid
  obtain ⟨front, _, rfl, relaid, last, _, trails, rfl, after, _, -, rfl, rfl⟩ := isRelaid_append.mp more
  obtain ⟨closes, only⟩ := s.reads_inside_of_isRelaid h relaid trails
  have word : sentinel? Keyword.shader.word.toList = none := by rw [sentinel?, keyword?_shader]
  have read := Phrase.first?_of_free (isName_keyword .shader) word isSpace_space
    ('"' :: (s.name.toList ++ '"' :: (second ++ '{' :: ((front ++ last) ++ '}' :: after))))
  rw [Phrase.ofWord_quoted h.name] at read
  have opens : afterTrivia (second ++ '{' :: (front ++ (last ++ '}' :: after))) =
      '{' :: (front ++ last) ++ '}' :: after := by
    rw [trivia.passed, afterTrivia_of_sign rfl (by decide)]
    simp
  have header := (heads _ _).mpr ((heads_of_first? read (by simp)).mpr rfl)
  rw [parse_iff_denotes, String.toList_ofList]
  refine ⟨_, front ++ last, after, by simpa [inQuotes] using header, keyword?_shader, ?_, ?_, ?_⟩
  · simpa only [Phrase.blockText, reduceCtorEq, if_false] using opens
  · simp only [Phrase.blockText, reduceCtorEq, if_false, opens]
    exact afterBlock?_of_closes closes after
  · simp only [Phrase.shaderName, reduceCtorEq, if_false, Phrase.nameValue_quoted, String.ofList_toList]
    exact (only s).mpr rfl

end

/-- Whether the rendering of a shader is cut in two in a gap, after the part `before` of the gap. -/
def Shader.IsCutAt (s : Shader) (gap : Gap) (before front back : List Char) : Prop :=
  ∃ pieces text more after, s.pieces = pieces ++ ⟨gap, text⟩ :: more ∧ gap.text = before ++ after ∧
    front = laid pieces ++ before ∧ back = after ++ (text ++ laid more)

def cullShader : Shader :=
  let inner : Block := { Block.empty with states := Settings.empty.insert .cull "Off" }
  { Block.empty with name := "T", subShaders := [{ toBlock := inner, passes := [] }] }

theorem cullShader_isRepresentable : cullShader.IsRepresentable :=
  ⟨by decide +kernel, by decide +kernel, by decide +kernel⟩

section

variable {s : Shader} {gap : Gap} {before front back : List Char}

theorem Shader.IsCutAt.toList_render (h : s.IsCutAt gap before front back) :
    s.render.toList = front ++ back := by
  obtain ⟨pieces, text, more, after, whole, parts, rfl, rfl⟩ := h
  rw [toList_render_eq_laid, whole, laid_append, laid_cons, parts]
  simp

/-- A shader is read back with a text put where its rendering is cut, if the gap admits it there. -/
theorem Shader.IsCutAt.parse (h : s.IsCutAt gap before front back) (representable : s.IsRepresentable)
    {between : List Char}
    (admits : ∀ after, gap.text = before ++ after → gap.Admits (before ++ (between ++ after))) :
    Shader.parse (String.ofList (front ++ between ++ back)) = .ok s := by
  obtain ⟨pieces, text, more, after, whole, parts, rfl, rfl⟩ := h
  refine parse_of_isRelaid representable ?_
  rw [whole]
  exact isRelaid_append.mpr ⟨laid pieces, _, by simp, isRelaid_laid pieces,
    before ++ (between ++ after), laid more, admits after parts, rfl, isRelaid_laid more⟩

end
end ShaderText
