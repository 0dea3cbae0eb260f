import ShaderText.Proofs.ReadBack

/-! Shaders that the format can represent. Every value is one token, and the braces of every program
close each other, so each row leaves the reader of the block where it found it. Main statement: what a
representable shader is written as is read as the shader.
-/
namespace ShaderText

/-- Whether a text is a word without quotes and braces in which no comment begins. -/
def isBareToken (cs : List Char) : Bool :=
  !cs.isEmpty && cs.all (fun c => !(isSpace c || c == '"' || c == '{' || c == '}')) &&
    !holds ['/', '/'] cs && !holds ['/', '*'] cs

/-- Whether a text is one value token: a string, a block or a bare token. -/
def IsValueToken (value : String) : Prop :=
  (value.toList.head? = some '"' ∧ afterQuote? value.toList.tail = some []) ∨
    (value.toList.head? = some '{' ∧ afterBlock? value.toList = some []) ∨ isBareToken value.toList

/-- Whether lines are a program as it is kept: without shared indentation, without an end of their own,
and with braces that close each other. -/
def IsKeptProgram (lines : List String) : Prop :=
  (lines = [] ∨ unindent (String.ofList (joinLines (lines.map String.toList))) = lines) ∧
    (∀ line ∈ lines, sameWord (firstWord line.toList) "ENDHLSL".toList = false) ∧
    afterBlock? ('{' :: '\n' :: linesText (lines.map String.toList) ++ ['}']) = some []

structure Block.IsRepresentable (b : Block) : Prop where
  tags : ∀ pair ∈ b.tags.toList, IsStringBody pair.1 ∧ IsStringBody pair.2
  states : ∀ entry ∈ b.states.entries, IsValueToken entry.2
  stencil : ∀ entry ∈ b.stencil.entries, IsValueToken entry.2
  program : ∀ lines ∈ b.program, IsKeptProgram lines

structure Shader.IsRepresentable (s : Shader) : Prop where
  name : IsStringBody s.name
  passNames : ∀ p ∈ s.passes, ∀ name ∈ p.name, IsStringBody name
  blocks : ∀ b ∈ s.blocks, b.IsRepresentable

instance (value : String) : Decidable (IsValueToken value) := inferInstanceAs (Decidable (_ ∨ _))

instance (lines : List String) : Decidable (IsKeptProgram lines) := inferInstanceAs (Decidable (_ ∧ _))

instance (b : Block) : Decidable b.IsRepresentable :=
  decidable_of_iff ((∀ pair ∈ b.tags.toList, IsStringBody pair.1 ∧ IsStringBody pair.2) ∧
      (∀ entry ∈ b.states.entries, IsValueToken entry.2) ∧
      (∀ entry ∈ b.stencil.entries, IsValueToken entry.2) ∧ ∀ lines ∈ b.program, IsKeptProgram lines)
    ⟨fun ⟨tags, states, stencil, program⟩ => ⟨tags, states, stencil, program⟩,
      fun ⟨tags, states, stencil, program⟩ => ⟨tags, states, stencil, program⟩⟩

theorem mem_of_isBareToken {cs : List Char} (h : isBareToken cs) {c : Char} (member : c ∈ cs) :
    isSpace c = false ∧ c ≠ '"' ∧ c ≠ '{' ∧ c ≠ '}' := by
  simp only [isBareToken, Bool.and_eq_true] at h
  simpa [and_assoc] using List.all_eq_true.mp h.1.1.2 c member

theorem isSingleValue_of_isBareToken {cs : List Char} (h : isBareToken cs) : isSingleValue cs := by
  cases cs with
  | nil => simp [isBareToken] at h
  | cons c cs =>
    obtain ⟨-, quote, brace, -⟩ := mem_of_isBareToken h List.mem_cons_self
    have noSpace : (c :: cs).all fun d => !isSpace d := by
      refine List.all_eq_true.mpr fun d member => ?_
      rw [(mem_of_isBareToken h member).1]
      rfl
    simpa [isSingleValue, quote, brace] using noSpace

theorem isSingleValue_of_isValueToken {value : String} (h : IsValueToken value) :
    isSingleValue value.toList := by
  rcases h with ⟨quote, closes⟩ | ⟨brace, closes⟩ | bare
  · cases text : value.toList with
    | nil => simp [text] at quote
    | cons c cs =>
      rw [text] at quote closes
      obtain rfl : c = '"' := by simpa using quote
      simpa [isSingleValue] using closes
  · cases text : value.toList with
    | nil => simp [text] at brace
    | cons c cs =>
      rw [text] at brace closes
      obtain rfl : c = '{' := by simpa using brace
      simpa [isSingleValue] using closes
  · exact isSingleValue_of_isBareToken bare

/-- A bare token opens nothing. A slash at its end waits for one more character. -/
theorem across?_isBareToken {cs : List Char} {mode : Mode} (code : mode.isCode)
    (plain : ∀ c ∈ cs, c ≠ '"' ∧ c ≠ '{' ∧ c ≠ '}') (noLine : holds ['/', '/'] cs = false)
    (noNote : holds ['/', '*'] cs = false)
    (waits : mode = .slash → ∀ c ∈ cs.head?, c ≠ '/' ∧ c ≠ '*') :
    ∃ mode' : Mode, mode'.isCode ∧ across? 1 mode cs = some (1, mode') := by
  induction cs generalizing mode with
  | nil => exact ⟨mode, code, rfl⟩
  | cons c cs ih =>
    obtain ⟨quote, opens, closes⟩ := plain c List.mem_cons_self
    simp only [holds, Bool.or_eq_false_iff] at noLine noNote
    have next : mode.next c = Mode.opened c := by
      cases mode with
      | code => rfl
      | slash =>
        obtain ⟨slash, star⟩ := waits rfl c rfl
        simp [Mode.next, slash, star]
      | _ => simp [Mode.isCode] at code
    have step : across? 1 mode (c :: cs) = across? 1 (Mode.opened c) cs := by
      simp [across?, opens, closes, next]
    rw [step]
    refine ih ?_ (fun d member => plain d (List.mem_cons_of_mem _ member)) noLine.2 noNote.2 ?_
    · by_cases slash : c = '/' <;> simp [Mode.opened, quote, slash, Mode.isCode]
    · intro opened d head
      have slash : c = '/' := by
        by_contra other
        simp [Mode.opened, quote, other] at opened
      cases cs with
      | nil => simp at head
      | cons e cs =>
        obtain rfl : e = d := by simpa using head
        have line := noLine.1
        have note := noNote.1
        simp only [slash, List.isPrefixOf_cons_cons, List.isPrefixOf_nil_left, beq_self_eq_true,
          Bool.true_and,           Bool.and_true, beq_eq_false_iff_ne] at line note
        exact ⟨Ne.symm line, Ne.symm note⟩

theorem closes_of_isValueToken {value : String} (h : IsValueToken value) : Closes value.toList := by
  rcases h with ⟨quote, closes⟩ | ⟨brace, closes⟩ | bare
  · cases text : value.toList with
    | nil => simp [text] at quote
    | cons c cs =>
      rw [text] at quote closes
      obtain rfl : c = '"' := by simpa using quote
      exact (isNeutral_string closes).closes
  · cases text : value.toList with
    | nil => simp [text] at brace
    | cons c cs =>
      rw [text] at brace closes
      obtain rfl : c = '{' := by simpa using brace
      exact (isNeutral_block closes).closes
  · have clear : ∀ c ∈ value.toList, c ≠ '"' ∧ c ≠ '{' ∧ c ≠ '}' := fun c member =>
      (mem_of_isBareToken bare member).2
    simp only [isBareToken, Bool.and_eq_true, Bool.not_eq_true'] at bare
    obtain ⟨⟨-, noLine⟩, noNote⟩ := bare
    have start : Mode.code.isCode := rfl
    exact closes_iff.mpr (across?_isBareToken start clear noLine noNote (by simp))

theorem isNeutral_isValueToken {value : String} (h : IsValueToken value) :
    IsNeutral (value.toList ++ ['\n']) := by
  obtain ⟨mode, code, crossed⟩ := closes_iff.mp (closes_of_isValueToken h)
  rw [IsNeutral, across?_append, crossed]
  cases mode <;> first | rfl | simp [Mode.isCode] at code

theorem isNeutral_rowsText_append {first second : List Row} (h : IsNeutral (rowsText 0 first))
    (h' : IsNeutral (rowsText 0 second)) : IsNeutral (rowsText 0 (first ++ second)) := by
  rw [rowsText_append]
  exact h.append h'

theorem closes_flushText {rows : List Row} (h : IsNeutral (rowsText 0 rows)) :
    Closes (flushText rows) := by
  have flush : IsNeutral (flushText rows) := h
  exact flush.closes

theorem isNeutral_rowsText_flatMap {α : Type} {items : List α} {rows : α → List Row}
    (h : ∀ item ∈ items, IsNeutral (rowsText 0 (rows item))) :
    IsNeutral (rowsText 0 (items.flatMap rows)) := by
  have text : rowsText 0 (items.flatMap rows) = items.flatMap fun item => rowsText 0 (rows item) := by
    simp [rowsText, List.flatMap_assoc]
  rw [text]
  exact IsNeutral.flatMap h

theorem isNeutral_rowsText_nest {word : String} {rows : List Row} (nonempty : word.toList ≠ [])
    (plain : word.toList.all isPlain) (h : Closes (flushText rows)) :
    IsNeutral (rowsText 0 (nest word rows)) := by
  have block : IsNeutral ('{' :: insideText 0 0 rows ++ ['}']) :=
    ((closes_insideText 0 0 rows).mpr h).isNeutral
  rw [← map_shift_zero (nest word rows), rowsText_nest _ _ _ nonempty]
  have split : List.replicate (0 * 0) ' ' ++ (word.toList ++ '\n' :: (List.replicate (0 * 0) ' ' ++
      '{' :: (insideText 0 0 rows ++ ['}', '\n']))) =
      word.toList ++ (['\n'] ++ (('{' :: insideText 0 0 rows ++ ['}']) ++ ['\n'])) := by
    simp
  rw [split]
  exact (isNeutral_of_isPlain plain).append (isNeutral_break.append (block.append isNeutral_break))

theorem isNeutral_settingRows {κ : Type} [WordFamily κ] {entries : List (κ × String)}
    (plain : ∀ k : κ, (WordFamily.word k).toList.all isPlain)
    (h : ∀ entry ∈ entries, IsValueToken entry.2) :
    IsNeutral (rowsText 0 (settingRows entries)) := by
  have text : rowsText 0 (settingRows entries) = entries.flatMap fun entry =>
      ((WordFamily.word entry.1).toList ++ [' ']) ++ (entry.2.toList ++ ['\n']) := by
    rw [settingRows, rowsText, List.flatMap_map]
    simp [Row.text]
  have space : IsNeutral [' '] := isNeutral_of_isPlain (by decide)
  rw [text]
  exact IsNeutral.flatMap fun entry member =>
    ((isNeutral_of_isPlain (plain entry.1)).append space).append (isNeutral_isValueToken (h entry member))

theorem isNeutral_tagsRows {t : Tags} (h : t.IsIntact) : IsNeutral (rowsText 0 t.rows) := by
  unfold Tags.rows
  by_cases none : t.isEmpty
  · rw [if_pos none]
    exact isNeutral_nil
  · have space : IsNeutral [' '] := isNeutral_of_isPlain (by decide)
    have word : IsNeutral Keyword.tags.word.toList := isNeutral_of_isPlain (by decide)
    have block := (space.append (isNeutral_pairsText h)).closes.isNeutral
    have text : rowsText 0 [Row.ofString t.line] = Keyword.tags.word.toList ++
        ([' '] ++ (('{' :: ([' '] ++ pairsText t.toList) ++ ['}']) ++ ['\n'])) := by
      rw [rowsText_cons, Row.text_of_ne_nil (by rw [Row.ofString, Tags.toList_line]; simp), Row.ofString,
        Tags.toList_line]
      simp [rowsText]
    rw [if_neg none, text]
    exact word.append (space.append (block.append isNeutral_break))

theorem startsLine_of_across?_linesText {lines : List (List Char)} {left : Nat × Mode}
    (crossed : across? 1 .code (linesText lines) = some left) : left.2.startsLine := by
  rcases List.eq_nil_or_concat lines with rfl | ⟨front, line, rfl⟩
  · obtain rfl := Option.some.inj crossed
    rfl
  · rw [List.concat_eq_append, linesText_append,
      show linesText [line] = line ++ ['\n'] by simp [linesText],
      ← List.append_assoc] at crossed
    exact startsLine_of_across?_break crossed

theorem across?_closing (sentinel : Sentinel) (depth : Nat) {mode : Mode} (h : mode.startsLine) :
    across? depth mode (sentinel.closing.toList ++ ['\n']) = some (depth, mode) := by
  cases sentinel <;> cases mode <;> first | rfl | simp [Mode.startsLine] at h

theorem rowsText_programRows (sentinel : Sentinel) (lines : List String) :
    rowsText 0 (programRows sentinel (some lines)) = (sentinel.word.toList ++ ['\n']) ++
      (linesText (lines.map String.toList) ++ (sentinel.closing.toList ++ ['\n'])) := by
  have text := rowsText_program 0 0 sentinel lines []
  have flush : (lines.map String.toList).map (indentLine (0 * 0)) = lines.map String.toList := by
    conv => rhs; rw [← List.map_id (lines.map String.toList)]
    refine List.map_congr_left fun line _ => ?_
    cases line <;> simp [indentLine]
  rw [map_shift_zero, List.append_nil, writtenProgram, flush] at text
  rw [text]
  simp

theorem across?_programRows (sentinel : Sentinel) (lines : List String) :
    across? 1 .code (rowsText 0 (programRows sentinel (some lines))) =
      across? 1 .code (linesText (lines.map String.toList)) := by
  have word : IsNeutral (sentinel.word.toList ++ ['\n']) := by cases sentinel <;> rfl
  rw [rowsText_programRows, across?_append, word, Option.bind_some, across?_append]
  cases crossed : across? 1 .code (linesText (lines.map String.toList)) with
  | none => rfl
  | some left => exact across?_closing sentinel left.1 (startsLine_of_across?_linesText crossed)

theorem closes_programRows (sentinel : Sentinel) (lines : List String) :
    Closes (flushText (programRows sentinel (some lines))) ↔
      Closes ('\n' :: linesText (lines.map String.toList)) := by
  have start (cs : List Char) : across? 1 .code ('\n' :: cs) = across? 1 .code cs := rfl
  rw [closes_iff, closes_iff, flushText, start, start, across?_programRows]

theorem isNeutral_linesText {lines : List String} (h : IsKeptProgram lines) :
    IsNeutral (linesText (lines.map String.toList)) := by
  obtain ⟨mode, code, crossed⟩ := closes_iff.mp h.2.2
  have crossed' : across? 1 .code (linesText (lines.map String.toList)) = some (1, mode) := crossed
  have lineStart : mode.startsLine := startsLine_of_across?_linesText crossed'
  have plain : mode = .code := by
    cases mode <;> first | rfl | simp [Mode.isCode, Mode.startsLine] at code lineStart
  rw [IsNeutral, crossed', plain]

theorem isNeutral_programRows {sentinel : Sentinel} {program : Option (List String)}
    (h : ∀ lines ∈ program, IsKeptProgram lines) :
    IsNeutral (rowsText 0 (programRows sentinel program)) := by
  cases program with
  | none => exact isNeutral_nil
  | some lines =>
    rw [IsNeutral, across?_programRows]
    exact isNeutral_linesText (h lines rfl)

theorem realign_of_isKeptProgram {lines : List String} (h : IsKeptProgram lines) :
    realign lines = lines := by
  rcases h.1 with rfl | kept
  · rfl
  · unfold unindent at kept
    rw [String.toList_ofList, unindentText_eq_align] at kept
    have again := realign_realign ((splitLines (joinLines (lines.map String.toList))).map String.ofList)
    have same : realign ((splitLines (joinLines (lines.map String.toList))).map String.ofList) =
        lines := by
      unfold realign
      rw [List.map_map]
      simpa [Function.comp_def] using kept
    rwa [same] at again

theorem isProgramLine_of_isKeptProgram {lines : List String} (h : IsKeptProgram lines) :
    ∀ line ∈ lines, isProgramLine line := by
  intro line member
  refine isProgramLine_iff.mpr ⟨?_, h.2.1 line member⟩
  rcases h.1 with rfl | kept
  · simp at member
  · rw [← kept] at member
    unfold unindent at member
    rw [String.toList_ofList, unindentText_eq_align] at member
    obtain ⟨chars, inAligned, rfl⟩ := List.mem_map.mp member
    rw [String.toList_ofList]
    exact not_mem_align (fun line member => not_mem_of_mem_splitLines member) chars inAligned

theorem isNeutral_stencilRows {s : Settings StencilField}
    (h : ∀ entry ∈ s.entries, IsValueToken entry.2) :
    IsNeutral (rowsText 0 s.rows) ∧ IsNeutral (rowsText 0 (stencilRows s)) := by
  have rows : IsNeutral (rowsText 0 s.rows) := by
    rw [Settings.rows_eq]
    exact isNeutral_settingRows (fun k => by cases k <;> decide) h
  refine ⟨rows, ?_⟩
  unfold stencilRows
  split
  · exact isNeutral_nil
  · exact isNeutral_rowsText_nest (by decide) (by decide) (closes_flushText rows)

namespace Block.IsRepresentable

variable {b : Block}

theorem isIntact (h : b.IsRepresentable) : b.IsIntact where
  tags := h.tags
  states entry member := isSingleValue_of_isValueToken (h.states entry member)
  stencil entry member := isSingleValue_of_isValueToken (h.stencil entry member)
  stencilCloses := closes_flushText (isNeutral_stencilRows h.stencil).1
  program lines some := isProgramLine_of_isKeptProgram (h.program lines some)

theorem isNeutral (h : b.IsRepresentable) (sentinel : Sentinel) :
    IsNeutral (rowsText 0 (b.rows sentinel)) := by
  have states : IsNeutral (rowsText 0 b.states.rows) := by
    rw [Settings.rows_eq]
    exact isNeutral_settingRows (fun k => by cases k <;> decide) h.states
  exact isNeutral_rowsText_append (isNeutral_rowsText_append (isNeutral_rowsText_append
    (isNeutral_tagsRows h.tags) states) (isNeutral_stencilRows h.stencil).2)
    (isNeutral_programRows h.program)

theorem realigned (h : b.IsRepresentable) : b.realigned = b := by
  have same : b.program.map realign = b.program := by
    cases kept : b.program with
    | none => rfl
    | some lines => rw [Option.map_some, realign_of_isKeptProgram (h.program lines kept)]
  rw [Block.realigned, same]

end Block.IsRepresentable

theorem Pass.isIntact_of_isRepresentable {p : Pass} (name : ∀ text ∈ p.name, IsStringBody text)
    (block : p.toBlock.IsRepresentable) : p.IsIntact ∧ IsNeutral (rowsText 0 p.rows) := by
  have inner : IsNeutral (rowsText 0 p.innerRows) :=
    isNeutral_rowsText_append (isNeutral_nameRows name) (block.isNeutral Pass.sentinel)
  exact ⟨⟨name, block.isIntact, closes_flushText inner⟩,
    isNeutral_rowsText_nest (by decide) (by decide) (closes_flushText inner)⟩

theorem SubShader.isIntact_of_isRepresentable {s : SubShader}
    (names : ∀ p ∈ s.passes, ∀ name ∈ p.name, IsStringBody name)
    (blocks : ∀ b ∈ s.blocks, b.IsRepresentable) :
    s.IsIntact ∧ IsNeutral (rowsText 0 s.rows) := by
  have block := blocks s.toBlock List.mem_cons_self
  have passes (p : Pass) (member : p ∈ s.passes) : p.IsIntact ∧ IsNeutral (rowsText 0 p.rows) :=
    Pass.isIntact_of_isRepresentable (names p member)
      (blocks p.toBlock (List.mem_cons_of_mem _ (List.mem_map_of_mem member)))
  have inner : IsNeutral (rowsText 0 s.innerRows) :=
    isNeutral_rowsText_append (block.isNeutral Shader.sentinel)
      (isNeutral_rowsText_flatMap fun p member => (passes p member).2)
  exact ⟨⟨block.isIntact, fun p member => (passes p member).1, closes_flushText inner⟩,
    isNeutral_rowsText_nest (by decide) (by decide) (closes_flushText inner)⟩

namespace Shader.IsRepresentable

variable {s : Shader}

theorem isIntact (h : s.IsRepresentable) : s.IsIntact := by
  have block := h.blocks s.toBlock List.mem_cons_self
  have subs (sub : SubShader) (member : sub ∈ s.subShaders) :
      sub.IsIntact ∧ IsNeutral (rowsText 0 sub.rows) :=
    SubShader.isIntact_of_isRepresentable
      (fun p inSub => h.passNames p (List.mem_flatMap.mpr ⟨sub, member, inSub⟩))
      fun b inSub => h.blocks b (List.mem_cons_of_mem _ (List.mem_flatMap.mpr ⟨sub, member, inSub⟩))
  have inner : IsNeutral (rowsText 0 s.innerRows) :=
    isNeutral_rowsText_append (block.isNeutral Shader.sentinel)
      (isNeutral_rowsText_flatMap fun sub member => (subs sub member).2)
  exact ⟨h.name, block.isIntact, fun sub member => (subs sub member).1, closes_flushText inner⟩

theorem realigned (h : s.IsRepresentable) : s.realigned = s := by
  have block := (h.blocks s.toBlock List.mem_cons_self).realigned
  have subs : s.subShaders.map SubShader.realigned = s.subShaders := by
    conv => rhs; rw [← List.map_id s.subShaders]
    refine List.map_congr_left fun sub member => ?_
    have inShader (b : Block) (inSub : b ∈ sub.blocks) : b.IsRepresentable :=
      h.blocks b (List.mem_cons_of_mem _ (List.mem_flatMap.mpr ⟨sub, member, inSub⟩))
    have passes : sub.passes.map Pass.realigned = sub.passes := by
      conv => rhs; rw [← List.map_id sub.passes]
      refine List.map_congr_left fun p inSub => ?_
      rw [Pass.realigned, (inShader p.toBlock
        (List.mem_cons_of_mem _ (List.mem_map_of_mem inSub))).realigned]
      rfl
    rw [SubShader.realigned, (inShader sub.toBlock List.mem_cons_self).realigned, passes]
    rfl
  rw [Shader.realigned, block, subs]

end Shader.IsRepresentable

/-- What a representable shader is written as is read as the shader. -/
theorem parse_render_of_isRepresentable (s : Shader) (h : s.IsRepresentable) :
    Shader.parse s.render = .ok s :=
  Shader.parse_render_of_isIntact h.isIntact h.realigned

/-- A shader with a program in the block of a sub-shader and in a pass. -/
def litShader : Shader :=
  let outer : Block :=
    { Block.empty with
      tags := (Tags.empty.insert "Queue" "Transparent").insert "RenderType" "a \\\" b"
      states := Settings.empty.insert .colorMask "[_Mask]"
      program := some [] }
  let forward : Block :=
    { Block.empty with
      states := (Settings.empty.insert .cull "Off").insert .zWrite "\"On // kept\""
      stencil := (Settings.empty.insert .ref "2").insert .comp "\x7b a \x7d"
      program := some ["void f() \x7b", "", "    g(\"\x7d\"); // \x7b", "\x7d"] }
  { Block.empty with
    name := "Custom/Lit"
    subShaders := [{ toBlock := outer, passes := [{ toBlock := forward, name := some "FORWARD" }] }] }

theorem parse_render_litShader :
    litShader.IsRepresentable ∧ Shader.parse litShader.render = .ok litShader := by
  have representable : litShader.IsRepresentable :=
    ⟨by decide +kernel, by decide +kernel, by decide +kernel⟩
  exact ⟨representable, parse_render_of_isRepresentable litShader representable⟩

end ShaderText
