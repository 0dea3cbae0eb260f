import ShaderText.Proofs.Crossing
import ShaderText.Proofs.Phrase

/-! The statement that a written word makes with the text after it. Main statements: a string body, a
single value and the inside of a block are read back as they stand, and nothing else is. The second
part also holds in a region that ends too early, at a closing brace of the text.
-/
namespace ShaderText

/-- Whether a text between quotes is one string. -/
def IsStringBody (text : String) : Prop := afterQuote? (text.toList ++ ['"']) = some []

instance (text : String) : Decidable (IsStringBody text) := inferInstanceAs (Decidable (_ = _))

/-- Whether a text is one value: a string, a block, or a word. -/
def isSingleValue : List Char → Bool
  | [] => false
  | '"' :: inside => afterQuote? inside == some []
  | '{' :: inside => afterBlock? ('{' :: inside) == some []
  | cs => cs.all fun c => !isSpace c

/-- Whether a text is a front part of another that misses nothing, or all from a closing brace on. -/
def IsCut (cs text : List Char) : Prop :=
  ∃ missing, text = cs ++ missing ∧ (missing = [] ∨ ∃ tail, missing = '}' :: tail)

theorem isCut_refl (cs : List Char) : IsCut cs cs := ⟨[], by simp, .inl rfl⟩

theorem IsCut.of_append {cs front text : List Char} (h : IsCut cs (front ++ text))
    (noBrace : '}' ∉ front) :
    ∃ rest, cs = front ++ rest ∧ IsCut rest text := by
  induction front generalizing cs with
  | nil => exact ⟨cs, rfl, h⟩
  | cons c front ih =>
    simp only [List.mem_cons, not_or] at noBrace
    obtain ⟨missing, whole, kind⟩ := h
    cases cs with
    | nil =>
      rcases kind with rfl | ⟨tail, rfl⟩
      · simp at whole
      · simp only [List.cons_append, List.nil_append, List.cons.injEq] at whole
        exact absurd whole.1.symm noBrace.1
    | cons d cs =>
      obtain ⟨rfl, more⟩ := List.cons.inj whole
      obtain ⟨rest, rfl, cut⟩ := ih ⟨missing, more, kind⟩ noBrace.2
      exact ⟨rest, rfl, cut⟩

theorem IsCut.of_cons {c : Char} {cs text : List Char} (h : IsCut cs (c :: text)) (noBrace : c ≠ '}') :
    ∃ rest, cs = c :: rest ∧ IsCut rest text :=
  have cut : IsCut cs ([c] ++ text) := h
  cut.of_append (by simpa using noBrace.symm)

theorem isSpace_space : isSpace ' ' := rfl

theorem isSpace_break : isSpace '\n' := rfl

theorem not_isSpace_sign {c : Char} (space : isSpace c) :
    c ≠ '{' ∧ c ≠ '}' ∧ c ≠ '"' ∧ c ≠ '/' ∧ c ≠ '*' := by
  refine ⟨?_, ?_, ?_, ?_, ?_⟩ <;>
  · rintro rfl
    exact absurd space (by decide)

theorem afterSpaces_cons {c : Char} (h : isSpace c) (cs : List Char) :
    afterSpaces (c :: cs) = afterSpaces cs := by
  simp [afterSpaces, h]

theorem afterSpaces_of_not_isSpace {c : Char} (h : isSpace c = false) (cs : List Char) :
    afterSpaces (c :: cs) = c :: cs := by
  simp [afterSpaces, h]

theorem afterSpaces_margin (n : Nat) (cs : List Char) :
    afterSpaces (List.replicate n ' ' ++ cs) = afterSpaces cs := by
  induction n with
  | zero => rfl
  | succ n ih =>
    rw [List.replicate_succ, List.cons_append, afterSpaces_cons rfl]
    exact ih

theorem afterComment?_cons {c : Char} (noSlash : c ≠ '/') (cs : List Char) :
    afterComment? (c :: cs) = none := by
  unfold afterComment?
  split
  · rename_i equal
    exact absurd (List.cons.inj equal).1 noSlash
  · rename_i equal
    exact absurd (List.cons.inj equal).1 noSlash
  · rfl

theorem afterTrivia_of_sign {c : Char} (notSpace : isSpace c = false) (noSlash : c ≠ '/')
    (cs : List Char) :
    afterTrivia (c :: cs) = c :: cs := by
  have noComment := afterComment?_cons noSlash cs
  rw [afterTrivia, afterSpaces_of_not_isSpace notSpace]
  split
  · rfl
  · rename_i rest comment
    rw [noComment] at comment
    simp at comment

theorem afterTrivia_cons {c : Char} (space : isSpace c) (cs : List Char) :
    afterTrivia (c :: cs) = afterTrivia cs := by
  rw [afterTrivia, afterTrivia, afterSpaces_cons space]

/-- Whether a text is read as the name of a statement wherever a space follows. -/
def isName (word : List Char) : Bool := word.all (fun c => isNameChar c && c != '/') && !word.isEmpty

/-- Whether a text is read as the name of a statement: no comment begins with it. -/
def isWord (word : List Char) : Bool :=
  !word.isEmpty && word.all isNameChar && (afterComment? word).isNone

theorem isWord_of_isName {word : List Char} (h : isName word) : isWord word := by
  cases word with
  | nil => simp [isName] at h
  | cons c word =>
    simp only [isName, Bool.and_eq_true, List.all_eq_true, bne_iff_ne] at h
    have noComment := afterComment?_cons (h.1 c List.mem_cons_self).2 word
    simp only [isWord, Bool.and_eq_true, List.all_eq_true]
    exact ⟨⟨rfl, fun d member => (h.1 d member).1⟩, by rw [noComment]; rfl⟩

/-- No comment begins with a word and the space after it. -/
theorem afterComment?_append {cs : List Char} {space : Char} (h : afterComment? cs = none)
    (nonempty : cs ≠ []) (separates : isSpace space) (rest : List Char) :
    afterComment? (cs ++ space :: rest) = none := by
  match cs with
  | [] => exact absurd rfl nonempty
  | [c] =>
    obtain ⟨-, -, -, slash, star⟩ := not_isSpace_sign separates
    simp [afterComment?, slash, star]
  | c :: d :: cs =>
    by_cases noSlash : c = '/'
    · subst noSlash
      have slash : d ≠ '/' := by
        rintro rfl
        simp [afterComment?] at h
      have star : d ≠ '*' := by
        rintro rfl
        simp [afterComment?] at h
      simp [afterComment?, slash, star]
    · exact afterComment?_cons noSlash _

namespace Phrase

/-- What a word says together with the text after it. -/
def ofWord (word after : List Char) : Phrase :=
  let found := Remainder.ofValue (afterSpaces after)
  ⟨found.kind, word, found.value.take (found.value.length - found.rest.length), found.rest⟩

theorem first?_margin (n : Nat) (cs : List Char) : first? (List.replicate n ' ' ++ cs) = first? cs := by
  rw [first?, first?, afterSpaces_margin]

theorem first?_of_ends {word after : List Char} (filled : word ≠ []) (inName : word.all isNameChar)
    (noComment : afterComment? (word ++ after) = none) (ends : ∀ c ∈ after.head?, isNameChar c = false) :
    first? (word ++ after) = some
      (match sentinel? word with
      | some s => ⟨.program s, word, [], after⟩
      | none => ofWord word after) := by
  cases word with
  | nil => exact absurd rfl filled
  | cons c word =>
    simp only [List.all_cons, Bool.and_eq_true] at inName
    obtain ⟨head, more⟩ := inName
    have notSpace : isSpace c = false := by
      simp only [isNameChar, Bool.not_eq_true', Bool.or_eq_false_iff] at head
      exact head.1.1.1
    have inWord : ∀ d ∈ word, isNameChar d := List.all_eq_true.mp more
    have stops : after.dropWhile isNameChar = after ∧ after.takeWhile isNameChar = [] := by
      cases after with
      | nil => exact ⟨rfl, rfl⟩
      | cons d after => simp [ends d rfl]
    have behind : (word ++ after).dropWhile isNameChar = after := by
      rw [List.dropWhile_append_of_pos inWord, stops.1]
    have front : (word ++ after).takeWhile isNameChar = word := by
      rw [List.takeWhile_append_of_pos inWord, stops.2, List.append_nil]
    have whole : (c :: (word ++ after)).take ((c :: (word ++ after)).length - after.length) = c :: word := by
      rw [← List.cons_append, List.length_append, Nat.add_sub_cancel, List.take_left]
    rw [List.cons_append] at noComment
    rw [first?, List.cons_append, afterSpaces_of_not_isSpace notSpace]
    simp only [behind, front, Remainder.ofName, noComment, whole]
    cases sentinel? (c :: word) with
    | some s => simp
    | none => rfl

theorem first?_of_isWord {word : List Char} {space : Char} (h : isWord word) (separates : isSpace space)
    (rest : List Char) :
    first? (word ++ space :: rest) = some
      (match sentinel? word with
      | some s => ⟨.program s, word, [], space :: rest⟩
      | none => ofWord word rest) := by
  simp only [isWord, Bool.and_eq_true, Bool.not_eq_true', List.isEmpty_eq_false_iff,
    Option.isNone_iff_eq_none] at h
  obtain ⟨⟨filled, inName⟩, noComment⟩ := h
  rw [first?_of_ends filled inName (afterComment?_append noComment filled separates rest)
    (by simp [isNameChar, separates])]
  have same : ofWord word (space :: rest) = ofWord word rest := by rw [ofWord, ofWord, afterSpaces_cons separates]
  rw [same]

theorem first?_of_isName {word : List Char} {space : Char} (name : isName word)
    (separates : isSpace space)
    (rest : List Char) :
    first? (word ++ space :: rest) = some
      (match sentinel? word with
      | some s => ⟨.program s, word, [], space :: rest⟩
      | none => ofWord word rest) :=
  first?_of_isWord (isWord_of_isName name) separates rest

theorem first?_of_free {word : List Char} {space : Char} (name : isName word)
    (free : sentinel? word = none)
    (separates : isSpace space) (rest : List Char) :
    first? (word ++ space :: rest) = some (ofWord word rest) := by
  rw [first?_of_isName name separates, free]

end Phrase

theorem isName_renderState (k : RenderState) : isName k.word.toList ∧ keyword? k.word.toList = none := by
  cases k <;> decide

theorem isName_stencilField (k : StencilField) :
    isName k.word.toList ∧ sentinel? k.word.toList = none := by
  cases k <;> decide

theorem isName_keyword (k : Keyword) : isName k.word.toList := by
  cases k with
  | program s => cases s <;> decide
  | _ => decide

theorem eq_append_of_afterQuote? {cs rest : List Char} (h : afterQuote? cs = some rest) :
    ∃ inside, cs = inside ++ '"' :: rest := by
  fun_induction afterQuote? cs with
  | case1 => simp at h
  | case2 cs =>
    obtain rfl := Option.some.inj h
    exact ⟨[], rfl⟩
  | case3 c cs ih =>
    obtain ⟨inside, rfl⟩ := ih h
    exact ⟨'\\' :: c :: inside, rfl⟩
  | case4 c cs _ _ ih =>
    obtain ⟨inside, rfl⟩ := ih h
    exact ⟨c :: inside, rfl⟩

theorem tagToken?_quote {cs rest : List Char} (closes : afterQuote? cs = some rest) :
    ∃ inside, cs = inside ++ '"' :: rest ∧ tagToken? ('"' :: cs) = some (inside, rest) := by
  obtain ⟨inside, rfl⟩ := eq_append_of_afterQuote? closes
  have length : (inside ++ '"' :: rest).length - rest.length - 1 = inside.length := by
    rw [List.length_append, List.length_cons]
    omega
  exact ⟨inside, rfl, by simp only [tagToken?, closes, length, List.take_left]⟩

theorem length_lt_of_afterQuote?_eq_none {cs tail rest : List Char} (h : afterQuote? cs = none)
    (closes : afterQuote? (cs ++ tail) = some rest) : rest.length < tail.length := by
  fun_induction afterQuote? cs with
  | case1 => exact (afterQuote?_suffix closes).2
  | case2 => simp at h
  | case3 c cs ih => exact ih h closes
  | case4 c cs notQuote notEscape ih =>
    by_cases escape : c = '\\'
    · cases cs with
      | cons d cs => exact (notEscape d cs escape rfl).elim
      | nil =>
        subst escape
        cases tail with
        | nil => simp [afterQuote?] at closes
        | cons d tail =>
          have closes' : afterQuote? tail = some rest := closes
          have shorter := (afterQuote?_suffix closes').2
          simp only [List.length_cons]
          omega
    · refine ih h ?_
      rw [← closes, List.cons_append]
      symm
      rw [afterQuote?]
      · exact notQuote
      · exact fun d more equal => absurd equal escape

theorem afterQuote?_of_append {cs : List Char} (tail : List Char)
    (h : afterQuote? (cs ++ tail) = some tail) :
    afterQuote? cs = some [] := by
  cases closes : afterQuote? cs with
  | none => exact absurd (length_lt_of_afterQuote?_eq_none closes h) (Nat.lt_irrefl _)
  | some rest =>
    have longer := afterQuote?_append tail closes
    rw [h] at longer
    simpa using (Option.some.inj longer).symm

theorem afterClosing?_of_append {depth : Nat} {mode : Mode} {cs : List Char} (tail : List Char)
    (h : afterClosing? depth mode (cs ++ tail) = some tail) : afterClosing? depth mode cs = some [] := by
  cases crossed : across? depth mode cs with
  | some left =>
    rw [afterClosing?_append tail crossed] at h
    exact absurd (afterClosing?_suffix h).2 (Nat.lt_irrefl _)
  | none =>
    obtain ⟨rest, closes⟩ := afterClosing?_of_across?_eq_none crossed
    have whole := closes tail
    rw [h] at whole
    have empty : rest = [] := by simpa using (Option.some.inj whole).symm
    have alone := closes []
    rwa [List.append_nil, empty] at alone

theorem take_append_of_suffix {cs rest : List Char} (h : rest <:+ cs) :
    cs.take (cs.length - rest.length) ++ rest = cs := by
  obtain ⟨front, rfl⟩ := h
  rw [List.length_append, Nat.add_sub_cancel, List.take_left]

theorem Remainder.rest_of_unclosed {cs afterName : List Char} (block : (ofName cs afterName).kind = .block)
    (never : afterBlock? ((ofName cs afterName).value.take
      ((ofName cs afterName).value.length - (ofName cs afterName).rest.length)) = none) :
    (ofName cs afterName).rest = [] := by
  revert block never
  unfold ofName
  split
  · intro block
    simp at block
  · split
    · intro block
      simp at block
    · generalize afterSpaces afterName = value
      unfold ofValue
      split
      · intro block
        simp at block
      · intro block
        simp at block
      · rename_i inside
        intro _ never
        cases closes : afterBlock? ('{' :: inside) with
        | none => rfl
        | some rest =>
          have split := take_append_of_suffix (afterClosing?_suffix closes).1
          have closes' : afterClosing? 0 .code ('{' :: inside) = some rest := closes
          rw [← split] at closes'
          have alone : afterBlock? _ = some [] := afterClosing?_of_append rest closes'
          simp only [closes, Option.getD_some, alone] at never
          exact absurd never (by simp)
      · intro block
        simp at block

theorem Remainder.length_rest_lt {c : Char} (h : isSpace c = false) (cs : List Char) :
    (ofValue (c :: cs)).rest.length < (c :: cs).length := by
  unfold ofValue
  split
  · simp at *
  · rename_i inside equal
    obtain ⟨rfl, rfl⟩ := List.cons.inj equal
    cases closes : afterQuote? cs with
    | none => simp
    | some rest =>
      have := (afterQuote?_suffix closes).2
      simp only [Option.getD_some, List.length_cons]
      omega
  · rename_i inside equal
    obtain ⟨rfl, rfl⟩ := List.cons.inj equal
    cases closes : afterBlock? ('{' :: cs) with
    | none => simp
    | some rest => exact (afterClosing?_suffix closes).2
  · have shorter := (afterBare_suffix cs).length_le
    have step : afterBare (c :: cs) = afterBare cs := by simp [afterBare, h]
    simp only [step, List.length_cons]
    omega

theorem Remainder.ofValue_kind_append {value : List Char} (h : value ≠ []) (rest : List Char) :
    (ofValue (value ++ rest)).kind = (ofValue value).kind := by
  cases value with
  | nil => exact absurd rfl h
  | cons c value =>
    by_cases quote : c = '"'
    · subst quote
      rfl
    · by_cases brace : c = '{'
      · subst brace
        rfl
      · simp [ofValue, quote, brace]

theorem Remainder.kind_of_isSingleValue {value : List Char} (h : isSingleValue value) :
    (ofValue value).kind ≠ .comment ∧ (ofValue value).kind ≠ .empty := by
  unfold isSingleValue at h
  split at h
  · simp at h
  · simp [ofValue]
  · simp [ofValue]
  · rename_i nonempty noQuote noBrace
    cases value with
    | nil => exact absurd rfl nonempty
    | cons c cs =>
      have bare : (ofValue (c :: cs)).kind = .bare := by simp [ofValue]
      simp [bare]

theorem afterSpaces_of_isSingleValue {value : List Char} (h : isSingleValue value) (tail : List Char) :
    afterSpaces (value ++ tail) = value ++ tail := by
  unfold isSingleValue at h
  split at h
  · contradiction
  · exact afterSpaces_of_not_isSpace (by decide) _
  · exact afterSpaces_of_not_isSpace (by decide) _
  · rename_i filled _ _
    cases value with
    | nil => exact absurd rfl filled
    | cons c value =>
      have visible := List.all_eq_true.mp h c List.mem_cons_self
      exact afterSpaces_of_not_isSpace (by simpa using visible) _

theorem Remainder.rest_of_isSingleValue {value tail : List Char} (h : isSingleValue value)
    (ends : ∀ c ∈ tail.head?, isSpace c) : (ofValue (value ++ tail)).rest = tail := by
  unfold isSingleValue at h
  split at h
  · contradiction
  · have closes := afterQuote?_append tail (beq_iff_eq.mp h)
    simpa [ofValue] using congrArg (Option.getD · []) closes
  · have closes : afterBlock? (_ ++ tail) = some tail := afterClosing?_append_tail tail (beq_iff_eq.mp h)
    simpa [ofValue] using congrArg (Option.getD · []) closes
  · rename_i filled noQuote noBrace
    cases value with
    | nil => exact absurd rfl filled
    | cons c cs =>
      have quote : c ≠ '"' := fun equal => noQuote cs (by rw [equal])
      have brace : c ≠ '{' := fun equal => noBrace cs (by rw [equal])
      have behind : afterBare tail = tail := by
        cases tail with
        | nil => rfl
        | cons d tail => simp [afterBare, ends d rfl]
      have whole : afterBare ((c :: cs) ++ tail) = tail := by
        rw [afterBare, List.dropWhile_append_of_pos (List.all_eq_true.mp h)]
        exact behind
      simpa [ofValue, quote, brace] using whole

theorem not_isSpace_head_afterSpaces {cs rest : List Char} {c : Char} (h : afterSpaces cs = c :: rest) :
    isSpace c = false := by
  have front : cs.dropWhile isSpace = c :: rest := h
  have := List.head_dropWhile_not (p := isSpace) (l := cs) (by simp [front])
  simpa only [front, List.head_cons] using this

namespace Phrase

theorem ofWord_split {word after : List Char} (h : (ofWord word after).kind ≠ .empty) :
    (ofWord word after).value ≠ [] ∧
      afterSpaces after = (ofWord word after).value ++ (ofWord word after).rest := by
  obtain ⟨whole, suffix⟩ := Remainder.ofValue_suffix (afterSpaces after)
  have split := take_append_of_suffix suffix
  refine ⟨?_, (split.trans whole).symm⟩
  intro empty
  have value : (Remainder.ofValue (afterSpaces after)).value.take
    ((Remainder.ofValue (afterSpaces after)).value.length -
      (Remainder.ofValue (afterSpaces after)).rest.length) = [] := empty
  rw [value, List.nil_append, whole] at split
  cases front : afterSpaces after with
  | nil => exact h (by simp [ofWord, front, Remainder.ofValue])
  | cons c cs =>
    have shorter := Remainder.length_rest_lt (not_isSpace_head_afterSpaces front) cs
    rw [← front, split] at shorter
    exact absurd shorter (Nat.lt_irrefl _)

theorem ofWord_eq {word after rest : List Char} (value : List Char)
    (text : afterSpaces after = value ++ rest)
    (ends : (Remainder.ofValue (value ++ rest)).rest = rest) :
    ofWord word after = ⟨(Remainder.ofValue (value ++ rest)).kind, word, value, rest⟩ := by
  have whole := (Remainder.ofValue_suffix (value ++ rest)).1
  unfold ofWord
  rw [text]
  simp only [ends, whole]
  rw [List.length_append, Nat.add_sub_cancel, List.take_left]

theorem ofWord_of_isSingleValue {value : List Char} {space : Char} (h : isSingleValue value)
    (separates : isSpace space) (word rest : List Char) :
    ofWord word (value ++ space :: rest) =
      ⟨(Remainder.ofValue value).kind, word, value, space :: rest⟩ := by
  have nonempty : value ≠ [] := by
    rintro rfl
    simp [isSingleValue] at h
  have ends : (Remainder.ofValue (value ++ space :: rest)).rest = space :: rest :=
    Remainder.rest_of_isSingleValue h (by simpa using separates)
  rw [ofWord_eq value (afterSpaces_of_isSingleValue h _) ends, Remainder.ofValue_kind_append nonempty]

theorem isSingleValue_of_ofWord {word cs value text : List Char}
    (nonempty : (ofWord word cs).kind ≠ .empty)
    (same : (ofWord word cs).value = value) (cut : IsCut cs (value ++ '\n' :: text)) :
    isSingleValue value ∧ ∃ rest, cs = value ++ '\n' :: rest ∧ IsCut rest text := by
  obtain ⟨filled, split⟩ := ofWord_split nonempty
  rw [same] at filled split
  have flush : afterSpaces cs = cs := by
    obtain ⟨missing, whole, -⟩ := cut
    cases value with
    | nil => exact absurd rfl filled
    | cons c value =>
      have head := not_isSpace_head_afterSpaces (c := c) split
      cases cs with
      | nil => simp [afterSpaces] at split
      | cons d cs =>
        obtain ⟨rfl, -⟩ := List.cons.inj whole
        exact afterSpaces_of_not_isSpace head cs
  rw [flush] at split
  have after : IsCut (ofWord word cs).rest ('\n' :: text) := by
    obtain ⟨missing, whole, kind⟩ := cut
    rw [split, List.append_assoc] at whole
    exact ⟨missing, List.append_cancel_left whole, kind⟩
  obtain ⟨rest, ends, cut'⟩ := after.of_cons (by decide)
  rw [ends] at split
  refine ⟨?_, rest, split, cut'⟩
  have found : (Remainder.ofValue (value ++ '\n' :: rest)).rest = '\n' :: rest := by
    rw [← split, ← flush]
    exact ends
  cases value with
  | nil => exact absurd rfl filled
  | cons c value =>
    by_cases quote : c = '"'
    · subst quote
      cases closes : afterQuote? (value ++ '\n' :: rest) with
      | none => simp [Remainder.ofValue, closes] at found
      | some rest' =>
        simp only [List.cons_append, Remainder.ofValue, closes, Option.getD_some] at found
        rw [found] at closes
        simp [isSingleValue, afterQuote?_of_append _ closes]
    · by_cases brace : c = '{'
      · subst brace
        cases closes : afterBlock? ('{' :: value ++ '\n' :: rest) with
        | none =>
          rw [List.cons_append] at closes
          simp [Remainder.ofValue, closes] at found
        | some rest' =>
          rw [List.cons_append] at closes
          simp only [List.cons_append, Remainder.ofValue, closes, Option.getD_some] at found
          rw [found] at closes
          have alone : afterBlock? ('{' :: value) = some [] := afterClosing?_of_append _ closes
          simp [isSingleValue, alone]
      · have ends' : afterBare ((c :: value) ++ '\n' :: rest) = '\n' :: rest := by
          simpa [Remainder.ofValue, quote, brace] using found
        have bare := List.all_takeWhile (p := fun c => !isSpace c) (l := (c :: value) ++ '\n' :: rest)
        have whole := List.takeWhile_append_dropWhile (p := fun c => !isSpace c)
          (l := (c :: value) ++ '\n' :: rest)
        rw [show ((c :: value) ++ '\n' :: rest).dropWhile (fun c => !isSpace c) =
            '\n' :: rest from ends'] at whole
        rw [List.append_cancel_right whole] at bare
        simpa [isSingleValue, quote, brace] using bare

theorem ofWord_quoted {name : String} (h : IsStringBody name) (word rest : List Char) :
    ofWord word ('"' :: (name.toList ++ '"' :: rest)) =
      ⟨.quoted, word, '"' :: (name.toList ++ ['"']), rest⟩ := by
  have closes := afterQuote?_append rest h
  rw [List.append_assoc] at closes
  have closes' : afterQuote? (name.toList ++ '"' :: rest) = some rest := closes
  refine ofWord_eq ('"' :: (name.toList ++ ['"'])) ?_ ?_
  · rw [afterSpaces_of_not_isSpace (by decide)]
    simp
  · simp [Remainder.ofValue, closes']

theorem nameValue_quoted (kind : Kind) (word name rest : List Char) :
    nameValue ⟨kind, word, '"' :: (name ++ ['"']), rest⟩ = String.ofList name := by
  simp [nameValue]

theorem isStringBody_of_ofWord {word cs text : List Char} {name : String}
    (same : (ofWord word cs).nameValue = name)
    (cut : IsCut cs ('"' :: (name.toList ++ '"' :: '\n' :: text))) :
    IsStringBody name ∧ ∃ rest, cs = '"' :: (name.toList ++ '"' :: '\n' :: rest) ∧ IsCut rest text := by
  obtain ⟨cs, rfl, cut'⟩ := cut.of_cons (by decide)
  obtain ⟨missing, whole, kind⟩ := cut'
  have quoted : afterSpaces ('"' :: cs) = '"' :: cs := afterSpaces_of_not_isSpace (by decide) cs
  cases closes : afterQuote? cs with
  | some rest =>
    obtain ⟨inside, rfl⟩ := eq_append_of_afterQuote? closes
    have phrase : ofWord word ('"' :: (inside ++ '"' :: rest)) =
        ⟨.quoted, word, '"' :: (inside ++ ['"']), rest⟩ := by
      refine ofWord_eq ('"' :: (inside ++ ['"'])) ?_ ?_
      · rw [quoted]
        simp
      · simp [Remainder.ofValue, closes]
    rw [phrase, nameValue_quoted] at same
    obtain rfl : inside = name.toList := by rw [← same, String.toList_ofList]
    have body : IsStringBody name := by
      refine afterQuote?_of_append rest ?_
      rw [← closes]
      simp
    rw [List.append_assoc] at whole
    have after : IsCut rest ('\n' :: text) := by
      refine ⟨missing, ?_, kind⟩
      simpa using (List.append_cancel_left whole)
    obtain ⟨rest, rfl, cut'⟩ := after.of_cons (by decide)
    exact ⟨body, rest, rfl, cut'⟩
  | none =>
    -- an open string takes all of the text, quotes and line break included
    have phrase : ofWord word ('"' :: cs) = ⟨.quoted, word, '"' :: cs, []⟩ := by
      refine ofWord_eq ('"' :: cs) ?_ ?_
      · rw [quoted, List.append_nil]
      · simp [Remainder.ofValue, closes]
    rw [phrase] at same
    by_cases last : cs.getLast? = some '"'
    · have name' : name.toList = cs.dropLast := by simp [← same, nameValue, last]
      have split : cs = name.toList ++ ['"'] := by
        obtain ⟨front, rfl⟩ := List.getLast?_eq_some_iff.mp last
        rw [name', List.dropLast_concat]
      rw [split, List.append_assoc] at whole
      have missing' := List.append_cancel_left whole
      rcases kind with rfl | ⟨tail, rfl⟩ <;> simp at missing'
    · have name' : name.toList = '"' :: cs := by simp [← same, nameValue, last]
      rw [name', List.cons_append] at whole
      cases cs with
      | nil => rcases kind with rfl | ⟨tail, rfl⟩ <;> simp at whole
      | cons c cs =>
        obtain ⟨rfl, -⟩ := List.cons.inj whole
        simp [afterQuote?] at closes

theorem ofWord_block {inside : List Char} (h : Closes inside) (word : List Char) (margin : Nat)
    (rest : List Char) :
    ofWord word (List.replicate margin ' ' ++ ('{' :: (inside ++ '}' :: rest))) =
      ⟨.block, word, '{' :: (inside ++ ['}']), rest⟩ := by
  have closes : afterBlock? ('{' :: (inside ++ '}' :: rest)) = some rest := afterBlock?_of_closes h rest
  refine ofWord_eq ('{' :: (inside ++ ['}'])) ?_ ?_
  · rw [afterSpaces_margin, afterSpaces_of_not_isSpace (by decide)]
    simp
  · simp [Remainder.ofValue, closes]

theorem interior?_block (word inside rest : List Char) :
    interior? ⟨.block, word, '{' :: (inside ++ ['}']), rest⟩ = some inside := by
  simp [interior?]

theorem tagsText_block (word inside rest : List Char) :
    tagsText ⟨.block, word, '{' :: (inside ++ ['}']), rest⟩ = inside := by
  simp [tagsText]

theorem ofWord_of_kind_block {word after : List Char} (h : (ofWord word after).kind = .block) :
    ∃ inside, afterSpaces after = '{' :: inside ∧
      (ofWord word after).rest = (afterBlock? ('{' :: inside)).getD [] := by
  have kind : (Remainder.ofValue (afterSpaces after)).kind = .block := h
  have rest : (ofWord word after).rest = (Remainder.ofValue (afterSpaces after)).rest := rfl
  rw [rest]
  revert kind
  unfold Remainder.ofValue
  split
  · intro kind
    simp at kind
  · intro kind
    simp at kind
  · rename_i inside equal
    rw [equal]
    exact fun _ => ⟨inside, rfl, rfl⟩
  · intro kind
    simp at kind

theorem split_of_interior? {word after inside : List Char}
    (h : (ofWord word after).interior? = some inside) :
    afterSpaces after = '{' :: (inside ++ '}' :: (ofWord word after).rest) ∧
      ((ofWord word after).rest ≠ [] → Closes inside) := by
  unfold interior? at h
  split at h
  · rename_i block
    obtain ⟨kind, last⟩ := block
    obtain ⟨text, opens, ends⟩ := ofWord_of_kind_block kind
    have nonempty : (ofWord word after).kind ≠ .empty := by simp [kind]
    obtain ⟨filled, split⟩ := ofWord_split nonempty
    obtain ⟨front, value⟩ := List.getLast?_eq_some_iff.mp last
    rw [value, List.dropLast_concat] at h
    obtain rfl := Option.some.inj h
    have whole : (ofWord word after).value = '{' :: (front ++ ['}']) := by
      cases given : (ofWord word after).value with
      | nil => exact absurd given filled
      | cons c cs =>
        rw [given, List.tail_cons] at value
        rw [given, opens] at split
        rw [value, (List.cons.inj split).1]
    rw [whole] at split
    have split' : afterSpaces after = '{' :: (front ++ '}' :: (ofWord word after).rest) := by
      rw [split]
      simp
    refine ⟨split', fun more => ?_⟩
    rw [opens] at split'
    cases closes : afterBlock? ('{' :: text) with
    | none =>
      rw [closes] at ends
      exact absurd ends more
    | some rest =>
      rw [closes, Option.getD_some] at ends
      rw [split', ← ends] at closes
      refine afterClosing?_of_append (ofWord word after).rest ?_
      rw [List.append_assoc]
      exact closes
  · simp at h

end Phrase
end ShaderText
