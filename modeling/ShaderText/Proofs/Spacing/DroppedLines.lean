import ShaderText.Proofs.Spacing.Gaps

/-! Lines that a body drops. A word without a meaning takes its value with it, and after a bare value all
bare arguments of the line; the word of a missing child block takes one value. At the end of a body a
word has no value to take. Main statement: a representable shader is read back with a line of whole
dropped statements between two of its lines.
-/
namespace ShaderText

/-- Whether a text is a bare word that can go with the statement on its line. -/
def isArgument (cs : List Char) : Bool :=
  isBareToken cs && (keyword? cs).isNone && (renderState? cs).isNone

namespace Scope

/-- Whether a word has no meaning in a body, so that the bare arguments after it go with it. -/
def isPlain (scope : Scope) (cs : List Char) : Bool :=
  isWord cs && (renderState? cs).isNone &&
    match keyword? cs with
    | none => scope != .stencil
    | some .pass => scope == .shader || scope == .pass
    | some .subShader => scope == .subShader || scope == .pass
    | _ => false

/-- Whether a statement with this name goes with its value alone: the word of a child block that is
missing, or a word that is no field of a stencil. -/
def isSingle (scope : Scope) (cs : List Char) : Bool :=
  isWord cs &&
    match scope, keyword? cs with
    | .shader, some .subShader | .subShader, some .pass => true
    | .stencil, none | .stencil, some .subShader => (stencilField? cs).isNone && (renderState? cs).isNone
    | _, _ => false

/-- Whether a name goes alone where no value follows. -/
def isLone (cs : List Char) : Bool :=
  isWord cs && (renderState? cs).isNone &&
    match keyword? cs with
    | none | some .pass | some .subShader => true
    | _ => false

/-- A line of statements that a body drops, one after the other. If nothing but spaces follows the line in
its body, its last statement needs no value. -/
inductive Drops (scope : Scope) (final : Bool) : List Char → Prop
  | blank {margin : List Char} : margin.all isMargin → Drops scope final margin
  | lone {margin name ending : List Char} : final → margin.all isMargin → isLone name →
      ending.all isMargin → Drops scope final (margin ++ (name ++ ending))
  | string {margin name gap more : List Char} {inside : String} : margin.all isMargin →
      scope.isPlain name ∨ scope.isSingle name → gap.all isMargin → gap ≠ [] → IsStringBody inside →
      Drops scope final more →
      Drops scope final (margin ++ (name ++ (gap ++ ((inQuotes inside).toList ++ more))))
  | word {margin name gap value more : List Char} : margin.all isMargin → scope.isSingle name →
      gap.all isMargin → gap ≠ [] → isArgument value → (more ≠ [] → IsSpaced more) →
      Drops scope final more → Drops scope final (margin ++ (name ++ (gap ++ (value ++ more))))
  | words {margin name gap value ending : List Char} {arguments : List (List Char × List Char)} :
      margin.all isMargin → scope.isPlain name → gap.all isMargin → gap ≠ [] → isArgument value →
      (∀ argument ∈ arguments, argument.1.all isMargin ∧ argument.1 ≠ [] ∧ isArgument argument.2) →
      ending.all isMargin →
      Drops scope final (margin ++ (name ++ (gap ++ (value ++
        (arguments.flatMap (fun argument => argument.1 ++ argument.2) ++ ending)))))

theorem isPlain_cases {scope : Scope} {cs : List Char} (h : scope.isPlain cs) :
    isWord cs ∧ renderState? cs = none ∧
      ((keyword? cs = none ∧ scope ≠ .stencil) ∨
        (keyword? cs = some .pass ∧ (scope = .shader ∨ scope = .pass)) ∨
        (keyword? cs = some .subShader ∧ (scope = .subShader ∨ scope = .pass))) := by
  simp only [isPlain, Bool.and_eq_true, Option.isNone_iff_eq_none] at h
  obtain ⟨⟨word, state⟩, here⟩ := h
  refine ⟨word, state, ?_⟩
  cases known : keyword? cs with
  | none => simpa [known] using here
  | some k => cases k <;> simp [known] at here ⊢ <;> exact here

theorem isSingle_cases {scope : Scope} {cs : List Char} (h : scope.isSingle cs) :
    isWord cs ∧ ((scope = .shader ∧ keyword? cs = some .subShader) ∨
      (scope = .subShader ∧ keyword? cs = some .pass) ∨
      (scope = .stencil ∧ (keyword? cs = none ∨ keyword? cs = some .subShader) ∧
        stencilField? cs = none)) := by
  simp only [isSingle, Bool.and_eq_true] at h
  obtain ⟨word, here⟩ := h
  refine ⟨word, ?_⟩
  cases scope <;> cases known : keyword? cs with
  | none => simp_all
  | some k => cases k <;> simp_all

theorem isWord_of_isPlain_or_isSingle {scope : Scope} {cs : List Char}
    (h : scope.isPlain cs ∨ scope.isSingle cs) : isWord cs ∧ sentinel? cs = none := by
  rcases h with plain | single
  · obtain ⟨word, -, ⟨known, -⟩ | ⟨known, -⟩ | ⟨known, -⟩⟩ := isPlain_cases plain <;>
      exact ⟨word, by rw [sentinel?, known]⟩
  · obtain ⟨word, ⟨-, known⟩ | ⟨-, known⟩ | ⟨-, known | known, -⟩⟩ := isSingle_cases single <;>
      exact ⟨word, by rw [sentinel?, known]⟩

theorem isLone_cases {cs : List Char} (h : isLone cs) :
    isWord cs ∧ renderState? cs = none ∧
      (keyword? cs = none ∨ keyword? cs = some .pass ∨ keyword? cs = some .subShader) := by
  simp only [isLone, Bool.and_eq_true, Option.isNone_iff_eq_none] at h
  obtain ⟨⟨word, state⟩, here⟩ := h
  refine ⟨word, state, ?_⟩
  cases known : keyword? cs with
  | none => exact .inl rfl
  | some k => cases k <;> simp [known] at here ⊢

end Scope

structure DropsWords {σ : Type} (scope : Scope) (takes : σ → Phrase → σ → List Char → Prop) : Prop where
  plain : ∀ {held next ph rest}, ph.kind ≠ .comment → scope.isPlain ph.name →
    (takes held ph next rest ↔ next = held ∧ rest = ph.afterUnknown)
  single : ∀ {held next ph rest}, ph.kind ≠ .comment → ph.interior? = none → scope.isSingle ph.name →
    (takes held ph next rest ↔ next = held ∧ rest = ph.rest)
  lone : ∀ {held next ph rest}, ph.kind = .empty → Scope.isLone ph.name →
    (takes held ph next rest ↔ next = held ∧ rest = ph.rest)

theorem Block.takes_unknown_iff {held next : Block} {ph : Phrase} {rest : List Char}
    (comment : ph.kind ≠ .comment) (word : ∀ k ∈ keyword? ph.name, k.isClause = false)
    (state : renderState? ph.name = none) :
    held.Takes ph next rest ↔ next = held ∧ rest = ph.afterUnknown := by
  constructor
  · intro taken
    cases taken with
    | remark is => exact absurd is comment
    | state _ _ _ known => simp [state] at known
    | unknown => exact ⟨rfl, rfl⟩
    | program _ known | tags known | stencil known | droppedStencil _ known =>
      exact absurd (word _ known) (by simp [Keyword.isClause])
  · rintro ⟨rfl, rfl⟩
    exact .unknown comment word (.inl state)

theorem Block.takes_lone_iff {held next : Block} {ph : Phrase} {rest : List Char} (empty : ph.kind = .empty)
    (lone : Scope.isLone ph.name) : held.Takes ph next rest ↔ next = held ∧ rest = ph.rest := by
  obtain ⟨-, state, known⟩ := Scope.isLone_cases lone
  have onward : ph.afterUnknown = ph.rest := if_neg (by simp [empty])
  rw [← onward]
  refine takes_unknown_iff (by simp [empty]) ?_ state
  rcases known with known | known | known <;> simp [known, Keyword.isClause]

theorem Block.takes_plain_iff {scope : Scope} {held next : Block} {ph : Phrase} {rest : List Char}
    (comment : ph.kind ≠ .comment) (plain : scope.isPlain ph.name) :
    held.Takes ph next rest ↔ next = held ∧ rest = ph.afterUnknown := by
  obtain ⟨-, state, known⟩ := Scope.isPlain_cases plain
  refine takes_unknown_iff comment ?_ state
  rcases known with ⟨known, -⟩ | ⟨known, -⟩ | ⟨known, -⟩ <;> simp [known, Keyword.isClause]

theorem SubShader.takes_missing_iff {held next : SubShader} {ph : Phrase} {rest : List Char}
    (comment : ph.kind ≠ .comment) (known : keyword? ph.name = some .pass) (outside : ph.interior? = none) :
    held.Takes ph next rest ↔ next = held ∧ rest = ph.rest := by
  constructor
  · intro taken
    cases taken with
    | pass _ _ interior => simp [outside] at interior
    | droppedPass => exact ⟨rfl, rfl⟩
    | clause other => exact absurd known (other.resolve_left comment)
  · rintro ⟨rfl, rfl⟩
    exact .droppedPass comment known outside

theorem Shader.takes_missing_iff {held next : Shader} {ph : Phrase} {rest : List Char}
    (comment : ph.kind ≠ .comment) (known : keyword? ph.name = some .subShader)
    (outside : ph.interior? = none) : held.Takes ph next rest ↔ next = held ∧ rest = ph.rest := by
  constructor
  · intro taken
    cases taken with
    | properties _ other => simp [known] at other
    | subShader _ _ interior => simp [outside] at interior
    | droppedSubShader => exact ⟨rfl, rfl⟩
    | clause other => exact absurd known (other.resolve_left comment).2
  · rintro ⟨rfl, rfl⟩
    exact .droppedSubShader comment known outside

theorem Pass.dropsWords : DropsWords .pass Pass.Takes where
  plain {held next ph rest} comment plain := by
    refine stays_of_block (fun b => { held with toBlock := b }) (takes_clause_iff (.inr ?_))
      fun _ => Block.takes_plain_iff comment plain
    obtain ⟨-, -, ⟨known, -⟩ | ⟨known, -⟩ | ⟨known, -⟩⟩ := Scope.isPlain_cases plain <;> simp [known]
  single _ _ single := by
    obtain ⟨-, ⟨scope, -⟩ | ⟨scope, -⟩ | ⟨scope, -⟩⟩ := Scope.isSingle_cases single <;> simp at scope
  lone {held next ph rest} empty lone := by
    refine stays_of_block (fun b => { held with toBlock := b }) (takes_clause_iff (.inr ?_))
      fun _ => Block.takes_lone_iff empty lone
    obtain ⟨-, -, known | known | known⟩ := Scope.isLone_cases lone <;> simp [known]

theorem SubShader.dropsWords : DropsWords .subShader SubShader.Takes where
  plain {held next ph rest} comment plain := by
    refine stays_of_block (fun b => { held with toBlock := b }) (takes_clause_iff (.inr ?_))
      fun _ => Block.takes_plain_iff comment plain
    obtain ⟨-, -, ⟨known, -⟩ | ⟨-, scope⟩ | ⟨known, -⟩⟩ := Scope.isPlain_cases plain
    · simp [known]
    · simp at scope
    · simp [known]
  single comment outside single := by
    obtain ⟨-, ⟨scope, -⟩ | ⟨-, known⟩ | ⟨scope, -⟩⟩ := Scope.isSingle_cases single
    · simp at scope
    · exact takes_missing_iff comment known outside
    · simp at scope
  lone {held next ph rest} empty lone := by
    by_cases known : keyword? ph.name = some .pass
    · exact takes_missing_iff (by simp [empty]) known (by simp [Phrase.interior?, empty])
    · exact stays_of_block (fun b => { held with toBlock := b }) (takes_clause_iff (.inr known))
        fun _ => Block.takes_lone_iff empty lone

theorem Shader.dropsWords : DropsWords .shader Shader.Takes where
  plain {held next ph rest} comment plain := by
    refine stays_of_block (fun b => { held with toBlock := b }) (takes_clause_iff (.inr ?_))
      fun _ => Block.takes_plain_iff comment plain
    obtain ⟨-, -, ⟨known, -⟩ | ⟨known, -⟩ | ⟨-, scope⟩⟩ := Scope.isPlain_cases plain
    · simp [known]
    · simp [known]
    · simp at scope
  single comment outside single := by
    obtain ⟨-, ⟨-, known⟩ | ⟨scope, -⟩ | ⟨scope, -⟩⟩ := Scope.isSingle_cases single
    · exact takes_missing_iff comment known outside
    · simp at scope
    · simp at scope
  lone {held next ph rest} empty lone := by
    by_cases known : keyword? ph.name = some .subShader
    · exact takes_missing_iff (by simp [empty]) known (by simp [Phrase.interior?, empty])
    · refine stays_of_block (fun b => { held with toBlock := b }) (takes_clause_iff (.inr ⟨?_, known⟩))
        fun _ => Block.takes_lone_iff empty lone
      obtain ⟨-, -, known | known | known⟩ := Scope.isLone_cases lone <;> simp [known]

theorem Settings.dropsWords : DropsWords .stencil Settings.TakesField where
  plain _ plain := by
    obtain ⟨-, -, ⟨-, scope⟩ | ⟨-, scope⟩ | ⟨-, scope⟩⟩ := Scope.isPlain_cases plain <;> simp at scope
  single {held next ph rest} _ _ single := by
    obtain ⟨-, ⟨scope, -⟩ | ⟨scope, -⟩ | ⟨-, -, unknown⟩⟩ := Scope.isSingle_cases single
    · simp at scope
    · simp at scope
    · have none : ph.field? = Option.none := by simp [Phrase.field?, unknown]
      exact takesField_iff_of_none none
  lone {held next ph rest} empty _ := by
    have none : ph.field? = Option.none := if_pos (.inr empty)
    exact takesField_iff_of_none none

theorem all_isSpace_of_isMargin {cs : List Char} (h : cs.all isMargin) : cs.all isSpace := by
  rw [List.all_eq_true] at h ⊢
  intro c member
  have margin := h c member
  rw [isMargin, Bool.and_eq_true] at margin
  exact margin.1

theorem isSpaced_of_isMargin {cs : List Char} (h : cs.all isMargin) (nonempty : cs ≠ []) : IsSpaced cs := by
  cases cs with
  | nil => exact absurd rfl nonempty
  | cons c cs => exact ⟨c, cs, rfl, List.all_eq_true.mp (all_isSpace_of_isMargin h) c List.mem_cons_self⟩

theorem first?_of_gap {name gap : List Char} (word : isWord name) (free : sentinel? name = none)
    (spaces : gap.all isSpace) (nonempty : gap ≠ []) (rest : List Char) :
    Phrase.first? (name ++ (gap ++ rest)) = some (.ofWord name rest) := by
  cases gap with
  | nil => exact absurd rfl nonempty
  | cons c gap =>
    rw [List.all_cons, Bool.and_eq_true] at spaces
    rw [List.cons_append, Phrase.first?_of_isWord word spaces.1, free, Phrase.ofWord, Phrase.ofWord,
      afterSpaces_append spaces.2]

theorem ofWord_of_isArgument {value : List Char} (h : isArgument value) (name : List Char) {rest : List Char}
    (spaced : IsSpaced rest) : Phrase.ofWord name (value ++ rest) = ⟨.bare, name, value, rest⟩ := by
  obtain ⟨c, rest, rfl, separates⟩ := spaced
  simp only [isArgument, Bool.and_eq_true] at h
  rw [Phrase.ofWord_of_isSingleValue (isSingleValue_of_isBareToken h.1.1) separates]
  have kind : (Remainder.ofValue value).kind = .bare := by
    cases value with
    | nil => simp [isBareToken] at h
    | cons d value =>
      obtain ⟨-, quote, brace, -⟩ := mem_of_isBareToken h.1.1 List.mem_cons_self
      simp [Remainder.ofValue, quote, brace]
  rw [kind]

theorem afterComment?_of_isBareToken {cs : List Char} (h : isBareToken cs) : afterComment? cs = none := by
  simp only [isBareToken, Bool.and_eq_true, Bool.not_eq_true'] at h
  obtain ⟨⟨-, noLine⟩, noNote⟩ := h
  unfold afterComment?
  split
  · simp [holds] at noLine
  · simp [holds] at noNote
  · rfl

theorem argument?_of_isArgument {gap word rest : List Char} (margin : gap.all isMargin)
    (h : isArgument word) (spaced : IsSpaced rest) : argument? (gap ++ (word ++ rest)) = some (word, rest) := by
  obtain ⟨c, rest, rfl, separates⟩ := spaced
  simp only [isArgument, Bool.and_eq_true, Option.isNone_iff_eq_none] at h
  obtain ⟨⟨bare, keyword⟩, state⟩ := h
  have filled : word ≠ [] := by
    rintro rfl
    simp [isBareToken] at bare
  have here : (gap ++ (word ++ c :: rest)).dropWhile isMargin = word ++ c :: rest := by
    rw [List.dropWhile_append_of_pos (List.all_eq_true.mp margin)]
    cases word with
    | nil => exact absurd rfl filled
    | cons d word =>
      have head := (mem_of_isBareToken bare List.mem_cons_self).1
      rw [List.cons_append, List.dropWhile_cons_of_neg (by simp [isMargin, head])]
  have inside : ∀ d ∈ word, isArgumentChar d := fun d member => by
    obtain ⟨space, quote, brace, -⟩ := mem_of_isBareToken bare member
    simp [isArgumentChar, space, quote, brace]
  have ends : ¬ isArgumentChar c := by simp [isArgumentChar, separates]
  have noComment := afterComment?_append (afterComment?_of_isBareToken bare) filled separates rest
  have word' : (word ++ c :: rest).takeWhile isArgumentChar = word := by
    rw [List.takeWhile_append_of_pos inside, List.takeWhile_cons_of_neg ends, List.append_nil]
  have rest' : (word ++ c :: rest).dropWhile isArgumentChar = c :: rest := by
    rw [List.dropWhile_append_of_pos inside, List.dropWhile_cons_of_neg ends]
  simp only [argument?, here, word', rest', noComment, keyword, state]
  simp [filled]

theorem argument?_of_isMargin {ending : List Char} (h : ending.all isMargin) (tail : List Char) :
    argument? (ending ++ '\n' :: tail) = none := by
  have here : (ending ++ '\n' :: tail).dropWhile isMargin = '\n' :: tail := by
    rw [List.dropWhile_append_of_pos (List.all_eq_true.mp h), List.dropWhile_cons_of_neg (by decide)]
  have noWord : ('\n' :: tail).takeWhile isArgumentChar = [] := List.takeWhile_cons_of_neg (by decide)
  simp only [argument?, here, noWord]
  simp

theorem arguments_of_isArgument {words : List (List Char × List Char)}
    (h : ∀ word ∈ words, word.1.all isMargin ∧ word.1 ≠ [] ∧ isArgument word.2) {ending : List Char}
    (margin : ending.all isMargin) (tail : List Char) :
    IsSpaced (words.flatMap (fun word => word.1 ++ word.2) ++ (ending ++ '\n' :: tail)) ∧
      (arguments (words.flatMap (fun word => word.1 ++ word.2) ++ (ending ++ '\n' :: tail))).2 =
        ending ++ '\n' :: tail := by
  induction words with
  | nil =>
    have stops : arguments (ending ++ '\n' :: tail) = ([], ending ++ '\n' :: tail) := by
      rw [arguments]
      split
      · rfl
      · rename_i found
        simp [argument?_of_isMargin margin] at found
    refine ⟨?_, by rw [List.flatMap_nil, List.nil_append, stops]⟩
    by_cases none : ending = []
    · exact ⟨'\n', tail, by rw [none, List.flatMap_nil, List.nil_append, List.nil_append], rfl⟩
    · exact (isSpaced_of_isMargin margin none).append _
  | cons word words ih =>
    obtain ⟨gap, nonempty, argument⟩ := h word List.mem_cons_self
    obtain ⟨spaced, rest⟩ := ih fun other member => h other (List.mem_cons_of_mem _ member)
    have first := argument?_of_isArgument gap argument spaced
    rw [List.flatMap_cons, List.append_assoc, List.append_assoc]
    refine ⟨(isSpaced_of_isMargin gap nonempty).append _, ?_⟩
    rw [arguments]
    split
    · rename_i none
      simp [first] at none
    · rename_i found
      obtain ⟨-, rfl⟩ := Prod.mk.inj (Option.some.inj (first.symm.trans found))
      exact rest

theorem Scope.Drops.reads {σ : Type} {takes : σ → Phrase → σ → List Char → Prop} {scope : Scope}
    {final : Bool} (drops : DropsWords scope takes) {line : List Char} (h : scope.Drops final line) (held : σ)
    (tail : List Char) (ends : final → tail.all isSpace) (last : σ) :
    Reads takes held (line ++ '\n' :: tail) last ↔ Reads takes held tail last := by
  -- statement by statement; the line break stays in front of the tail, where bare arguments end
  induction h with
  | @blank margin blank =>
    have spaces : (margin ++ ['\n']).all isSpace := by simp [all_isSpace_of_isMargin blank, isSpace_break]
    have skipped := first?_spaces (margin ++ ['\n']) spaces tail
    rw [List.append_assoc] at skipped
    exact reads_congr skipped
  | @lone margin name ending end_ blank lone behind =>
    obtain ⟨word, -, known⟩ := isLone_cases lone
    have free : sentinel? name = none := by rcases known with known | known | known <;> rw [sentinel?, known]
    have spaces : (ending ++ '\n' :: tail).all isSpace := by
      simp [all_isSpace_of_isMargin behind, isSpace_break, ends end_]
    have first := first?_of_gap word free spaces (by simp) []
    rw [List.append_nil] at first
    have text : margin ++ (name ++ ending) ++ '\n' :: tail =
        margin ++ (name ++ (ending ++ '\n' :: tail)) := by simp
    have nothing := first?_spaces tail (ends end_) []
    rw [List.append_nil] at nothing
    rw [text, reads_congr (first?_spaces margin (all_isSpace_of_isMargin blank) _), reads_congr nothing]
    exact reads_of_only first held [] fun next rest => drops.lone rfl lone
  | @string margin name gap more inside blank named between filled body _ ih =>
    obtain ⟨word, free⟩ := isWord_of_isPlain_or_isSingle named
    have first := first?_of_gap word free (all_isSpace_of_isMargin between) filled
      ('"' :: (inside.toList ++ '"' :: (more ++ '\n' :: tail)))
    rw [Phrase.ofWord_quoted body] at first
    have text : margin ++ (name ++ (gap ++ ((inQuotes inside).toList ++ more))) ++ '\n' :: tail =
        margin ++ (name ++ (gap ++ '"' :: (inside.toList ++ '"' :: (more ++ '\n' :: tail)))) := by
      simp [inQuotes]
    rw [text, reads_congr (first?_spaces margin (all_isSpace_of_isMargin blank) _), ← ih]
    refine reads_of_only first held (more ++ '\n' :: tail) fun next rest => ?_
    rcases named with plain | single
    · exact drops.plain (by simp) plain
    · exact drops.single (by simp) (by simp [Phrase.interior?]) single
  | @word margin name gap value more blank single between filled argument separated _ ih =>
    obtain ⟨word, free⟩ := isWord_of_isPlain_or_isSingle (.inr single)
    have spaced : IsSpaced (more ++ '\n' :: tail) := by
      by_cases none : more = []
      · exact ⟨'\n', tail, by rw [none, List.nil_append], rfl⟩
      · exact (separated none).append _
    have first := first?_of_gap word free (all_isSpace_of_isMargin between) filled (value ++ (more ++ '\n' :: tail))
    rw [ofWord_of_isArgument argument name spaced] at first
    have text : margin ++ (name ++ (gap ++ (value ++ more))) ++ '\n' :: tail =
        margin ++ (name ++ (gap ++ (value ++ (more ++ '\n' :: tail)))) := by simp
    rw [text, reads_congr (first?_spaces margin (all_isSpace_of_isMargin blank) _), ← ih]
    refine reads_of_only first held (more ++ '\n' :: tail) fun next rest => ?_
    exact drops.single (by simp) (by simp [Phrase.interior?]) single
  | @words margin name gap value ending words blank plain between filled argument behind after =>
    obtain ⟨word, free⟩ := isWord_of_isPlain_or_isSingle (.inl plain)
    obtain ⟨spaced, rest⟩ := arguments_of_isArgument behind after tail
    have first := first?_of_gap word free (all_isSpace_of_isMargin between) filled (value ++
      (words.flatMap (fun word => word.1 ++ word.2) ++ (ending ++ '\n' :: tail)))
    rw [ofWord_of_isArgument argument name spaced] at first
    have text : margin ++ (name ++ (gap ++ (value ++
        (words.flatMap (fun word => word.1 ++ word.2) ++ ending)))) ++ '\n' :: tail =
        margin ++ (name ++ (gap ++ (value ++ (words.flatMap (fun word => word.1 ++ word.2) ++
          (ending ++ '\n' :: tail))))) := by simp
    have spaces : (ending ++ ['\n']).all isSpace := by simp [all_isSpace_of_isMargin after, isSpace_break]
    have skipped := first?_spaces (ending ++ ['\n']) spaces tail
    rw [List.append_assoc] at skipped
    rw [text, reads_congr (first?_spaces margin (all_isSpace_of_isMargin blank) _), ← reads_congr skipped]
    refine reads_of_only first held _ fun next rest' => ?_
    rw [drops.plain (by simp) plain, Phrase.afterUnknown, if_pos rfl, rest]
    rfl

/-- The lines that may stand in a gap: in front of a brace their last statement needs no value. -/
def Gap.Drops (line : List Char) : Gap → Prop
  | .statement scope _ => scope.Drops false line
  | .closing scope _ => scope.Drops true line
  | _ => False

section

variable {σ : Type} {takes : σ → Phrase → σ → List Char → Prop} {scope : Scope} {line : List Char}

theorem isNeutral_line (neutral : IsNeutral (line ++ ['\n'])) (margin : Nat) :
    IsNeutral ('\n' :: (line ++ '\n' :: List.replicate margin ' ')) := by
  have spaces : IsNeutral (List.replicate margin ' ') := isNeutral_spaces (by simp [isSpace])
  have whole := isNeutral_break.append (neutral.append spaces)
  rwa [List.append_assoc] at whole

theorem idle_line (drops : DropsWords scope takes) (h : scope.Drops false line)
    (neutral : IsNeutral (line ++ ['\n'])) (margin : Nat) :
    Idle takes ('\n' :: (line ++ '\n' :: List.replicate margin ' ')) where
  spaced := ⟨'\n', _, rfl, rfl⟩
  neutral := isNeutral_line neutral margin
  reads held tail last := by
    rw [List.cons_append, reads_break, List.append_assoc, List.cons_append, h.reads drops _ _ (by simp),
      reads_margin]

theorem trails_line (drops : DropsWords scope takes) (h : scope.Drops true line)
    (neutral : IsNeutral (line ++ ['\n'])) (margin : Nat) :
    Trails takes ('\n' :: (line ++ '\n' :: List.replicate margin ' ')) where
  spaced := ⟨'\n', _, rfl, rfl⟩
  neutral := isNeutral_line neutral margin
  reads held last := by
    have spaces : (List.replicate margin ' ').all isSpace := by simp [isSpace]
    have nothing := first?_spaces (List.replicate margin ' ') spaces []
    rw [List.append_nil] at nothing
    rw [reads_break, h.reads drops _ _ (fun _ => spaces), reads_congr nothing, reads_iff_of_none (by rfl),
      eq_comm]

end

theorem Gap.admits_line {gap : Gap} {line after : List Char} (parts : gap.text = '\n' :: after)
    (dropped : gap.Drops line) (neutral : IsNeutral (line ++ ['\n'])) :
    gap.Admits ('\n' :: (line ++ '\n' :: after)) := by
  cases gap with
  | statement scope depth =>
    obtain rfl : after = List.replicate (4 * depth) ' ' := (List.cons.inj parts).2.symm
    cases scope with
    | shader => exact idle_line Shader.dropsWords dropped neutral (4 * depth)
    | subShader => exact idle_line SubShader.dropsWords dropped neutral (4 * depth)
    | pass => exact idle_line Pass.dropsWords dropped neutral (4 * depth)
    | stencil => exact idle_line Settings.dropsWords dropped neutral (4 * depth)
  | closing scope depth =>
    obtain rfl : after = List.replicate (4 * depth) ' ' := (List.cons.inj parts).2.symm
    cases scope with
    | shader => exact trails_line Shader.dropsWords dropped neutral (4 * depth)
    | subShader => exact trails_line SubShader.dropsWords dropped neutral (4 * depth)
    | pass => exact trails_line Pass.dropsWords dropped neutral (4 * depth)
    | stencil => exact trails_line Settings.dropsWords dropped neutral (4 * depth)
  | before | header | tag | value | brace | after => exact dropped.elim

/-- A representable shader is read back with a line of whole dropped statements between two of its lines. -/
theorem Shader.parse_insert_dropped {s : Shader} (h : s.IsRepresentable) {gap : Gap}
    {front back : List Char} (cut : s.IsCutAt gap ['\n'] front back) {line : List Char}
    (dropped : gap.Drops line) (neutral : IsNeutral (line ++ ['\n'])) :
    s.render.toList = front ++ back ∧
      Shader.parse (String.ofList (front ++ (line ++ ['\n']) ++ back)) = .ok s := by
  refine ⟨cut.toList_render, cut.parse h fun after parts => ?_⟩
  have admits := Gap.admits_line parts dropped neutral
  rwa [List.singleton_append, List.append_assoc, List.singleton_append]

theorem parse_insert_dropped_litShader :
    let front := laid (litShader.pieces.take 23) ++ ['\n']
    let back := List.replicate 12 ' ' ++ ("ZWrite".toList ++ laid (litShader.pieces.drop 24))
    let line := "  Foo \"a\x7d\" Pass b/  [c]".toList
    litShader.IsRepresentable ∧ litShader.IsCutAt (.statement .pass 3) ['\n'] front back ∧
      Scope.pass.Drops false line ∧ IsNeutral (line ++ ['\n']) ∧
      Shader.parse (String.ofList (front ++ (line ++ ['\n']) ++ back)) = .ok litShader := by
  have representable : litShader.IsRepresentable :=
    ⟨by decide +kernel, by decide +kernel, by decide +kernel⟩
  have cut : litShader.IsCutAt (.statement .pass 3) ['\n'] (laid (litShader.pieces.take 23) ++ ['\n'])
      (List.replicate 12 ' ' ++ ("ZWrite".toList ++ laid (litShader.pieces.drop 24))) :=
    ⟨_, _, _, _, by decide +kernel, by decide, rfl, rfl⟩
  have words : Scope.pass.Drops false " Pass b/  [c]".toList :=
    @Scope.Drops.words .pass false [' '] "Pass".toList [' '] "b/".toList [] [("  ".toList, "[c]".toList)]
      (by decide) (by decide) (by decide) (by decide) (by decide) (by decide) (by decide)
  have dropped : Scope.pass.Drops false "  Foo \"a\x7d\" Pass b/  [c]".toList :=
    @Scope.Drops.string .pass false "  ".toList "Foo".toList [' '] _ "a\x7d" (by decide) (.inl (by decide))
      (by decide) (by decide) (by decide) words
  have neutral : IsNeutral ("  Foo \"a\x7d\" Pass b/  [c]".toList ++ ['\n']) := by decide
  exact ⟨representable, cut, dropped, neutral,
    (Shader.parse_insert_dropped representable cut dropped neutral).2⟩

def refShader : Shader :=
  { Block.empty with
    name := "T", subShaders := [], stencil := Settings.empty.insert .ref "1" }

def breakShader : Shader :=
  { Block.empty with
    name := "T", subShaders := [], tags := Tags.empty.insert "A" "x\ny" }

/-- After a quoted value the rest of a line is read as another statement. A name without a value takes the
next word of the text, a word in front of a brace takes its block away, a name with a brace ends the body,
and in a stencil a statement has one value, also `Pass`. Between two lines of a tag nothing is a statement. -/
theorem parse_insert_dropped_fails :
    let front := laid (cullShader.pieces.take 5) ++ ['\n']
    let back := List.replicate 8 ' ' ++ ("Cull".toList ++ laid (cullShader.pieces.drop 6))
    let word := laid (cullShader.pieces.take 4) ++ ['\n']
    let block := List.replicate 4 ' ' ++ (['{'] ++ laid (cullShader.pieces.drop 5))
    let fields := laid (refShader.pieces.take 5) ++ ['\n']
    let ref := List.replicate 8 ' ' ++ ("Ref".toList ++ laid (refShader.pieces.drop 6))
    let key := "Shader \"T\"\n\x7b\n    Tags \x7b \"A\" = \"x\n".toList
    let tag := "y\" \x7d\n\x7d\n".toList
    let put (front : List Char) (line : String) (back : List Char) :=
      Shader.parse (String.ofList (front ++ (line.toList ++ ['\n']) ++ back))
    cullShader.IsRepresentable ∧ cullShader.IsCutAt (.statement .subShader 2) ['\n'] front back ∧
      cullShader.IsCutAt (.brace 1) ['\n'] word block ∧
      refShader.IsRepresentable ∧ refShader.IsCutAt (.statement .stencil 2) ['\n'] fields ref ∧
      breakShader.IsRepresentable ∧ breakShader.render.toList = key ++ tag ∧
      Scope.subShader.isPlain "Foo".toList ∧ Scope.subShader.isPlain "Foo\x7d".toList ∧
      IsStringBody "a" ∧ isArgument "a".toList ∧ isArgument "b".toList ∧
      put front "Foo \"a\" b" back ≠ .ok cullShader ∧ put front "Pass" back ≠ .ok cullShader ∧
      put front "Foo\x7d b" back ≠ .ok cullShader ∧ put word "Foo b" block ≠ .ok cullShader ∧
      put fields "Pass a" ref ≠ .ok refShader ∧ put fields "Foo a b" ref ≠ .ok refShader ∧
      put key "Foo b" tag ≠ .ok breakShader := by
  intro front back word block fields ref key tag put
  have cut : cullShader.IsCutAt (.statement .subShader 2) ['\n'] front back :=
    ⟨_, _, _, _, by decide +kernel, by decide, rfl, rfl⟩
  have cutWord : cullShader.IsCutAt (.brace 1) ['\n'] word block :=
    ⟨_, _, _, _, by decide +kernel, by decide, rfl, rfl⟩
  have cutField : refShader.IsCutAt (.statement .stencil 2) ['\n'] fields ref :=
    ⟨_, _, _, _, by decide +kernel, by decide, rfl, rfl⟩
  have ref_representable : refShader.IsRepresentable := ⟨by decide +kernel, by decide +kernel, by decide +kernel⟩
  have break_representable : breakShader.IsRepresentable :=
    ⟨by decide +kernel, by decide +kernel, by decide +kernel⟩
  refine ⟨cullShader_isRepresentable, cut, cutWord, ref_representable, cutField, break_representable,
    by decide +kernel, by decide, by decide, by decide, by decide, by decide, ?_, ?_, ?_, ?_, ?_, ?_, ?_⟩
  all_goals decide +kernel

end ShaderText
