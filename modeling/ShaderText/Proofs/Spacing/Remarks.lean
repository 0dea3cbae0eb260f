import ShaderText.Proofs.Spacing.Gaps

/-! Comments put into a written shader. A comment is passed over where a statement, a tag or the block of
the shader may begin. Between a name and its value it is taken as the value. Main statement: a
representable shader is read back with a comment in any gap that is not in front of a value.
-/
namespace ShaderText

/-- A comment with the spaces around it. -/
inductive Remark
  | note (inside : List Char) (single : holds ['*', '/'] inside = false)
  | line (inside : List Char) (single : '\n' ∉ inside)

namespace Remark

def body : Remark → List Char
  | note inside _ => '/' :: '*' :: (inside ++ ['*', '/'])
  | line inside _ => '/' :: '/' :: inside

/-- The space behind a comment. A line comment needs a line break. -/
def space : Remark → Char
  | note _ _ => ' '
  | line _ _ => '\n'

def text (r : Remark) : List Char := ' ' :: (r.body ++ [r.space])

theorem isSpace_space (r : Remark) : isSpace r.space := by cases r <;> rfl

end Remark

theorem across?_note {inside : List Char} (h : holds ['*', '/'] inside = false) {mode : Mode}
    (within : mode = .note ∨ (mode = .star ∧ inside.head? ≠ some '/')) :
    across? 1 mode (inside ++ ['*', '/']) = some (1, .code) := by
  induction inside generalizing mode with
  | nil => rcases within with rfl | ⟨rfl, -⟩ <;> rfl
  | cons c inside ih =>
    obtain ⟨first, rest⟩ := not_prefix_of_holds h
    have stays : mode.isCode = false := by rcases within with rfl | ⟨rfl, -⟩ <;> rfl
    have step : across? 1 mode (c :: (inside ++ ['*', '/'])) =
        across? 1 (mode.next c) (inside ++ ['*', '/']) := by
      simp [across?, stays]
    rw [List.cons_append, step]
    refine ih rest ?_
    by_cases star : c = '*'
    · subst star
      exact .inr ⟨by rcases within with rfl | ⟨rfl, -⟩ <;> rfl, first rfl⟩
    · refine .inl ?_
      rcases within with rfl | ⟨rfl, other⟩
      · simp [Mode.next, star]
      · have slash : c ≠ '/' := by simpa using other
        simp [Mode.next, star, slash]

theorem across?_line {inside : List Char} (h : '\n' ∉ inside) :
    across? 1 .line (inside ++ ['\n']) = some (1, .code) := by
  induction inside with
  | nil => rfl
  | cons c inside ih =>
    rw [List.mem_cons, not_or] at h
    have step : across? 1 .line (c :: (inside ++ ['\n'])) = across? 1 .line (inside ++ ['\n']) := by
      simp [across?, Mode.isCode, Mode.next, Ne.symm h.1]
    rw [List.cons_append, step]
    exact ih h.2

/-- A comment with a space behind it is one statement, and the next one is looked for behind it. -/
theorem Phrase.first?_comment {body rest tail : List Char} {space : Char} (separates : isSpace space)
    (comment : afterComment? (body ++ space :: tail) = some rest) (behind : rest = tail ∨ rest = space :: tail) :
    ∃ ph, first? (body ++ space :: tail) = some ph ∧ ph.kind = .comment ∧
      (ph.rest = tail ∨ ph.rest = space :: tail) := by
  obtain ⟨more, rfl⟩ : ∃ more, body = '/' :: more := by
    cases body with
    | nil => simp [afterComment?_cons (not_isSpace_sign separates).2.2.2.1] at comment
    | cons c more =>
      by_cases slash : c = '/'
      · exact ⟨more, by rw [slash]⟩
      · simp [afterComment?_cons slash] at comment
  have outside : isNameChar space = false := by simp [isNameChar, separates]
  have afterName : (more ++ space :: tail).dropWhile isNameChar =
      more.dropWhile isNameChar ++ space :: tail := by
    rw [List.dropWhile_append]
    split
    · rename_i none
      rw [List.isEmpty_iff.mp none, List.dropWhile_cons_of_neg (by simp [outside]), List.nil_append]
    · rfl
  rw [List.cons_append] at comment ⊢
  rw [first?, afterSpaces_of_not_isSpace (by decide)]
  simp only [afterName, Remainder.ofName, comment]
  refine ⟨_, rfl, rfl, ?_⟩
  dsimp only
  split
  · exact behind
  · rename_i longer
    -- the name goes on up to the space behind the comment, so nothing is left of the comment
    have short : more.dropWhile isNameChar = [] := by
      refine List.length_eq_zero_iff.mp ?_
      rw [List.length_append, List.length_cons] at longer
      rcases behind with rfl | rfl
      · omega
      · rw [List.length_cons] at longer
        omega
    rw [short]
    exact .inr rfl

theorem heads_comment {body rest tail : List Char} {space : Char} (separates : isSpace space)
    (comment : afterComment? (body ++ space :: tail) = some rest) (behind : rest = tail ∨ rest = space :: tail)
    (header : Phrase) : Heads (body ++ space :: tail) header ↔ Heads tail header := by
  obtain ⟨ph, first, isComment, onward⟩ := Phrase.first?_comment separates comment behind
  have past : Heads (body ++ space :: tail) header ↔ Heads ph.rest header := by
    constructor
    · intro heads
      cases heads with
      | here found other =>
        obtain rfl := Option.some.inj (first.symm.trans found)
        exact absurd isComment other
      | past found _ more =>
        obtain rfl := Option.some.inj (first.symm.trans found)
        exact more
    · exact .past first isComment
  rw [past]
  rcases onward with onward | onward
  · rw [onward]
  · rw [onward]
    exact heads_congr (first?_spaces [space] (by simp [separates]) tail)

namespace Remark

theorem isNeutral_text (r : Remark) : IsNeutral r.text := by
  cases r with
  | note inside single =>
    have ends : IsNeutral ('/' :: '*' :: (inside ++ ['*', '/'])) := across?_note single (.inl rfl)
    have gap : IsNeutral [' '] := isNeutral_of_isPlain (by decide)
    exact gap.append (ends.append gap)
  | line inside single =>
    have ends : IsNeutral ('/' :: '/' :: (inside ++ ['\n'])) := across?_line single
    have gap : IsNeutral [' '] := isNeutral_of_isPlain (by decide)
    exact gap.append ends

theorem afterComment?_body (r : Remark) (tail : List Char) :
    ∃ rest, afterComment? (r.body ++ r.space :: tail) = some rest ∧ (rest = tail ∨ rest = r.space :: tail) := by
  cases r with
  | note inside single =>
    refine ⟨' ' :: tail, ?_, .inr rfl⟩
    have ends := afterNote_append single (' ' :: tail)
    simpa [body, space, afterComment?] using ends
  | line inside single =>
    exact ⟨tail, congrArg some (afterLine_append_break single tail), .inl rfl⟩

theorem head?_body (r : Remark) : ∃ more, r.body = '/' :: more := by
  cases r with
  | note inside _ => exact ⟨_, rfl⟩
  | line inside _ => exact ⟨_, rfl⟩

end Remark

/-- Whether comments leave what is held as it is. -/
def PassesRemarks {σ : Type} (takes : σ → Phrase → σ → List Char → Prop) : Prop :=
  ∀ held ph next rest, ph.kind = .comment → (takes held ph next rest ↔ next = held ∧ rest = ph.rest)

theorem Block.passesRemarks : PassesRemarks Block.Takes := by
  intro held ph next rest comment
  constructor
  · intro taken
    cases taken with
    | remark => exact ⟨rfl, rfl⟩
    | tags _ block => simp [comment] at block
    | stencil _ interior => simp [Phrase.interior?, comment] at interior
    | program other | droppedStencil other | state other | unknown other => exact absurd comment other
  · rintro ⟨rfl, rfl⟩
    exact .remark comment

theorem Pass.passesRemarks : PassesRemarks Pass.Takes := fun held _ _ _ comment =>
  stays_of_block (fun b => { held with toBlock := b }) (takes_clause_iff (.inl comment))
    fun _ => Block.passesRemarks _ _ _ _ comment

theorem SubShader.passesRemarks : PassesRemarks SubShader.Takes := fun held _ _ _ comment =>
  stays_of_block (fun b => { held with toBlock := b }) (takes_clause_iff (.inl comment))
    fun _ => Block.passesRemarks _ _ _ _ comment

theorem Shader.passesRemarks : PassesRemarks Shader.Takes := fun held _ _ _ comment =>
  stays_of_block (fun b => { held with toBlock := b }) (takes_clause_iff (.inl comment))
    fun _ => Block.passesRemarks _ _ _ _ comment

theorem Settings.passesRemarks : PassesRemarks Settings.TakesField := by
  intro held ph next rest comment
  have none : ph.field? = Option.none := if_pos (.inl comment)
  exact takesField_iff_of_none none

theorem reads_comment {σ : Type} {takes : σ → Phrase → σ → List Char → Prop} (passes : PassesRemarks takes)
    {body rest tail : List Char} {space : Char} (separates : isSpace space)
    (comment : afterComment? (body ++ space :: tail) = some rest) (behind : rest = tail ∨ rest = space :: tail)
    (held last : σ) : Reads takes held (body ++ space :: tail) last ↔ Reads takes held (space :: tail) last := by
  obtain ⟨ph, first, isComment, onward⟩ := Phrase.first?_comment separates comment behind
  rw [reads_of_only first held ph.rest fun next rest => passes held ph next rest isComment]
  rcases onward with onward | onward
  · rw [onward]
    exact (reads_congr (first?_spaces [space] (by simp [separates]) tail)).symm
  · rw [onward]

theorem Remark.reads_text {σ : Type} {takes : σ → Phrase → σ → List Char → Prop}
    (passes : PassesRemarks takes) (r : Remark) (held : σ) (tail : List Char) (last : σ) :
    Reads takes held (r.text ++ tail) last ↔ Reads takes held tail last := by
  obtain ⟨rest, comment, behind⟩ := r.afterComment?_body tail
  have text : r.text ++ tail = [' '] ++ (r.body ++ r.space :: tail) := by simp [Remark.text]
  rw [text, reads_congr (first?_spaces [' '] (by decide) _), reads_comment passes r.isSpace_space comment behind]
  exact reads_congr (first?_spaces [r.space] (by simp [r.isSpace_space]) tail)

theorem Remark.afterTrivia_text (r : Remark) (tail : List Char) :
    afterTrivia (r.text ++ tail) = afterTrivia tail := by
  obtain ⟨rest, comment, behind⟩ := r.afterComment?_body tail
  obtain ⟨more, begins⟩ := r.head?_body
  have text : r.text ++ tail = ' ' :: (r.body ++ r.space :: tail) := by simp [Remark.text]
  have flush : afterSpaces (r.body ++ r.space :: tail) = r.body ++ r.space :: tail := by
    rw [begins, List.cons_append, afterSpaces_of_not_isSpace (by decide)]
  rw [text, afterTrivia_cons rfl, afterTrivia, flush]
  split
  · rename_i none
    simp [none] at comment
  · rename_i rest' comment'
    obtain rfl := Option.some.inj (comment.symm.trans comment')
    rcases behind with rfl | rfl
    · rfl
    · exact afterTrivia_cons r.isSpace_space tail

theorem Remark.heads_text (r : Remark) (tail : List Char) (header : Phrase) :
    Heads (r.text ++ tail) header ↔ Heads tail header := by
  obtain ⟨rest, comment, behind⟩ := r.afterComment?_body tail
  have text : r.text ++ tail = [' '] ++ (r.body ++ r.space :: tail) := by simp [Remark.text]
  rw [text, heads_congr (first?_spaces [' '] (by decide) _)]
  exact heads_comment r.isSpace_space comment behind header

/-- Whether a gap stands in front of a statement, a tag, or the block of the shader. -/
def Gap.isFree : Gap → Bool
  | .value | .brace _ => false
  | _ => true

theorem idle_remark {σ : Type} {takes : σ → Phrase → σ → List Char → Prop} (passes : PassesRemarks takes)
    {before after : List Char} (h : before.all isSpace) (h' : after.all isSpace) (r : Remark) :
    Idle takes (before ++ (r.text ++ after)) where
  spaced := by
    cases before with
    | nil => exact ⟨' ', _, rfl, rfl⟩
    | cons c before => exact ⟨c, _, rfl, List.all_eq_true.mp h c List.mem_cons_self⟩
  neutral := (isNeutral_spaces h).append (r.isNeutral_text.append (isNeutral_spaces h'))
  reads held tail last := by
    rw [List.append_assoc, List.append_assoc, reads_congr (first?_spaces before h _), r.reads_text passes,
      reads_congr (first?_spaces after h' tail)]

theorem Scope.ignores_remark (scope : Scope) {before after : List Char} (h : before.all isSpace)
    (h' : after.all isSpace) (r : Remark) : scope.Ignores (before ++ (r.text ++ after)) := by
  cases scope with
  | shader => exact idle_remark Shader.passesRemarks h h' r
  | subShader => exact idle_remark SubShader.passesRemarks h h' r
  | pass => exact idle_remark Pass.passesRemarks h h' r
  | stencil => exact idle_remark Settings.passesRemarks h h' r

theorem isTrivia_remark {before after : List Char} (h : before.all isSpace) (h' : after.all isSpace)
    (r : Remark) : IsTrivia (before ++ (r.text ++ after)) where
  neutral := (isNeutral_spaces h).append (r.isNeutral_text.append (isNeutral_spaces h'))
  passed tail := by
    rw [List.append_assoc, List.append_assoc, (isTrivia_spaces h).passed, r.afterTrivia_text,
      (isTrivia_spaces h').passed]

theorem Gap.admits_remark {gap : Gap} (free : gap.isFree) {before after : List Char}
    (parts : gap.text = before ++ after) (r : Remark) : gap.Admits (before ++ (r.text ++ after)) := by
  have spaces := gap.all_isSpace_text
  rw [parts, List.all_append, Bool.and_eq_true] at spaces
  obtain ⟨h, h'⟩ := spaces
  cases gap with
  | before =>
    intro tail header
    rw [List.append_assoc, List.append_assoc, heads_congr (first?_spaces before h _), r.heads_text,
      heads_congr (first?_spaces after h' tail)]
  | header | tag => exact isTrivia_remark h h' r
  | statement scope depth => exact scope.ignores_remark h h' r
  | closing scope depth => exact Scope.ends_of_ignores (scope.ignores_remark h h' r)
  | value | brace depth => simp [isFree] at free
  | after => trivial

/-- A representable shader is read back with a comment in any gap that is not in front of a value. -/
theorem Shader.parse_insert_remark {s : Shader} (h : s.IsRepresentable) {gap : Gap}
    {before front back : List Char} (cut : s.IsCutAt gap before front back) (free : gap.isFree)
    (r : Remark) :
    s.render.toList = front ++ back ∧ Shader.parse (String.ofList (front ++ r.text ++ back)) = .ok s :=
  ⟨cut.toList_render, cut.parse h fun _ parts => Gap.admits_remark free parts r⟩

theorem parse_insert_remark_litShader :
    let front := laid (litShader.pieces.take 29) ++ ['\n']
    let back := List.replicate 16 ' ' ++ ("Comp".toList ++ laid (litShader.pieces.drop 30))
    litShader.IsRepresentable ∧ litShader.IsCutAt (.statement .stencil 4) ['\n'] front back ∧
      Gap.isFree (.statement .stencil 4) ∧ holds ['*', '/'] " \x7d * \" ".toList = false ∧
      Shader.parse (String.ofList (front ++ " /* \x7d * \" */ ".toList ++ back)) = .ok litShader := by
  have representable : litShader.IsRepresentable :=
    ⟨by decide +kernel, by decide +kernel, by decide +kernel⟩
  have cut : litShader.IsCutAt (.statement .stencil 4) ['\n']
      (laid (litShader.pieces.take 29) ++ ['\n'])
      (List.replicate 16 ' ' ++ ("Comp".toList ++ laid (litShader.pieces.drop 30))) :=
    ⟨_, _, _, _, by decide +kernel, by decide, rfl, rfl⟩
  have single : holds ['*', '/'] " \x7d * \" ".toList = false := by decide
  exact ⟨representable, cut, rfl, single,
    (Shader.parse_insert_remark representable cut rfl (.note _ single)).2⟩

/-- A comment between the word of a block and its brace loses the block. -/
theorem parse_insert_remark_fails :
    ¬ ∀ (s : Shader) (gap : Gap) (before front back : List Char) (r : Remark), s.IsRepresentable →
      s.IsCutAt gap before front back → Shader.parse (String.ofList (front ++ r.text ++ back)) = .ok s := by
  intro always
  have cut : cullShader.IsCutAt (.brace 1) [] (laid (cullShader.pieces.take 4) ++ [])
      ("\n    ".toList ++ (['{'] ++ laid (cullShader.pieces.drop 5))) :=
    ⟨cullShader.pieces.take 4, ['{'], cullShader.pieces.drop 5, "\n    ".toList, by decide +kernel,
      by decide, rfl, rfl⟩
  have read := always cullShader _ _ _ _ (.line " c".toList (by decide)) cullShader_isRepresentable cut
  exact absurd read (by decide +kernel)

end ShaderText
