import ShaderText.Proofs.Spacing.Remarks

/-! Statements in turn. Between two statements of a body there are spaces, and among the spaces there may be
comments. Nothing has to stand in front of the first statement or behind the last one, where the braces are.
Main statement: if each statement changes what is held in its own way, whatever stands behind it, then a body
makes of what is held what its statements make of it in their order.
-/
namespace ShaderText

/-- What separates two statements: spaces and, among them, comments with spaces on both sides. The line feed that
ends a line comment is the first space behind it. -/
inductive IsBreak : List Char → Prop
  | spaces {gap : List Char} (filled : gap ≠ []) (spaces : gap.all isSpace) : IsBreak gap
  | line {gap inside rest : List Char} (filled : gap ≠ []) (spaces : gap.all isSpace) (single : '\n' ∉ inside)
      (more : IsBreak ('\n' :: rest)) : IsBreak (gap ++ ('/' :: '/' :: (inside ++ '\n' :: rest)))
  | note {gap inside rest : List Char} (filled : gap ≠ []) (spaces : gap.all isSpace)
      (single : holds ['*', '/'] inside = false) (more : IsBreak rest) :
      IsBreak (gap ++ ('/' :: '*' :: (inside ++ '*' :: '/' :: rest)))

theorem isSpaced_of_all_isSpace {gap : List Char} (filled : gap ≠ []) (spaces : gap.all isSpace) : IsSpaced gap := by
  cases gap with
  | nil => exact absurd rfl filled
  | cons c gap => exact ⟨c, gap, rfl, List.all_eq_true.mp spaces c List.mem_cons_self⟩

theorem isNeutral_of_break {cs : List Char} (h : IsNeutral ('\n' :: cs)) : IsNeutral cs := by
  rw [IsNeutral, ← h]
  simp [across?, Mode.isCode, Mode.next, Mode.opened]

theorem IsBreak.isSpaced {cs : List Char} (h : IsBreak cs) : IsSpaced cs := by
  cases h with
  | spaces filled spaces => exact isSpaced_of_all_isSpace filled spaces
  | line filled spaces => exact (isSpaced_of_all_isSpace filled spaces).append _
  | note filled spaces => exact (isSpaced_of_all_isSpace filled spaces).append _

theorem IsBreak.isNeutral {cs : List Char} (h : IsBreak cs) : IsNeutral cs := by
  induction h with
  | spaces _ spaces => exact isNeutral_spaces spaces
  | @line gap inside rest _ spaces single _ ih =>
    have ends : IsNeutral ('/' :: '/' :: (inside ++ ['\n'])) := across?_line single
    simpa using (isNeutral_spaces spaces).append (ends.append (isNeutral_of_break ih))
  | @note gap inside rest _ spaces single _ ih =>
    have ends : IsNeutral ('/' :: '*' :: (inside ++ ['*', '/'])) := across?_note single (.inl rfl)
    simpa using (isNeutral_spaces spaces).append (ends.append ih)

section

variable {σ : Type} {takes : σ → Phrase → σ → List Char → Prop} {cs : List Char}

theorem IsBreak.reads_iff (passes : PassesRemarks takes) (h : IsBreak cs) (held : σ) (tail : List Char) (last : σ) :
    Reads takes held (cs ++ tail) last ↔ Reads takes held tail last := by
  induction h with
  | spaces _ spaces => exact reads_congr (first?_spaces _ spaces tail)
  | @line gap inside rest _ spaces single _ ih =>
    -- the line feed ends the comment and is the first space of the break behind it
    have comment : afterComment? (('/' :: '/' :: inside) ++ '\n' :: (rest ++ tail)) = some (rest ++ tail) :=
      congrArg some (afterLine_append_break single (rest ++ tail))
    have text : gap ++ ('/' :: '/' :: (inside ++ '\n' :: rest)) ++ tail =
        gap ++ (('/' :: '/' :: inside) ++ '\n' :: (rest ++ tail)) := by simp
    rw [text, reads_congr (first?_spaces gap spaces _), reads_comment passes isSpace_break comment (.inl rfl)]
    exact ih
  | @note gap inside rest _ spaces single more ih =>
    obtain ⟨c, rest, rfl, space⟩ := more.isSpaced
    have comment : afterComment? (('/' :: '*' :: (inside ++ ['*', '/'])) ++ c :: (rest ++ tail)) =
        some (c :: (rest ++ tail)) := by
      have ends := afterNote_append single (c :: (rest ++ tail))
      simpa [afterComment?] using ends
    have text : gap ++ ('/' :: '*' :: (inside ++ '*' :: '/' :: c :: rest)) ++ tail =
        gap ++ (('/' :: '*' :: (inside ++ ['*', '/'])) ++ c :: (rest ++ tail)) := by simp
    rw [text, reads_congr (first?_spaces gap spaces _), reads_comment passes space comment (.inr rfl)]
    exact ih

end

section Sequence

variable {α : Type}

/-- Items in turn, each written in one of its ways, with breaks between them. -/
inductive IsSequence (writes : α → List Char → Prop) : List α → List Char → Prop
  | nil : IsSequence writes [] []
  | last {item : α} {text : List Char} (written : writes item text) : IsSequence writes [item] text
  | cons {item : α} {items : List α} {text gap rest : List Char} (written : writes item text) (apart : IsBreak gap)
      (more : IsSequence writes items rest) : IsSequence writes (item :: items) (text ++ (gap ++ rest))

/-- A body of items: their sequence, with or without a break in front. -/
inductive IsBody (writes : α → List Char → Prop) (items : List α) : List Char → Prop
  | flush {cs : List Char} (sequence : IsSequence writes items cs) : IsBody writes items cs
  | spaced {gap cs : List Char} (apart : IsBreak gap) (sequence : IsSequence writes items cs) :
      IsBody writes items (gap ++ cs)

/-- What ends a value: a space, or nothing at all. -/
def IsEnd (cs : List Char) : Prop := ∀ c ∈ cs.head?, isSpace c

theorem isEnd_nil : IsEnd [] := by simp [IsEnd]

theorem IsSpaced.isEnd {cs : List Char} (h : IsSpaced cs) : IsEnd cs := by
  obtain ⟨c, rest, rfl, space⟩ := h
  simpa [IsEnd] using space

/-- A text that is read as one statement, whatever stands behind it, and changes what is held. -/
structure IsStep {σ : Type} (takes : σ → Phrase → σ → List Char → Prop) (held : σ) (text : List Char) (next : σ) :
    Prop where
  closes : Closes text
  reads : ∀ tail, IsEnd tail → ∀ last, Reads takes held (text ++ tail) last ↔ Reads takes next tail last

/-- A text that closes what it opens, and is read to its end in one way only. -/
structure ReadsAs {σ : Type} (takes : σ → Phrase → σ → List Char → Prop) (held : σ) (cs : List Char) (next : σ) :
    Prop where
  closes : Closes cs
  reads : ∀ last, Reads takes held cs last ↔ last = next

variable {σ β : Type} {takes : σ → Phrase → σ → List Char → Prop} {add : β → α → β}
  {writes : α → List Char → Prop} {items : List α} {cs : List Char}

theorem readsAs_nil (held : σ) : ReadsAs takes held [] held where
  closes := isNeutral_nil.closes
  reads last := by rw [reads_iff_of_none (by rfl), eq_comm]

theorem IsSequence.readsAs (fill : β → σ) (passes : PassesRemarks takes)
    (step : ∀ held item text, writes item text → IsStep takes (fill held) text (fill (add held item)))
    (h : IsSequence writes items cs) (held : β) : ReadsAs takes (fill held) cs (fill (items.foldl add held)) := by
  induction h generalizing held with
  | nil => exact readsAs_nil (fill held)
  | @last item text written =>
    have here := step held item text written
    refine ⟨here.closes, fun last => ?_⟩
    have reads := here.reads [] isEnd_nil last
    rw [List.append_nil] at reads
    exact reads.trans ((readsAs_nil _).reads last)
  | @cons item items text gap rest written apart _ ih =>
    have here := step held item text written
    have later := ih (add held item)
    have spaced := apart.isSpaced.append rest
    refine ⟨here.closes.append (apart.isNeutral.append_closes later.closes) spaced, fun last => ?_⟩
    rw [here.reads _ spaced.isEnd, apart.reads_iff passes, later.reads]
    rfl

theorem IsBody.readsAs (fill : β → σ) (passes : PassesRemarks takes)
    (step : ∀ held item text, writes item text → IsStep takes (fill held) text (fill (add held item)))
    (h : IsBody writes items cs) (held : β) : ReadsAs takes (fill held) cs (fill (items.foldl add held)) := by
  cases h with
  | flush sequence => exact sequence.readsAs fill passes step held
  | spaced apart sequence =>
    have inside := sequence.readsAs fill passes step held
    refine ⟨apart.isNeutral.append_closes inside.closes, fun last => ?_⟩
    rw [apart.reads_iff passes]
    exact inside.reads last

end Sequence
end ShaderText
