import ShaderText.Proofs.Respelling
import ShaderText.Proofs.Statements.Sequences

/-! Words in any case of their letters, with values behind them. Main statement: a word and a value make one
statement, whose value is the text of the value, if a space or nothing stands behind it.
-/
namespace ShaderText

theorem WordFamily.find?_congr {κ : Type} [WordFamily κ] {word spelling : List Char} (same : sameWord word spelling) :
    find? κ spelling = find? κ word := by
  simp only [find?, sameWord, sameWord_iff.mp same]

theorem all_isAlpha_of_sameWord {word spelling : List Char} (letters : word.all Char.isAlpha)
    (same : sameWord word spelling) : spelling.all Char.isAlpha := by
  refine List.all_eq_true.mpr fun d member => ?_
  have lowered : d.toLower ∈ word.map Char.toLower := by
    rw [sameWord_iff.mp same]
    exact List.mem_map_of_mem member
  obtain ⟨c, inWord, alike⟩ := List.mem_map.mp lowered
  rcases Alike.eq_or_isAlpha alike with rfl | ⟨-, letter⟩
  · exact List.all_eq_true.mp letters c inWord
  · exact letter

/-- A word of letters that opens no program. -/
structure IsPlainWord (word : List Char) : Prop where
  filled : word ≠ []
  letters : word.all Char.isAlpha
  free : sentinel? word = none

theorem IsPlainWord.spelt {word spelling : List Char} (h : IsPlainWord word) (same : sameWord word spelling) :
    IsPlainWord spelling where
  filled := by
    rintro rfl
    have none := sameWord_iff.mp same
    exact h.filled (List.map_eq_nil_iff.mp none)
  letters := all_isAlpha_of_sameWord h.letters same
  free := by
    rw [← h.free, sentinel?, sentinel?, keyword?, keyword?, WordFamily.find?_congr same]

theorem IsPlainWord.all_isNameChar {word : List Char} (h : IsPlainWord word) : word.all isNameChar := by
  refine List.all_eq_true.mpr fun c member => ?_
  have letter := List.all_eq_true.mp h.letters c member
  simp [isNameChar, isSpace_of_isAlpha letter, ne_of_isAlpha letter]

theorem IsPlainWord.afterComment?_append {word : List Char} (h : IsPlainWord word) (after : List Char) :
    afterComment? (word ++ after) = none := by
  cases word with
  | nil => exact absurd rfl h.filled
  | cons c word =>
    have letter := List.all_eq_true.mp h.letters c List.mem_cons_self
    exact afterComment?_cons (ne_of_isAlpha letter (by decide)) _

theorem IsPlainWord.isNeutral {word : List Char} (h : IsPlainWord word) : IsNeutral word := by
  refine isNeutral_of_isPlain (List.all_eq_true.mpr fun c member => ?_)
  have letter := List.all_eq_true.mp h.letters c member
  simp [isPlain, ne_of_isAlpha letter]

theorem isPlainWord_renderState (k : RenderState) : IsPlainWord k.word.toList := by
  cases k <;> exact ⟨by decide, by decide, by decide⟩

theorem isPlainWord_stencilField (k : StencilField) : IsPlainWord k.word.toList := by
  cases k <;> exact ⟨by decide, by decide, by decide⟩

theorem isPlainWord_keyword {k : Keyword} (h : ∀ sentinel, k ≠ .program sentinel) : IsPlainWord k.word.toList := by
  cases k with
  | program sentinel => exact absurd rfl (h sentinel)
  | _ => exact ⟨by decide, by decide, by decide⟩

/-- A word in any case of its letters, and a value behind it. Only a quote, a brace or a bracket may follow the word
without a space. -/
def IsPair (word value cs : List Char) : Prop :=
  ∃ spelling gap, sameWord word spelling ∧ gap.all isSpace ∧ (gap = [] → ∃ c ∈ value.head?, c ∈ ['"', '{', '[']) ∧
    cs = spelling ++ (gap ++ value)

section Value

variable {word value cs tail : List Char}

theorem IsPair.first? (isWord : IsPlainWord word) (single : isSingleValue value) (h : IsPair word value cs)
    (ends : IsEnd tail) : ∃ spelling, sameWord word spelling ∧
      Phrase.first? (cs ++ tail) = some ⟨(Remainder.ofValue value).kind, spelling, value, tail⟩ := by
  obtain ⟨spelling, gap, same, spaces, apart, rfl⟩ := h
  have spelt := isWord.spelt same
  have filled : value ≠ [] := by
    rintro rfl
    contradiction
  -- the word ends where its letters end
  have outside : ∀ c ∈ (gap ++ (value ++ tail)).head?, isNameChar c = false := by
    intro c head
    cases gap with
    | nil =>
      obtain ⟨d, front, sign⟩ := apart rfl
      rw [List.nil_append, List.head?_append_of_ne_nil _ filled] at head
      obtain rfl := Option.some.inj (head.symm.trans front)
      simp only [List.mem_cons, List.not_mem_nil, or_false] at sign
      rcases sign with rfl | rfl | rfl <;> rfl
    | cons d gap =>
      obtain rfl : d = c := by simpa using head
      simp [isNameChar, List.all_eq_true.mp spaces d List.mem_cons_self]
  have text : afterSpaces (gap ++ (value ++ tail)) = value ++ tail := by
    rw [afterSpaces_append spaces, afterSpaces_of_isSingleValue single]
  refine ⟨spelling, same, ?_⟩
  rw [List.append_assoc, List.append_assoc, Phrase.first?_of_ends spelt.filled spelt.all_isNameChar
    (spelt.afterComment?_append _) outside, spelt.free,
    Phrase.ofWord_eq value text (Remainder.rest_of_isSingleValue single ends), Remainder.ofValue_kind_append filled]

theorem IsPair.closes (isWord : IsPlainWord word) (closes : Closes value) (h : IsPair word value cs) : Closes cs := by
  obtain ⟨spelling, gap, same, spaces, -, rfl⟩ := h
  exact (isWord.spelt same).isNeutral.append_closes ((isNeutral_spaces spaces).append_closes closes)

theorem IsPair.isStep {σ : Type} {takes : σ → Phrase → σ → List Char → Prop} {held next : σ}
    (isWord : IsPlainWord word) (single : isSingleValue value) (closes : Closes value) (h : IsPair word value cs)
    (one : ∀ spelling rest, sameWord word spelling → ∀ next' rest',
      takes held ⟨(Remainder.ofValue value).kind, spelling, value, rest⟩ next' rest' ↔ next' = next ∧ rest' = rest) :
    IsStep takes held cs next where
  closes := h.closes isWord closes
  reads tail ends last := by
    obtain ⟨spelling, same, first⟩ := h.first? isWord single ends
    exact reads_of_only first next tail (one spelling tail same)

theorem IsPair.isStep_block {σ : Type} {takes : σ → Phrase → σ → List Char → Prop} {held next : σ} {k : Keyword}
    {inside : List Char} (noProgram : ∀ sentinel, k ≠ .program sentinel) (closes : Closes inside)
    (h : IsPair k.word.toList ('{' :: (inside ++ ['}'])) cs)
    (one : ∀ ph, ph.kind ≠ .comment → keyword? ph.name = some k → ph.interior? = some inside →
      ∀ next' rest, takes held ph next' rest ↔ next' = next ∧ rest = ph.rest) : IsStep takes held cs next := by
  have closed : afterBlock? ('{' :: (inside ++ ['}'])) = some [] := afterBlock?_of_closes closes []
  have single : isSingleValue ('{' :: (inside ++ ['}'])) := by simp [isSingleValue, closed]
  refine h.isStep (isPlainWord_keyword noProgram) single closes.isNeutral.closes fun spelling rest same => ?_
  have kind : (Remainder.ofValue ('{' :: (inside ++ ['}']))).kind = .block := rfl
  exact one _ (by simp [kind]) (WordFamily.find?_eq_some_iff.mpr same) (Phrase.interior?_block spelling inside rest)

end Value

end ShaderText
