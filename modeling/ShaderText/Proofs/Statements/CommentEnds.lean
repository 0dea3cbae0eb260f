import ShaderText.Proofs.Spacing.TagClauses
import ShaderText.Proofs.Tiling

/-! Where comments end. A line comment ends behind its line feed, a block comment behind the first mark that
closes it, and either ends with the text if nothing closes it. The reader of a block and the one that skips
spaces and comments both go on right there. Main statement: the statement that a comment makes ends at the same
place, unless the comment is one word with the text behind it; then it takes the rest of this word too.
-/
namespace ShaderText

open Bytewise

/-- A comment with the text `rest` behind it. One that nothing closes has no text behind it. -/
inductive IsCommentBefore (rest : List Char) : List Char → Prop
  | line {inside : List Char} (single : '\n' ∉ inside) : IsCommentBefore rest ('/' :: '/' :: (inside ++ ['\n']))
  | lastLine {inside : List Char} (single : '\n' ∉ inside) (last : rest = []) :
      IsCommentBefore rest ('/' :: '/' :: inside)
  | note {inside : List Char} (single : holds ['*', '/'] inside = false) :
      IsCommentBefore rest ('/' :: '*' :: (inside ++ ['*', '/']))
  | openNote {inside : List Char} (single : holds ['*', '/'] inside = false) (last : rest = []) :
      IsCommentBefore rest ('/' :: '*' :: inside)

theorem exists_line (cs : List Char) :
    ∃ inside, '\n' ∉ inside ∧ (cs = inside ++ '\n' :: afterLine cs ∨ cs = inside ∧ afterLine cs = []) := by
  induction cs with
  | nil => exact ⟨[], by simp, .inr ⟨rfl, rfl⟩⟩
  | cons c cs ih =>
    rw [afterLine]
    by_cases ends : c = '\n'
    · exact ⟨[], by simp, .inl (by simp [ends])⟩
    · obtain ⟨inside, single, split⟩ := ih
      refine ⟨c :: inside, by simp [single, Ne.symm ends], ?_⟩
      rw [if_neg ends]
      rcases split with split | ⟨split, last⟩
      · exact .inl (congrArg (List.cons c) split)
      · exact .inr ⟨congrArg (List.cons c) split, last⟩

theorem exists_note (cs : List Char) :
    ∃ inside, holds ['*', '/'] inside = false ∧
      (cs = inside ++ '*' :: '/' :: afterNote cs ∨ cs = inside ∧ afterNote cs = []) := by
  fun_induction afterNote cs with
  | case1 => exact ⟨[], rfl, .inr ⟨rfl, rfl⟩⟩
  | case2 cs => exact ⟨[], rfl, .inl rfl⟩
  | case3 c cs noMark ih =>
    obtain ⟨inside, single, split⟩ := ih
    refine ⟨c :: inside, ?_, ?_⟩
    · rw [holds, single, Bool.or_false, Bool.eq_false_iff, ne_eq, List.isPrefixOf_iff_prefix]
      rintro ⟨more, begins⟩
      obtain ⟨star, rfl⟩ := List.cons.inj begins
      -- the mark would close the comment already here
      rcases split with split | ⟨split, -⟩
      · exact noMark _ star.symm split
      · exact noMark _ star.symm split
    · rcases split with split | ⟨split, last⟩
      · exact .inl (congrArg (List.cons c) split)
      · exact .inr ⟨congrArg (List.cons c) split, last⟩

theorem exists_comment {cs rest : List Char} (h : afterComment? cs = some rest) :
    ∃ comment, cs = comment ++ rest ∧ IsCommentBefore rest comment := by
  unfold afterComment? at h
  split at h
  · rename_i cs
    obtain rfl := Option.some.inj h
    obtain ⟨inside, single, split | ⟨rfl, last⟩⟩ := exists_line cs
    · exact ⟨'/' :: '/' :: (inside ++ ['\n']), by simpa using split, .line single⟩
    · exact ⟨'/' :: '/' :: cs, by simp [last], .lastLine single last⟩
  · rename_i cs
    obtain rfl := Option.some.inj h
    obtain ⟨inside, single, split | ⟨rfl, last⟩⟩ := exists_note cs
    · exact ⟨'/' :: '*' :: (inside ++ ['*', '/']), by simpa using split, .note single⟩
    · exact ⟨'/' :: '*' :: cs, by simp [last], .openNote single last⟩
  · contradiction

theorem afterLine_of_single {inside : List Char} (single : '\n' ∉ inside) : afterLine inside = [] := by
  have whole := afterLine_append single []
  rwa [List.append_nil] at whole

theorem afterNote_of_single {inside : List Char} (single : holds ['*', '/'] inside = false) :
    afterNote inside = [] := by
  induction inside with
  | nil => rfl
  | cons c inside ih =>
    obtain ⟨first, rest⟩ := not_prefix_of_holds single
    rw [afterNote_cons first, ih rest]

theorem IsCommentBefore.afterComment? {comment rest : List Char} (h : IsCommentBefore rest comment) :
    afterComment? (comment ++ rest) = some rest := by
  cases h with
  | @line inside single => simpa [ShaderText.afterComment?] using afterLine_append_break single rest
  | @lastLine inside single last => simp [ShaderText.afterComment?, last, afterLine_of_single single]
  | @note inside single => simpa [ShaderText.afterComment?] using afterNote_append single rest
  | @openNote inside single last => simp [ShaderText.afterComment?, last, afterNote_of_single single]

theorem IsCommentBefore.exists_cons {comment rest : List Char} (h : IsCommentBefore rest comment) :
    ∃ tail, comment = '/' :: tail := by
  cases h <;> exact ⟨_, rfl⟩

theorem afterClosing?_of_comment {cs rest : List Char} (h : afterComment? cs = some rest) (depth : Nat) :
    afterClosing? depth .code cs = afterClosing? depth .code rest := by
  unfold afterComment? at h
  split at h
  · obtain rfl := Option.some.inj h
    rw [← afterClosing?_line]
    rfl
  · obtain rfl := Option.some.inj h
    rw [← afterClosing?_note]
    rfl
  · contradiction

theorem Remainder.ofName_of_comment {comment rest : List Char} (h : IsCommentBefore rest ('/' :: comment)) :
    let found := ofName ('/' :: (comment ++ rest)) ((comment ++ rest).dropWhile isNameChar)
    found.kind = .comment ∧
      found.rest = if comment.all isNameChar then rest.dropWhile isNameChar else rest := by
  have ends : afterComment? ('/' :: (comment ++ rest)) = some rest := h.afterComment?
  simp only [ofName, ends, true_and]
  rw [List.dropWhile_append]
  by_cases word : comment.all isNameChar = true
  · have none : comment.dropWhile isNameChar = [] := List.dropWhile_eq_nil_iff.mpr (List.all_eq_true.mp word)
    have shorter := (List.dropWhile_suffix isNameChar (l := rest)).length_le
    simp only [none, List.isEmpty_nil, if_true, if_pos word]
    rw [if_neg (by omega)]
  · have some : comment.dropWhile isNameChar ≠ [] := fun none =>
      word (List.all_eq_true.mpr (List.dropWhile_eq_nil_iff.mp none))
    have longer := List.length_pos_of_ne_nil some
    simp only [List.isEmpty_iff, some, if_false, if_neg word, List.length_append]
    rw [if_pos (by omega)]

theorem Statement.exists_of_comment {r : Region} {comment rest : List Char}
    (begins : afterSpaces r.chars = comment ++ rest) (h : IsCommentBefore rest comment) :
    ∃ s, first? r = some s ∧ s.kind = .comment ∧
      s.rest.chars = if comment.all isNameChar then rest.dropWhile isNameChar else rest := by
  obtain ⟨tail, rfl⟩ := h.exists_cons
  obtain ⟨kind, left⟩ := Remainder.ofName_of_comment h
  exact ⟨_, first?_of_afterSpaces begins, kind, left⟩

theorem dropWhile_eq_self_iff_head? {p : Char → Bool} {cs : List Char} :
    cs.dropWhile p = cs ↔ ¬ ∃ c ∈ cs.head?, p c := by
  cases cs with
  | nil => simp
  | cons c cs => simp [List.dropWhile_eq_self_iff]

theorem byteSize_eq_iff_of_suffix {tail cs : List Char} (suffix : tail <:+ cs) :
    byteSize tail = byteSize cs ↔ tail = cs := by
  obtain ⟨front, rfl⟩ := suffix
  rw [byteSize_append]
  constructor
  · intro same
    rw [eq_nil_of_byteSize_le (by omega : byteSize front ≤ 0), List.nil_append]
  · intro same
    rw [← byteSize_append, ← same]

/-- Where a comment ends. At a comment that stands first in some part of a text, the reader of a block and the one
that skips spaces and comments go on right behind it. The comment is also read as a statement, which ends at that
place unless the comment has no end of a name in it and the text behind it goes on with a character of a name: what
is left then begins behind this word. -/
theorem Statement.comment_stop_iff (text : List Char) {start stop : Nat} (ordered : start ≤ stop)
    (first : IsBoundary text start) (last : IsBoundary text stop)
    (opens : ['/', '/'] <+: afterSpaces (stretch text start stop) ∨
      ['/', '*'] <+: afterSpaces (stretch text start stop)) :
    ∃ s gap comment rest, stretch text start stop = gap ++ (comment ++ rest) ∧ gap.all isSpace ∧
      IsCommentBefore rest comment ∧ (∀ depth, afterClosing? depth .code (comment ++ rest) =
        afterClosing? depth .code rest) ∧ afterTrivia (comment ++ rest) = afterTrivia rest ∧
      first? (.within text (.between start stop)) = some s ∧ s.kind = .comment ∧
      s.rest.chars = (if comment.all isNameChar then rest.dropWhile isNameChar else rest) ∧
      (s.stop = start + byteSize gap + byteSize comment ↔
        ¬ (comment.all isNameChar ∧ ∃ c ∈ rest.head?, isNameChar c)) := by
  obtain ⟨lies, place⟩ := liesIn_within ordered first last
  obtain ⟨rest, ends⟩ : ∃ rest, afterComment? (afterSpaces (stretch text start stop)) = some rest := by
    rcases opens with ⟨more, begins⟩ | ⟨more, begins⟩ <;> exact ⟨_, by rw [← begins]; rfl⟩
  obtain ⟨comment, split, isComment⟩ := exists_comment ends
  obtain ⟨tail, rfl⟩ := isComment.exists_cons
  obtain ⟨gap, whole, spaces⟩ : ∃ gap, stretch text start stop = gap ++ ('/' :: tail ++ rest) ∧ gap.all isSpace := by
    refine ⟨(stretch text start stop).takeWhile isSpace, ?_, List.all_takeWhile⟩
    rw [← split]
    exact List.takeWhile_append_dropWhile.symm
  obtain ⟨s, found, kind, left⟩ := exists_of_comment (r := .within text (.between start stop)) split isComment
  rw [split] at ends
  refine ⟨s, gap, '/' :: tail, rest, whole, spaces, isComment, afterClosing?_of_comment ends,
    afterTrivia_of_comment ends, found, kind, left, ?_⟩
  -- both places are told by the bytes that are left up to the end
  obtain ⟨sits, -, restStart, restStop⟩ := sitsIn_first? lies found
  have size : start + byteSize gap + byteSize ('/' :: tail) + byteSize rest = stop := by
    rw [← place, Region.stop]
    change _ = start + byteSize (stretch text start stop)
    rw [whole, byteSize_append, byteSize_append]
    omega
  rw [place, Region.stop, left] at restStop
  rw [sits.next, ← restStart]
  by_cases word : ('/' :: tail).all isNameChar = true
  · rw [if_pos word] at restStop
    simp only [word, true_and, ← dropWhile_eq_self_iff_head?]
    rw [← byteSize_eq_iff_of_suffix (List.dropWhile_suffix _)]
    omega
  · rw [if_neg word] at restStop
    simp only [word, false_and, not_false_eq_true, iff_true, Bool.false_eq_true]
    omega

theorem Statement.comment_stop_glued :
    let text := " /* é */Cull Off".toList
    0 ≤ 17 ∧ IsBoundary text 0 ∧ IsBoundary text 17 ∧ ['/', '*'] <+: afterSpaces (stretch text 0 17) ∧
      ∃ s gap comment rest, stretch text 0 17 = gap ++ (comment ++ rest) ∧ IsCommentBefore rest comment ∧
        first? (.within text (.between 0 17)) = some s ∧ s.kind = .comment ∧ s.stop = 9 ∧
        (s.stop = 0 + byteSize gap + byteSize comment ↔
          ¬ (comment.all isNameChar ∧ ∃ c ∈ rest.head?, isNameChar c)) := by
  intro text
  have first : IsBoundary text 0 := by decide +kernel
  have last : IsBoundary text 17 := by decide +kernel
  have opens : ['/', '*'] <+: afterSpaces (stretch text 0 17) := by decide +kernel
  obtain ⟨s, gap, comment, rest, split, -, isComment, -, -, found, kind, -, stops⟩ :=
    comment_stop_iff text (by decide) first last (.inr opens)
  have place : (first? (.within text (.between 0 17))).map stop = some 9 := by decide +kernel
  rw [found] at place
  exact ⟨by decide, first, last, opens, s, gap, comment, rest, split, isComment, found, kind,
    Option.some.inj place, stops⟩

theorem Statement.comment_stop_fails : ¬ ∀ (text : List Char) (start stop : Nat), start ≤ stop →
    IsBoundary text start → IsBoundary text stop → ∀ s gap comment rest,
      stretch text start stop = gap ++ (comment ++ rest) → gap.all isSpace → IsCommentBefore rest comment →
      first? (.within text (.between start stop)) = some s →
      s.kind = .comment ∧ s.stop = start + byteSize gap + byteSize comment := by
  intro all
  have isComment : IsCommentBefore "Cull Off".toList ('/' :: '*' :: ([] ++ ['*', '/'])) := .note rfl
  have ends := (all "/**/Cull Off".toList 0 12 (by decide) (by decide) (by decide) _ [] _ _
    (by decide +kernel) rfl isComment rfl).2
  revert ends
  decide +kernel

end ShaderText
