import ShaderText.Proofs.Bytewise.Clause
import ShaderText.Proofs.Tiling

/-! Arguments of a statement without a meaning. Behind a bare value come words on the same line, each as long as it can
be and none a known word or the start of a comment. Main statement: a dropped statement takes all of them and nothing
else, so the reading goes on in front of the first thing that may mean something.
-/
namespace ShaderText

open Bytewise

def IsKnownWord (text : List Char) : Prop :=
  (∃ k : Keyword, sameWord k.word.toList text) ∨ ∃ k : RenderState, sameWord k.word.toList text

def OpensComment (text : List Char) : Prop := ['/', '/'] <+: text ∨ ['/', '*'] <+: text

/-- Whether a word ends here: no character follows that could be part of it. -/
def EndsWord (rest : List Char) : Prop := ∀ c ∈ rest.head?, isArgumentChar c = false

/-- A word that may go with a dropped statement. -/
structure IsArgumentWord (word : List Char) : Prop where
  filled : word ≠ []
  plain : word.all isArgumentChar
  noComment : ¬ OpensComment word
  unknown : ¬ IsKnownWord word

/-- Arguments with the text `rest` behind them: words with margins in front, each as long as it can be. -/
inductive ArgumentsBefore (rest : List Char) : List (List Char) → List Char → Prop
  | nil : ArgumentsBefore rest [] []
  | cons {gap word front : List Char} {words : List (List Char)} (margin : gap.all isMargin)
      (argument : IsArgumentWord word) (whole : EndsWord (front ++ rest)) (onward : ArgumentsBefore rest words front) :
      ArgumentsBefore rest (word :: words) (gap ++ (word ++ front))

/-- What ends the arguments on a line. -/
inductive StopsArguments : List Char → Prop
  | done : StopsArguments []
  | sign {c : Char} {cs : List Char} (sign : c ∈ ['\n', '{', '"']) : StopsArguments (c :: cs)
  | comment {cs : List Char} (opens : OpensComment cs) : StopsArguments cs
  | word {word rest : List Char} (plain : word.all isArgumentChar) (whole : EndsWord rest) (known : IsKnownWord word) :
      StopsArguments (word ++ rest)

theorem isKnownWord_iff {text : List Char} :
    IsKnownWord text ↔ (keyword? text).isSome ∨ (renderState? text).isSome := by
  simp only [IsKnownWord, Option.isSome_iff_exists]
  exact or_congr (exists_congr fun k => WordFamily.find?_eq_some_iff.symm)
    (exists_congr fun k => WordFamily.find?_eq_some_iff.symm)

theorem opensComment_iff {text : List Char} : OpensComment text ↔ (afterComment? text).isSome :=
  isSome_afterComment?_iff.symm

theorem span_of_endsWord {word rest : List Char} (plain : word.all isArgumentChar) (ends : EndsWord rest) :
    (word ++ rest).takeWhile isArgumentChar = word ∧ (word ++ rest).dropWhile isArgumentChar = rest := by
  have inside := List.all_eq_true.mp plain
  rw [List.takeWhile_append_of_pos inside, List.dropWhile_append_of_pos inside]
  cases rest with
  | nil => simp
  | cons c rest =>
    have outside : ¬ isArgumentChar c = true := by simp [ends c rfl]
    rw [List.takeWhile_cons_of_neg outside, List.dropWhile_cons_of_neg outside, List.append_nil]
    exact ⟨rfl, rfl⟩

theorem endsWord_dropWhile (cs : List Char) : EndsWord (cs.dropWhile isArgumentChar) := by
  intro c head
  have outside := List.head?_dropWhile_not isArgumentChar cs
  rw [Option.mem_def.mp head] at outside
  exact outside

theorem opensComment_append {word rest : List Char} (filled : word ≠ []) (ends : EndsWord rest) :
    OpensComment (word ++ rest) ↔ OpensComment word := by
  have mark (c : Char) (part : isArgumentChar c = true) : ['/', c] <+: word ++ rest ↔ ['/', c] <+: word := by
    match word with
    | [] => exact absurd rfl filled
    | [a] =>
      have apart : ¬ [c] <+: rest := fun begins => by
        obtain ⟨more, rfl⟩ := begins
        simp [ends c rfl] at part
      simp [List.cons_prefix_cons, apart]
    | a :: b :: word => simp [List.cons_prefix_cons]
  exact or_congr (mark '/' (by decide)) (mark '*' (by decide))

theorem IsArgumentWord.dropWhile_isMargin {gap word : List Char} (margin : gap.all isMargin) (h : IsArgumentWord word)
    (rest : List Char) : (gap ++ (word ++ rest)).dropWhile isMargin = word ++ rest := by
  rw [List.dropWhile_append_of_pos (List.all_eq_true.mp margin)]
  cases word with
  | nil => exact absurd rfl h.filled
  | cons c word =>
    have part : isArgumentChar c = true := List.all_eq_true.mp h.plain c List.mem_cons_self
    simp only [isArgumentChar, Bool.not_eq_true', Bool.or_eq_false_iff] at part
    rw [List.cons_append, List.dropWhile_cons_of_neg (by simp [isMargin, part.1.1])]

theorem argument?_eq_some_iff {cs word rest : List Char} : argument? cs = some (word, rest) ↔
    ∃ gap, cs = gap ++ (word ++ rest) ∧ gap.all isMargin ∧ IsArgumentWord word ∧ EndsWord rest := by
  constructor
  · intro found
    rw [argument?] at found
    split at found
    · contradiction
    · rename_i accepted
      obtain ⟨isWord, isRest⟩ := Prod.mk.inj (Option.some.inj found)
      have split := List.takeWhile_append_dropWhile (p := isArgumentChar) (l := cs.dropWhile isMargin)
      have ends := endsWord_dropWhile (cs.dropWhile isMargin)
      rw [isRest] at ends
      rw [isWord, isRest] at split
      simp only [isWord, Bool.or_eq_true, not_or, ← opensComment_iff] at accepted
      obtain ⟨⟨⟨filled, noComment⟩, noKeyword⟩, noState⟩ := accepted
      have filled : word ≠ [] := by simpa using filled
      have unknown : ¬ IsKnownWord word := by
        rw [isKnownWord_iff, not_or]
        exact ⟨noKeyword, noState⟩
      rw [← split] at noComment
      refine ⟨cs.takeWhile isMargin, ?_, List.all_takeWhile, ⟨filled, isWord ▸ List.all_takeWhile,
        mt (opensComment_append filled ends).mpr noComment, unknown⟩, ends⟩
      rw [split, List.takeWhile_append_dropWhile]
  · rintro ⟨gap, rfl, margin, argument, ends⟩
    obtain ⟨isWord, isRest⟩ := span_of_endsWord argument.plain ends
    have noComment : (afterComment? (word ++ rest)).isSome = false := by
      rw [Bool.eq_false_iff, ne_eq, ← opensComment_iff]
      exact mt (opensComment_append argument.filled ends).mp argument.noComment
    obtain ⟨noKeyword, noState⟩ := not_or.mp (isKnownWord_iff.not.mp argument.unknown)
    rw [argument?]
    simp only [argument.dropWhile_isMargin margin, isWord, isRest, noComment, noKeyword, noState]
    simp [argument.filled]

theorem sign_of_not_isArgumentChar {c : Char} (noPart : isArgumentChar c = false) (noMargin : isMargin c = false) :
    c ∈ ['\n', '{', '"'] := by
  simp only [isMargin, isInLine, Bool.and_eq_false_iff, bne_eq_false_iff_eq] at noMargin
  rcases noMargin with filled | rfl
  · simp only [isArgumentChar, filled, Bool.not_eq_false', Bool.false_or, Bool.or_eq_true, beq_iff_eq] at noPart
    exact List.mem_cons_of_mem _ (by simpa using noPart)
  · exact List.mem_cons_self

theorem not_isArgumentChar_of_sign {c : Char} (sign : c ∈ ['\n', '{', '"']) :
    isArgumentChar c = false ∧ isMargin c = false := by
  simp only [List.mem_cons, List.not_mem_nil, or_false] at sign
  rcases sign with rfl | rfl | rfl <;> decide

theorem stopsArguments_of_none {cs : List Char} (none : argument? cs = none) :
    StopsArguments (cs.dropWhile isMargin) := by
  have split := List.takeWhile_append_dropWhile (p := isArgumentChar) (l := cs.dropWhile isMargin)
  have ends := endsWord_dropWhile (cs.dropWhile isMargin)
  rw [argument?] at none
  split at none
  · rename_i refused
    simp only [Bool.or_eq_true, ← opensComment_iff, or_assoc, ← isKnownWord_iff] at refused
    rcases refused with empty | opens | known
    · rw [List.isEmpty_iff.mp empty, List.nil_append] at split
      rw [split] at ends
      have noMargin := List.head?_dropWhile_not isMargin cs
      cases here : cs.dropWhile isMargin with
      | nil => exact .done
      | cons c rest =>
        rw [here] at ends noMargin
        exact .sign (sign_of_not_isArgumentChar (ends c rfl) noMargin)
    · exact .comment opens
    · rw [← split]
      exact .word List.all_takeWhile ends known
  · contradiction

theorem arguments_of_some {cs word rest : List Char} (found : argument? cs = some (word, rest)) :
    arguments cs = (word :: (arguments rest).1, (arguments rest).2) := by
  rw [arguments]
  split
  · simp_all
  · rename_i found'
    obtain ⟨rfl, rfl⟩ := Prod.mk.inj (Option.some.inj (found.symm.trans found'))
    rfl

theorem arguments_before (cs : List Char) : ∃ front, cs = front ++ (arguments cs).2 ∧
    ArgumentsBefore (arguments cs).2 (arguments cs).1 front ∧ argument? (arguments cs).2 = none := by
  fun_induction arguments cs with
  | case1 cs none => exact ⟨[], rfl, .nil, none⟩
  | case2 cs word rest found words rest' read ih =>
    rw [read] at ih
    obtain ⟨front, split, before, stops⟩ := ih
    obtain ⟨gap, whole, margin, argument, ends⟩ := argument?_eq_some_iff.mp found
    dsimp only at split before stops
    refine ⟨gap ++ (word ++ front), ?_, .cons margin argument (split ▸ ends) before, stops⟩
    rw [whole, List.append_assoc, List.append_assoc, ← split]

theorem ArgumentsBefore.arguments_eq {words : List (List Char)} {front rest : List Char}
    (h : ArgumentsBefore rest words front) :
    arguments (front ++ rest) = (words ++ (arguments rest).1, (arguments rest).2) := by
  induction h with
  | nil => rfl
  | @cons gap word front words margin argument whole _ ih =>
    have found : argument? (gap ++ (word ++ front) ++ rest) = some (word, front ++ rest) :=
      argument?_eq_some_iff.mpr ⟨gap, by simp, margin, argument, whole⟩
    rw [arguments_of_some found, ih]
    rfl

theorem ArgumentsBefore.of_mem {words : List (List Char)} {front rest : List Char}
    (h : ArgumentsBefore rest words front) :
    (∀ word ∈ words, IsArgumentWord word) ∧ ∀ c ∈ front, isMargin c ∨ isArgumentChar c := by
  induction h with
  | nil => simp
  | cons margin argument _ _ ih =>
    refine ⟨List.forall_mem_cons.mpr ⟨argument, ih.1⟩, ?_⟩
    simp only [List.forall_mem_append]
    exact ⟨fun c member => .inl (List.all_eq_true.mp margin c member),
      fun c member => .inr (List.all_eq_true.mp argument.plain c member), ih.2⟩

/-- No other arguments reach further. -/
theorem ArgumentsBefore.longest {cs : List Char} {words : List (List Char)} {front rest last : List Char}
    (h : ArgumentsBefore rest words front) (split : cs = front ++ rest) (split' : cs = last ++ (arguments cs).2) :
    words <+: (arguments cs).1 ∧ front <+: last := by
  have read := h.arguments_eq
  obtain ⟨between, behind⟩ := arguments_suffix rest
  rw [← split] at read
  rw [read] at split' ⊢
  have whole : (front ++ between) ++ (arguments rest).2 = last ++ (arguments rest).2 := by
    rw [List.append_assoc, behind, ← split, ← split']
  exact ⟨List.prefix_append _ _, between, List.append_cancel_right whole⟩

theorem Clause.read_unknown {s : Statement} (bare : s.kind = .bare) (noKeyword : keyword? s.name.chars = none)
    (noState : renderState? s.name.chars = none) {front rest : List Char} (split : s.rest.chars = front ++ rest)
    (left : (arguments s.rest.chars).2 = rest) :
    read s = (.unknown ((arguments s.rest.chars).1.map String.ofList), ⟨s.rest.start + byteSize front, rest⟩) := by
  have behind : s.rest.onward rest = ⟨s.rest.start + byteSize front, rest⟩ := by
    rw [← Region.onward_append, ← split]
  have noComment : s.kind ≠ .comment := by simp [bare]
  rw [read, if_neg noComment, noKeyword, noState, ← behind, ← left]
  simp only [readUnknown, if_pos bare]

/-- What goes with a statement without a meaning. A bare statement that is neither a keyword nor a render state changes
nothing in its block; the text behind it is passed over as far as it is arguments, and no longer arguments stand there.
They hold no line feed, brace or quote and no known word; behind them, past spaces on the line, the part of the text
ends or a line feed, a brace, a quote, a comment or a known word stands. -/
theorem Clause.read_of_bare (document : String) {start stop : Nat} (ordered : start ≤ stop)
    (first : IsBoundary document.toList start) (last : IsBoundary document.toList stop) {s : Statement}
    (found : Statement.first? (.within document.toList (.between start stop)) = some s) (bare : s.kind = .bare)
    (noKeyword : keyword? s.name.chars = none) (noState : renderState? s.name.chars = none) :
    let here := stretch document.toList s.stop stop
    ∃ words front rest, here = front ++ rest ∧
      (∀ b : Block, takeClause? document stop b (.ofStatement s) s.name.chars =
        some (.ok (b, s.stop + byteSize front)) ∧ b.add (read s).1 = b) ∧
      read s = (.unknown (words.map String.ofList), ⟨s.stop + byteSize front, rest⟩) ∧
      ArgumentsBefore rest words front ∧
      (∀ words' front' rest', here = front' ++ rest' → ArgumentsBefore rest' words' front' →
        words' <+: words ∧ front' <+: front) ∧
      (∀ c ∈ front, c ∉ ['\n', '{', '"']) ∧ (∀ word ∈ words, ¬ IsKnownWord word) ∧
      StopsArguments (rest.dropWhile isMargin) := by
  intro here
  obtain ⟨lies, place⟩ := liesIn_within ordered first last
  obtain ⟨sits, restLies, restStart, restStop⟩ := Statement.sitsIn_first? lies found
  have next : s.rest.start = s.stop := restStart.trans sits.next.symm
  have behind : Spans document.toList s.stop s.rest.chars stop := by
    rw [← next, ← place, ← restStop]
    exact restLies
  have whole : here = s.rest.chars := behind.stretch_eq
  obtain ⟨front, split, before, stops⟩ := arguments_before s.rest.chars
  obtain ⟨words, chars⟩ := before.of_mem
  have reads := read_unknown bare noKeyword noState split rfl
  rw [next] at reads
  have unchanged (b : Block) : b.add (read s).1 = b := by rw [reads]; rfl
  rw [whole]
  refine ⟨_, front, _, split, fun b => ⟨?_, unchanged b⟩, reads, before, ?_, ?_, ?_, stopsArguments_of_none stops⟩
  · have taken := takeClause?_eq found lies (by simp [bare]) b
    rw [place, unchanged, reads] at taken
    exact taken
  · intro words' front' rest' split' before'
    exact before'.longest split' split
  · intro c member sign
    obtain ⟨noPart, noMargin⟩ := not_isArgumentChar_of_sign sign
    simpa [noPart, noMargin] using chars c member
  · exact fun word member => (words word member).unknown

theorem Clause.read_of_bare_blend :
    let document := "é Blend One\x0bΩne, /Zero cull Off\n"
    (2 ≤ 34 ∧ IsBoundary document.toList 2 ∧ IsBoundary document.toList 34) ∧
      ∃ s, Statement.first? (.within document.toList (.between 2 34)) = some s ∧ s.kind = .bare ∧
        keyword? s.name.chars = none ∧ renderState? s.name.chars = none ∧
        (∀ b, takeClause? document 34 b (.ofStatement s) s.name.chars = some (.ok (b, 24))) ∧
        StopsArguments "cull Off\n".toList := by
  intro document
  have first : IsBoundary document.toList 2 := by decide +kernel
  have last : IsBoundary document.toList 34 := by decide +kernel
  let s : Statement := ⟨.bare, ⟨3, "Blend".toList⟩, ⟨9, "One".toList⟩, ⟨12, "\x0bΩne, /Zero cull Off\n".toList⟩⟩
  have found : Statement.first? (.within document.toList (.between 2 34)) = some s := by decide +kernel
  have noKeyword : keyword? s.name.chars = none := by decide +kernel
  have noState : renderState? s.name.chars = none := by decide +kernel
  obtain ⟨words, front, rest, -, taken, reads, -, -, -, -, stops⟩ :=
    read_of_bare document (by decide) first last found rfl noKeyword noState
  have left : (read s).2 = ⟨24, " cull Off\n".toList⟩ := by decide +kernel
  rw [reads] at left
  obtain ⟨place, rfl⟩ := Region.mk.inj left
  refine ⟨⟨by decide, first, last⟩, s, found, rfl, noKeyword, noState, fun b => ?_, stops⟩
  rw [← place]
  exact (taken b).1

end ShaderText
