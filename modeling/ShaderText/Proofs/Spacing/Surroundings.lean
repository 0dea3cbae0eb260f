import ShaderText.Proofs.Spacing.Remarks

/-! Text around the block of a shader. What stands in front of the first statement is passed over, if it
is spaces and comments. What stands behind the block is never looked at: every reader that stops in front
of the end of a text stops there whatever follows the text. Main statement: a document with a tree keeps
it between such a text in front and any text behind.
-/
namespace ShaderText

/-- Whether a scanner that stops in front of the end of a text stops there whatever follows. -/
def IsFirm (scan : List Char → List Char) : Prop :=
  ∀ cs tail, scan cs ≠ [] → scan (cs ++ tail) = scan cs ++ tail

theorem isFirm_dropWhile (p : Char → Bool) : IsFirm (List.dropWhile p) := by
  intro cs tail more
  rw [List.dropWhile_append, if_neg (by simpa using more)]

theorem takeWhile_append_of_ne_nil {p : Char → Bool} {cs : List Char} (tail : List Char)
    (more : cs.dropWhile p ≠ []) : (cs ++ tail).takeWhile p = cs.takeWhile p := by
  rw [List.takeWhile_append, if_neg]
  intro all
  have split := congrArg List.length (List.takeWhile_append_dropWhile (p := p) (l := cs))
  rw [List.length_append] at split
  exact more (List.length_eq_zero_iff.mp (by omega))

theorem isFirm_afterSpaces : IsFirm afterSpaces := isFirm_dropWhile isSpace

theorem isFirm_afterBare : IsFirm afterBare := isFirm_dropWhile fun c => !isSpace c

theorem isFirm_afterLine : IsFirm afterLine := by
  intro cs tail more
  fun_induction afterLine cs with
  | case1 => exact absurd rfl more
  | case2 cs => rfl
  | case3 c cs noBreak ih => rw [List.cons_append, afterLine, if_neg noBreak, ih more]

theorem isFirm_afterNote : IsFirm afterNote := by
  intro cs tail more
  fun_induction afterNote cs with
  | case1 => exact absurd rfl more
  | case2 cs => rfl
  | case3 c cs inside ih =>
    rw [List.cons_append, afterNote_cons, ih more]
    intro star
    cases cs with
    | nil => exact absurd rfl more
    | cons d cs =>
      rintro slash
      obtain rfl : d = '/' := by simpa using slash
      exact inside cs star rfl

theorem afterComment?_append_some {cs rest : List Char} (tail : List Char) (h : afterComment? cs = some rest)
    (more : rest ≠ []) : afterComment? (cs ++ tail) = some (rest ++ tail) := by
  unfold afterComment? at h
  split at h
  · rename_i inside
    obtain rfl := Option.some.inj h
    exact congrArg some (isFirm_afterLine inside tail more)
  · rename_i inside
    obtain rfl := Option.some.inj h
    exact congrArg some (isFirm_afterNote inside tail more)
  · simp at h

/-- One character may be the first one of a comment; two tell whether there is one. -/
theorem afterComment?_append_none {c d : Char} {cs : List Char} (tail : List Char)
    (h : afterComment? (c :: d :: cs) = none) : afterComment? (c :: d :: cs ++ tail) = none := by
  by_cases slash : c = '/'
  · subst slash
    have noLine : d ≠ '/' := by
      rintro rfl
      simp [afterComment?] at h
    have noNote : d ≠ '*' := by
      rintro rfl
      simp [afterComment?] at h
    simp [afterComment?, noLine, noNote]
  · exact afterComment?_cons slash (d :: cs ++ tail)

theorem afterTrivia_append {cs rest : List Char} {c : Char} (tail : List Char) (h : afterTrivia cs = c :: rest)
    (noSlash : c ≠ '/') : afterTrivia (cs ++ tail) = c :: rest ++ tail := by
  fun_induction afterTrivia cs with
  | case1 cs noComment =>
    have firm := isFirm_afterSpaces cs tail (by rw [h]; simp)
    rw [h] at firm
    have noComment' : afterComment? (afterSpaces (cs ++ tail)) = none := by
      rw [firm]
      exact afterComment?_cons noSlash (rest ++ tail)
    rw [afterTrivia]
    split
    · exact firm
    · rename_i comment
      simp [noComment'] at comment
  | case2 cs after comment ih =>
    have more : after ≠ [] := by
      rintro rfl
      simp [afterTrivia, afterSpaces, afterComment?] at h
    have firm := isFirm_afterSpaces cs tail fun none => by simp [none, afterComment?] at comment
    have comment' := afterComment?_append_some tail comment more
    rw [← firm] at comment'
    rw [afterTrivia]
    split
    · rename_i noComment
      simp [comment'] at noComment
    · rename_i after' found
      obtain rfl := Option.some.inj (comment'.symm.trans found)
      exact ih h

/-- A statement that is told by the text up to its end: text is left behind it, or its block is closed. -/
def Phrase.IsComplete (ph : Phrase) : Prop :=
  ph.rest = [] → ph.kind = .block ∧ (afterBlock? ph.value).isSome

def Phrase.followedBy (ph : Phrase) (tail : List Char) : Phrase := { ph with rest := ph.rest ++ tail }

namespace Remainder

theorem ofValue_bare {c : Char} (noQuote : c ≠ '"') (noBrace : c ≠ '{') (cs : List Char) :
    ofValue (c :: cs) = ⟨.bare, c :: cs, afterBare (c :: cs)⟩ := by
  unfold ofValue
  split <;> simp_all

theorem ofValue_append {value : List Char} (tail : List Char)
    (complete : (ofValue value).rest = [] → (ofValue value).kind = .block ∧ (afterBlock? value).isSome) :
    ofValue (value ++ tail) = ⟨(ofValue value).kind, value ++ tail, (ofValue value).rest ++ tail⟩ := by
  cases value with
  | nil => simp [ofValue] at complete
  | cons c inside =>
    by_cases quote : c = '"'
    · subst quote
      cases closes : afterQuote? inside with
      | none => simp [ofValue, closes] at complete
      | some rest => simp [ofValue, closes, afterQuote?_append tail closes]
    by_cases brace : c = '{'
    · subst brace
      cases closes : afterBlock? ('{' :: inside) with
      | none => simp [ofValue, closes] at complete
      | some rest =>
        have further : afterBlock? ('{' :: (inside ++ tail)) = some (rest ++ tail) :=
          afterClosing?_append_tail tail closes
        simp [ofValue, closes, further]
    · rw [ofValue_bare quote brace] at complete ⊢
      have more : afterBare (c :: inside) ≠ [] := by
        intro none
        simp [none] at complete
      rw [List.cons_append, ofValue_bare quote brace, ← List.cons_append, isFirm_afterBare (c :: inside) tail more]

theorem ne_nil_of_complete {cs afterName : List Char} (name : afterName <:+ cs)
    (complete : (ofName cs afterName).rest = [] →
      (ofName cs afterName).kind = .block ∧ (afterBlock? (ofName cs afterName).value).isSome) :
    afterName ≠ [] := by
  rintro rfl
  obtain ⟨value, rest⟩ := ofName_suffix name
  have noValue := List.suffix_nil.mp value
  rw [noValue] at rest complete
  have closed := (complete (List.suffix_nil.mp rest)).2
  simp [afterBlock?, afterClosing?] at closed

theorem ofName_append {c : Char} {cs afterName : List Char} (name : afterName <:+ cs) (tail : List Char)
    (complete : (ofName (c :: cs) afterName).rest = [] →
      (ofName (c :: cs) afterName).kind = .block ∧ (afterBlock? (ofName (c :: cs) afterName).value).isSome) :
    ofName (c :: cs ++ tail) (afterName ++ tail) =
      ⟨(ofName (c :: cs) afterName).kind, (ofName (c :: cs) afterName).value ++ tail,
        (ofName (c :: cs) afterName).rest ++ tail⟩ := by
  have filled := ne_nil_of_complete (name.trans (List.suffix_cons c cs)) complete
  obtain ⟨d, ds, rfl⟩ : ∃ d ds, cs = d :: ds := by
    cases cs with
    | nil => exact absurd (List.suffix_nil.mp name) filled
    | cons d ds => exact ⟨d, ds, rfl⟩
  have word : (c :: d :: ds ++ tail).take ((c :: d :: ds ++ tail).length - (afterName ++ tail).length) =
      (c :: d :: ds).take ((c :: d :: ds).length - afterName.length) := by
    rw [List.length_append, List.length_append, Nat.add_sub_add_right,
      List.take_append_of_le_length (Nat.sub_le _ _)]
  unfold ofName at complete ⊢
  rw [word]
  cases comment : afterComment? (c :: d :: ds) with
  | some after =>
    simp only [comment] at complete ⊢
    have more : after ≠ [] := by
      rintro rfl
      have size := List.length_pos_iff.mpr filled
      simp [size] at complete
    simp only [afterComment?_append_some tail comment more, List.length_append, Nat.add_lt_add_iff_right]
    split <;> rfl
  | none =>
    simp only [comment] at complete ⊢
    rw [afterComment?_append_none tail comment]
    cases sentinel : sentinel? ((c :: d :: ds).take ((c :: d :: ds).length - afterName.length)) with
    | some s => rfl
    | none =>
      simp only [sentinel, (ofValue_suffix (afterSpaces afterName)).1] at complete ⊢
      have more : afterSpaces afterName ≠ [] := by
        intro none
        simp [none, ofValue] at complete
      simp only [isFirm_afterSpaces afterName tail more, ofValue_append tail complete]

end Remainder

theorem Phrase.first?_append {cs : List Char} {ph : Phrase} (h : first? cs = some ph) (complete : ph.IsComplete)
    (tail : List Char) : first? (cs ++ tail) = some (ph.followedBy tail) := by
  unfold first? at h ⊢
  cases begins : afterSpaces cs with
  | nil => simp [begins] at h
  | cons c cs' =>
    rw [isFirm_afterSpaces cs tail (by simp [begins]), begins]
    simp only [begins] at h
    obtain rfl := Option.some.inj h
    have name : cs'.dropWhile isNameChar <:+ cs' := List.dropWhile_suffix _
    have complete' : (Remainder.ofName (c :: cs') (cs'.dropWhile isNameChar)).rest = [] →
        (Remainder.ofName (c :: cs') (cs'.dropWhile isNameChar)).kind = .block ∧
          (afterBlock? (Remainder.ofName (c :: cs') (cs'.dropWhile isNameChar)).value).isSome := by
      intro none
      have closed := complete none
      simpa only [none, List.length_nil, Nat.sub_zero, List.take_length] using closed
    have more := Remainder.ne_nil_of_complete (name.trans (List.suffix_cons c cs')) complete'
    have found := Remainder.ofName_append name tail complete'
    rw [← isFirm_dropWhile isNameChar cs' tail more] at found
    simp only [List.cons_append] at found ⊢
    rw [found, takeWhile_append_of_ne_nil tail more, List.length_append, List.length_append,
      Nat.add_sub_add_right, List.take_append_of_le_length (Nat.sub_le _ _)]
    rfl

theorem Heads.append {cs : List Char} {header : Phrase} (h : Heads cs header) (complete : header.IsComplete)
    (tail : List Char) : Heads (cs ++ tail) (header.followedBy tail) := by
  induction h with
  | here found noComment => exact .here (Phrase.first?_append found complete tail) noComment
  | @past cs ph header found comment more ih =>
    have behind : ph.rest ≠ [] := by
      intro none
      rw [none] at more
      cases more with
      | here found | past found => simp [Phrase.first?, afterSpaces] at found
    exact .past (Phrase.first?_append found (fun none => absurd none behind) tail) comment (ih complete)

theorem Denotes.append {cs : List Char} {s : Shader} (h : Denotes cs s) (tail : List Char) :
    Denotes (cs ++ tail) s := by
  obtain ⟨header, inside, rest, heads, word, opens, closes, reads⟩ := h
  by_cases block : header.kind = .block
  · -- the block is part of the header, and nothing behind the header is read
    have value : header.blockText = header.value := if_pos block
    have complete : header.IsComplete := by
      intro _
      rw [← value, closes]
      exact ⟨block, rfl⟩
    have same : (header.followedBy tail).blockText = header.blockText := by
      rw [value]
      exact if_pos block
    have name : (header.followedBy tail).shaderName = header.shaderName := rfl
    rw [← same] at opens closes
    exact ⟨header.followedBy tail, inside, rest, heads.append complete tail, word, opens, closes,
      name ▸ reads⟩
  · have onward : header.blockText = afterTrivia header.rest := if_neg block
    have complete : header.IsComplete := by
      intro none
      rw [onward, none] at opens
      simp [afterTrivia, afterSpaces, afterComment?] at opens
    have onward' : (header.followedBy tail).blockText = afterTrivia (header.rest ++ tail) := if_neg block
    have opens' : (header.followedBy tail).blockText = '{' :: inside ++ '}' :: (rest ++ tail) := by
      rw [onward] at opens
      rw [onward', afterTrivia_append tail opens (by decide)]
      simp
    have closes' : afterBlock? (header.followedBy tail).blockText = some (rest ++ tail) := by
      rw [opens] at closes
      have further : afterBlock? _ = some (rest ++ tail) := afterClosing?_append_tail tail closes
      rw [opens', ← further]
      simp
    have name : (header.followedBy tail).shaderName = header.shaderName := rfl
    exact ⟨header.followedBy tail, inside, rest ++ tail, heads.append complete tail, word, opens', closes',
      name ▸ reads⟩

/-- Spaces, line comments with their line feed, and block comments with a space behind each. -/
inductive IsLeading : List Char → Prop
  | nil : IsLeading []
  | space {c : Char} {cs : List Char} : isSpace c → IsLeading cs → IsLeading (c :: cs)
  | line {inside cs : List Char} : '\n' ∉ inside → IsLeading cs →
      IsLeading ('/' :: '/' :: (inside ++ '\n' :: cs))
  | note {inside cs : List Char} {c : Char} : holds ['*', '/'] inside = false → isSpace c → IsLeading cs →
      IsLeading ('/' :: '*' :: (inside ++ '*' :: '/' :: c :: cs))

theorem IsLeading.heads_iff {cs : List Char} (h : IsLeading cs) (tail : List Char) (header : Phrase) :
    Heads (cs ++ tail) header ↔ Heads tail header := by
  induction h with
  | nil => rfl
  | @space c cs separates _ ih =>
    have passed : Phrase.first? (c :: (cs ++ tail)) = Phrase.first? (cs ++ tail) :=
      first?_spaces [c] (by simp [separates]) (cs ++ tail)
    rw [List.cons_append, heads_congr passed, ih]
  | @line inside cs single _ ih =>
    have comment : afterComment? ('/' :: '/' :: inside ++ '\n' :: (cs ++ tail)) = some (cs ++ tail) :=
      congrArg some (afterLine_append_break single (cs ++ tail))
    have past := heads_comment (by decide) comment (.inl rfl) header
    simpa [ih] using past
  | @note inside cs c single separates _ ih =>
    have comment : afterComment? ('/' :: '*' :: (inside ++ ['*', '/']) ++ c :: (cs ++ tail)) =
        some (c :: (cs ++ tail)) := by
      have ends := afterNote_append single (c :: (cs ++ tail))
      simpa [afterComment?] using ends
    have past := heads_comment separates comment (.inr rfl) header
    simpa [ih] using past

/-- Only the block of the shader counts: neither spaces and comments in front of it nor any text behind it
change what a document says. -/
theorem Shader.parse_surrounded {before document behind : String} {s : Shader}
    (leading : IsLeading before.toList) (h : parse document = .ok s) :
    parse (before ++ document ++ behind) = .ok s := by
  rw [parse_iff_denotes] at h ⊢
  obtain ⟨header, inside, rest, heads, more⟩ := h.append behind.toList
  rw [String.toList_append, String.toList_append, List.append_assoc]
  exact ⟨header, inside, rest, (leading.heads_iff _ header).mpr heads, more⟩

theorem parse_surrounded_cullShader :
    let before := "\t// Shader \"\n /*/ \x7b */\n"
    let document := "/**/ shader\x7bsubshader\n\x7b cull Off \x7d\x7d"
    let behind := "\x7d \" /* \x7b"
    IsLeading before.toList ∧ Shader.parse document = .ok { cullShader with name := "" } ∧
      Shader.parse (before ++ document ++ behind) = .ok { cullShader with name := "" } := by
  intro before document behind
  have note : IsLeading ('/' :: '*' :: ("/ \x7b ".toList ++ '*' :: '/' :: ['\n'])) := .note (by decide) rfl .nil
  have line : IsLeading ('/' :: '/' :: (" Shader \"".toList ++ '\n' :: ' ' :: _)) :=
    .line (by decide) (.space rfl note)
  have whole : before.toList = '\t' :: '/' :: '/' :: (" Shader \"".toList ++ '\n' :: ' ' :: '/' :: '*' ::
      ("/ \x7b ".toList ++ '*' :: '/' :: ['\n'])) := by decide +kernel
  have leading : IsLeading before.toList := by
    rw [whole]
    exact .space rfl line
  have parsed : Shader.parse document = .ok { cullShader with name := "" } := by decide +kernel
  exact ⟨leading, parsed, Shader.parse_surrounded leading parsed⟩

end ShaderText
