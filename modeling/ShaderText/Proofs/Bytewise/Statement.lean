import ShaderText.Statement
import ShaderText.Proofs.Values
import ShaderText.Proofs.Bytewise.Scanning

/-! Statements by bytes. A statement is found by the bytes that its name and its value cover, and its
texts are slices of the document. Main statement: on a region of the document the scanner of bytes
finds the first statement of the region, and goes on where that statement ends, which is further on.
-/
namespace ShaderText

/-- Whether a region is a stretch of whole characters of a text. -/
def Region.LiesIn (r : Region) (text : List Char) : Prop := Bytewise.Spans text r.start r.chars r.stop

namespace Bytewise

theorem liesIn_whole (text : List Char) : (Region.whole text).LiesIn text := by
  have whole := spans_whole text
  rwa [← Nat.zero_add (byteSize text)] at whole

section LiesIn

variable {text tail : List Char} {r : Region}

theorem Spans.liesIn {pos stop : Nat} {cs : List Char} (h : Spans text pos cs stop) :
    (Region.mk pos cs).LiesIn text ∧ (Region.mk pos cs).stop = stop := by
  have place : (Region.mk pos cs).stop = stop := h.stop_eq.symm
  refine ⟨?_, place⟩
  rw [Region.LiesIn, place]
  exact h

theorem liesIn_onward (h : r.LiesIn text) (suffix : tail <:+ r.chars) : (r.onward tail).LiesIn text := by
  show Spans text (r.stop - byteSize tail) tail (r.onward tail).stop
  rw [Region.stop_onward suffix]
  exact Spans.onward h suffix

theorem liesIn_upTo (h : r.LiesIn text) (suffix : tail <:+ r.chars) : (r.upTo tail).LiesIn text := by
  have upTo := Spans.upTo h suffix
  have stop : (r.upTo tail).stop = r.stop - byteSize tail := Region.stop_upTo suffix
  rwa [← stop] at upTo

theorem onward_onward (suffix : tail <:+ r.chars) (rest : List Char) : (r.onward tail).onward rest = r.onward rest := by
  rw [Region.onward, Region.stop_onward suffix]
  rfl

theorem slice?_of_liesIn (h : r.LiesIn text) : slice? text r.start r.stop = some r.chars := Spans.slice?_eq h

theorem start_lt_of_suffix (suffix : tail <:+ r.chars) (shorter : tail.length < r.chars.length) :
    r.start < (r.onward tail).start := by
  obtain ⟨front, split⟩ := suffix
  obtain ⟨start, chars⟩ := r
  subst split
  rw [Region.onward_append]
  cases front with
  | nil => simp at shorter
  | cons c front =>
    have size := c.utf8Size_pos
    simp only [byteSize_cons]
    omega

theorem start_lt_stop_iff : r.start < r.stop ↔ r.chars ≠ [] := by
  cases r with
  | mk start chars =>
    cases chars with
    | nil => simp [Region.stop]
    | cons c cs =>
      have size := c.utf8Size_pos
      simp only [Region.stop, byteSize_cons, ne_eq, reduceCtorEq, not_false_eq_true, iff_true]
      omega

end LiesIn

/-- The bytes that a statement covers. -/
structure Extent where
  kind : Kind
  name : Span
  value : Span
deriving DecidableEq

namespace Extent

/-- Where the next statement is looked for. -/
def stop (e : Extent) : Nat := max e.name.stop e.value.stop

def ofStatement (s : Statement) : Extent := ⟨s.kind, s.name.span, s.value.span⟩

end Extent

def isNameByte (b : UInt8) : Bool := !(isSpaceByte b || b == code '{' || b == code '"' || b == code '[')

theorem agrees_isNameChar : Agrees isNameByte isNameChar :=
  (((agrees_isSpace.or (agrees_code (by decide))).or (agrees_code (by decide))).or (agrees_code (by decide))).not

variable (document : String)

/-- The value that starts at a place, and where it ends. -/
def scanValue? (pos stop : Nat) : Option (Kind × Nat) :=
  if pos < stop then do
    let b ← byte? document pos
    if b = code '"' then return (.quoted, (← scanQuoted? document false (pos + 1) stop).getD stop)
    else if b = code '{' then return (.block, (← scanBlock? document 0 pos stop).getD stop)
    else return (.bare, ← skipWhile? document (fun b => !isSpaceByte b) pos stop)
  else some (.empty, pos)

/-- The statement whose name starts at a place. A comment ends where comments end, or with its first word. -/
def scanNamed? (start stop : Nat) : Option Extent := do
  let nameStop ← skipWhile? document isNameByte (start + 1) stop
  let name := Span.between start nameStop
  if ← startsWith? document start stop '/' '/' then
    return ⟨.comment, name, .between nameStop (← skipLine? document nameStop stop)⟩
  else if ← startsWith? document start stop '/' '*' then
    return ⟨.comment, name, .between nameStop (← skipNote? document (start + 2) stop)⟩
  else
    match sentinel? (← slice? document.toList name.start name.stop) with
    | some s => return ⟨.program s, name, ⟨nameStop, 0⟩⟩
    | none =>
      let valueStart ← skipWhile? document isSpaceByte nameStop stop
      let (kind, valueStop) ← scanValue? document valueStart stop
      return ⟨kind, name, .between valueStart valueStop⟩

/-- The first statement between two places, unless there are only spaces. -/
def scanStatement? (pos stop : Nat) : Option (Option Extent) := do
  let start ← skipWhile? document isSpaceByte pos stop
  if start < stop then return some (← scanNamed? document start stop) else return none

variable {document}

theorem skipWhile?_region {p : UInt8 → Bool} {q : Char → Bool} (agrees : Agrees p q) {r : Region}
    (h : r.LiesIn document.toList) :
    skipWhile? document p r.start r.stop = some (r.onward (r.chars.dropWhile q)).start :=
  skipWhile?_eq agrees h

theorem skipWhile?_isNameByte {c : Char} {cs : List Char} {pos stop : Nat}
    (h : Spans document.toList pos (c :: cs) stop) :
    skipWhile? document isNameByte (pos + 1) stop = some (stop - byteSize (cs.dropWhile isNameChar)) := by
  have size := c.utf8Size_pos
  by_cases ascii : c.toNat ≤ 127
  · have tail := h.tail
    rw [utf8Size_of_ascii ascii] at tail
    exact skipWhile?_eq agrees_isNameChar tail
  · -- every byte of such a character is outside of the ASCII range, and so part of a name
    have inName (b : UInt8) (member : b ∈ String.utf8EncodeChar c) : isNameByte b = true := by
      rw [agrees_isNameChar c b member]
      simp only [isNameChar, isSpace, Bool.not_eq_true', Bool.or_eq_false_iff, beq_eq_false_iff_ne, ne_eq]
      refine ⟨⟨⟨⟨⟨⟨⟨⟨?_, ?_⟩, ?_⟩, ?_⟩, ?_⟩, ?_⟩, ?_⟩, ?_⟩, ?_⟩ <;>
      · rintro rfl
        exact absurd (by decide) ascii
    have step := h.passing (f := fun i => skipWhile? document isNameByte (max i (pos + 1)) stop)
      (fun i b within before member read => by
        by_cases first : i = pos
        · simp [first]
        · rw [show max i (pos + 1) = i by omega, show max (i + 1) (pos + 1) = i + 1 by omega, skipWhile?,
            if_pos before, read]
          simp [inName b member])
    rw [show max pos (pos + 1) = pos + 1 by omega,
      show max (pos + c.utf8Size) (pos + 1) = pos + c.utf8Size by omega] at step
    rw [step]
    exact skipWhile?_eq agrees_isNameChar h.tail

theorem scanValue?_eq {r : Region} (h : r.LiesIn document.toList) :
    scanValue? document r.start r.stop =
      some ((Remainder.ofValue r.chars).kind, (r.onward (Remainder.ofValue r.chars).rest).start) := by
  obtain ⟨start, chars⟩ := r
  cases chars with
  | nil =>
    rw [scanValue?, if_neg (by simp [Region.stop])]
    simp [Remainder.ofValue, Region.onward, Region.stop]
  | cons c cs =>
    have size := c.utf8Size_pos
    have getD (found : Option (List Char)) (stop : Nat) :
        (found.map fun rest => stop - byteSize rest).getD stop = stop - byteSize (found.getD []) := by
      cases found <;> rfl
    obtain ⟨b, member, read⟩ := Spans.byte?_eq h size
    rw [Nat.add_zero] at read
    rw [scanValue?, if_pos (by simp only [Region.stop, byteSize_cons]; omega), read]
    simp only [Option.bind_eq_bind, Option.bind_some, eq_code_iff member (show ('"').toNat ≤ 127 by decide),
      eq_code_iff member (show ('{').toNat ≤ 127 by decide)]
    by_cases quote : c = '"'
    · subst quote
      have tail : Spans document.toList (start + 1) cs (Region.stop ⟨start, '"' :: cs⟩) := Spans.tail h
      rw [if_pos rfl, scanQuoted?_eq tail]
      simp only [Option.bind_some, getD]
      rfl
    by_cases brace : c = '{'
    · subst brace
      rw [if_neg (by decide), if_pos rfl, scanBlock?_eq h]
      simp only [Option.bind_some, getD]
      rfl
    · have bare : Remainder.ofValue (c :: cs) = ⟨.bare, c :: cs, afterBare (c :: cs)⟩ := by
        unfold Remainder.ofValue
        split <;> simp_all
      rw [if_neg quote, if_neg brace, skipWhile?_region agrees_isSpace.not h, bare]
      rfl

theorem afterLine_append {front : List Char} (noBreak : '\n' ∉ front) (cs : List Char) :
    afterLine (front ++ cs) = afterLine cs := by
  induction front with
  | nil => rfl
  | cons c front ih =>
    simp only [List.mem_cons, not_or] at noBreak
    rw [List.cons_append, afterLine, if_neg (Ne.symm noBreak.1), ih noBreak.2]

theorem span_upTo {r : Region} {tail : List Char} (suffix : tail <:+ r.chars) :
    (r.upTo tail).span = .between r.start (r.onward tail).start := by
  have stop : r.start + byteSize (r.upTo tail).chars = (r.onward tail).start := Region.stop_upTo suffix
  rw [Region.span, Span.between, ← stop, Nat.add_sub_cancel_left]
  rfl

theorem byteSize_le_of_suffix {tail cs : List Char} (suffix : tail <:+ cs) : byteSize tail ≤ byteSize cs := by
  obtain ⟨front, rfl⟩ := suffix
  rw [byteSize_append]
  omega

theorem scanNamed?_eq {start : Nat} {c : Char} {cs : List Char}
    (h : (Region.mk start (c :: cs)).LiesIn document.toList) :
    let here := Region.mk start (c :: cs)
    let afterName := here.onward (cs.dropWhile isNameChar)
    let found := Remainder.ofName (c :: cs) afterName.chars
    scanNamed? document start here.stop = some ⟨found.kind, .between start afterName.start,
      .between (here.onward found.value).start (here.onward found.rest).start⟩ := by
  intro here afterName found
  have name : afterName.chars <:+ c :: cs := (List.dropWhile_suffix _).trans (List.suffix_cons c cs)
  have lies : afterName.LiesIn document.toList := liesIn_onward h name
  have stop : afterName.stop = here.stop := Region.stop_onward name
  have nameStop : skipWhile? document isNameByte (start + 1) here.stop = some afterName.start :=
    skipWhile?_isNameByte h
  have noBreak : '\n' ∉ cs.takeWhile isNameChar := fun member => by
    have := List.all_eq_true.mp (List.all_takeWhile (p := isNameChar) (l := cs)) _ member
    simp [show isNameChar '\n' = false from by decide] at this
  have split : cs = cs.takeWhile isNameChar ++ afterName.chars := List.takeWhile_append_dropWhile.symm
  have line : startsWith? document start here.stop '/' '/' = some (decide (['/', '/'] <+: c :: cs)) :=
    startsWith?_eq h ⟨by decide, by decide⟩
  have note : startsWith? document start here.stop '/' '*' = some (decide (['/', '*'] <+: c :: cs)) :=
    startsWith?_eq h ⟨by decide, by decide⟩
  rw [scanNamed?, nameStop]
  simp only [Option.bind_eq_bind, Option.bind_some, line, note, Option.pure_def, decide_eq_true_eq]
  by_cases isLine : ['/', '/'] <+: c :: cs
  · obtain ⟨rest, whole⟩ := isLine
    obtain ⟨rfl, rfl⟩ := List.cons.inj whole
    -- a name has no line feed, so the line ends at the same place for the first slash and for the name
    have same : afterLine rest = afterLine afterName.chars := by
      have beyond := afterLine_append noBreak afterName.chars
      rw [← split] at beyond
      exact beyond
    have ends : found = ⟨.comment, afterName.chars, afterLine afterName.chars⟩ := by
      show Remainder.ofName ('/' :: '/' :: rest) afterName.chars = _
      have comment : afterComment? ('/' :: '/' :: rest) = some (afterLine rest) := rfl
      rw [Remainder.ofName, comment, same]
      have shorter := length_afterLine_le afterName.chars
      cases chars : afterName.chars with
      | nil => rfl
      | cons d ds =>
        rw [chars, List.length_cons] at shorter
        simp only [List.length_cons]
        rw [if_pos (by omega)]
    have last := skipLine?_eq lies
    rw [stop] at last
    rw [if_pos (by simp), last, ends]
    rfl
  by_cases isNote : ['/', '*'] <+: c :: cs
  · obtain ⟨rest, whole⟩ := isNote
    obtain ⟨rfl, rfl⟩ := List.cons.inj whole
    have second : Spans document.toList (start + 2) rest here.stop := Spans.tail (Spans.tail h)
    rw [if_neg isLine, if_pos (by simp), skipNote?_eq second, Option.bind_some]
    have ends : found = ⟨.comment, afterName.chars,
        if (afterNote rest).length < afterName.chars.length then afterNote rest else afterName.chars⟩ := rfl
    rw [ends]
    by_cases shorter : (afterNote rest).length < afterName.chars.length
    · rw [if_pos shorter]
      rfl
    · -- the comment ends inside of its first word, and the word ends it
      have suffix : afterName.chars <:+ afterNote rest :=
        List.suffix_of_suffix_length_le name
          ((afterNote_suffix rest).trans ((List.suffix_cons '*' rest).trans (List.suffix_cons '/' _))) (by omega)
      have size := byteSize_le_of_suffix suffix
      rw [if_neg shorter]
      have empty : Span.between afterName.start (here.stop - byteSize (afterNote rest)) =
          Span.between afterName.start afterName.start := by
        have place : afterName.start = here.stop - byteSize afterName.chars := rfl
        simp only [Span.between, Span.mk.injEq, true_and]
        omega
      rw [empty]
      rfl
  · have noComment : afterComment? (c :: cs) = none := by
      unfold afterComment?
      split
      · rename_i rest whole
        exact absurd ⟨rest, by rw [whole]; rfl⟩ isLine
      · rename_i rest whole
        exact absurd ⟨rest, by rw [whole]; rfl⟩ isNote
      · rfl
    have nameStop : (Span.between start afterName.start).stop = (here.upTo afterName.chars).stop :=
      (congrArg Span.stop (span_upTo (r := here) name)).symm
    have word : slice? document.toList (Span.between start afterName.start).start
        (Span.between start afterName.start).stop = some ((c :: cs).take ((c :: cs).length - afterName.chars.length)) := by
      rw [nameStop]
      exact slice?_of_liesIn (liesIn_upTo h name)
    have ofName : found = match sentinel? ((c :: cs).take ((c :: cs).length - afterName.chars.length)) with
        | some s => ⟨.program s, afterName.chars, afterName.chars⟩
        | none => .ofValue (afterSpaces afterName.chars) := by
      show Remainder.ofName (c :: cs) afterName.chars = _
      cases opens : sentinel? ((c :: cs).take ((c :: cs).length - afterName.chars.length)) <;>
        simp only [Remainder.ofName, noComment, opens]
    rw [if_neg isLine, if_neg isNote, word, Option.bind_some, ofName]
    cases sentinel? ((c :: cs).take ((c :: cs).length - afterName.chars.length)) with
    | some s =>
      have none : Span.between afterName.start afterName.start = ⟨afterName.start, 0⟩ := by simp [Span.between]
      show some _ = some (Extent.mk _ _ (Span.between afterName.start afterName.start))
      rw [none]
    | none =>
      have spaces : skipWhile? document isSpaceByte afterName.start afterName.stop =
          some (afterName.onward (afterSpaces afterName.chars)).start := skipWhile?_region agrees_isSpace lies
      have within := afterSpaces_suffix afterName.chars
      have value := scanValue?_eq (liesIn_onward lies within)
      have kept := (Remainder.ofValue_suffix (afterSpaces afterName.chars)).1
      rw [Region.stop_onward within, stop] at value
      rw [stop] at spaces
      simp only [spaces, value, Option.bind_some, kept]
      rw [onward_onward within]
      show some (Extent.mk _ _ (Span.between ((here.onward _).onward _).start ((here.onward _).onward _).start)) = _
      rw [onward_onward name, onward_onward name]
      rfl

theorem scanStatement?_eq {r : Region} (h : r.LiesIn document.toList) :
    scanStatement? document r.start r.stop = some ((Statement.first? r).map Extent.ofStatement) := by
  have spaces : skipWhile? document isSpaceByte r.start r.stop = some (r.onward (afterSpaces r.chars)).start :=
    skipWhile?_region agrees_isSpace h
  have within := afterSpaces_suffix r.chars
  have lies := liesIn_onward h within
  have stop : (r.onward (afterSpaces r.chars)).stop = r.stop := Region.stop_onward within
  rw [scanStatement?, spaces]
  simp only [Option.bind_eq_bind, Option.bind_some, Option.pure_def]
  cases begins : afterSpaces r.chars with
  | nil =>
    have none : Statement.first? r = none := by
      unfold Statement.first?
      rw [begins]
    rw [if_neg (by simp [Region.onward]), none]
    rfl
  | cons c cs =>
    rw [begins] at lies stop within
    have name : cs.dropWhile isNameChar <:+ c :: cs := (List.dropWhile_suffix _).trans (List.suffix_cons c cs)
    obtain ⟨value, rest⟩ := Remainder.ofName_suffix name
    have bound : (r.onward (c :: cs)).start < r.stop := by
      rw [← stop]
      exact start_lt_stop_iff.mpr (by simp)
    have named : scanNamed? document (r.onward (c :: cs)).start (r.onward (c :: cs)).stop = _ := scanNamed?_eq lies
    rw [if_pos bound, ← stop, named, Option.bind_some, Statement.first?_of_afterSpaces begins, Option.map_some,
      Extent.ofStatement]
    simp only
    rw [span_upTo name, span_upTo rest, onward_onward (value.trans name)]
    rfl

/-- The parts of a statement lie in the document, and the next one is looked for further on. -/
structure LiesIn (s : Statement) (r : Region) (text : List Char) : Prop where
  name : s.name.LiesIn text
  value : s.value.LiesIn text
  rest : s.rest.LiesIn text
  start_lt : r.start < s.rest.start
  stop_eq : s.rest.stop = r.stop
  value_stop : s.value.stop = s.rest.start
  next : (Extent.ofStatement s).stop = s.rest.start

theorem liesIn_first? {text : List Char} {r : Region} {s : Statement} (h : r.LiesIn text)
    (found : Statement.first? r = some s) : LiesIn s r text := by
  obtain ⟨suffix, shorter⟩ := Statement.rest_suffix found
  obtain ⟨c, cs, begins⟩ := Statement.exists_cons_of_first? found
  rw [Statement.first?_of_afterSpaces begins] at found
  obtain rfl := Option.some.inj found
  have within : c :: cs <:+ r.chars := begins ▸ afterSpaces_suffix r.chars
  have name : cs.dropWhile isNameChar <:+ c :: cs := (List.dropWhile_suffix _).trans (List.suffix_cons c cs)
  obtain ⟨value, rest⟩ := Remainder.ofName_suffix name
  have here := liesIn_onward h within
  have onward := onward_onward (r := r) within
  refine ⟨liesIn_upTo here name, liesIn_upTo (liesIn_onward here (value.trans name)) rest,
    liesIn_onward here ((rest.trans value).trans name), ?_, ?_, ?_, ?_⟩
  · show r.start < ((r.onward (c :: cs)).onward _).start
    rw [onward]
    exact start_lt_of_suffix suffix shorter
  · show ((r.onward (c :: cs)).onward _).stop = r.stop
    rw [onward]
    exact Region.stop_onward suffix
  · have valueStop := Region.stop_upTo (r := (r.onward (c :: cs)).onward _) rest
    rwa [onward_onward (value.trans name)] at valueStop
  · have nameStop := Region.stop_upTo (r := r.onward (c :: cs)) name
    have valueStop := Region.stop_upTo (r := (r.onward (c :: cs)).onward _) rest
    rw [onward_onward (value.trans name)] at valueStop
    have order : ((r.onward (c :: cs)).onward (cs.dropWhile isNameChar)).start ≤
        ((r.onward (c :: cs)).onward (Remainder.ofName (c :: cs) (cs.dropWhile isNameChar)).rest).start := by
      have size := byteSize_le_of_suffix (rest.trans value)
      show (r.onward (c :: cs)).stop - _ ≤ (r.onward (c :: cs)).stop - _
      omega
    show max (Region.stop _) (Region.stop _) = _
    rw [nameStop]
    exact (congrArg (max _) valueStop).trans (Nat.max_eq_right order)

end Bytewise
end ShaderText
