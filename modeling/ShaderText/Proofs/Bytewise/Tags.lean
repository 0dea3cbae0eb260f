import ShaderText.Clause
import ShaderText.Proofs.Bytewise.Statement

/-! Errors and tags by bytes. An error is located by the line feeds in front of it, and tags are slices
of the document between spaces, comments and signs. Main statement: on a region of the document the
reader of bytes finds the tags of the region, or their fault at its line and column.
-/
namespace ShaderText.Bytewise

variable (document : String)

/-- The line and column of `stop`, given the line that holds `pos` and where that line starts. -/
def position? (line lineStart pos stop : Nat) : Option Position :=
  if pos < stop then do
    let b ← byte? document pos
    if b = code '\n' then position? (line + 1) (pos + 1) (pos + 1) stop
    else position? line lineStart (pos + 1) stop
  else some ⟨line, stop - lineStart + 1⟩
termination_by stop - pos

/-- The error for a cause at an offset, or at the end of the document if that comes first. -/
def fail? {α : Type} (offset : Nat) (cause : Cause) : Option (Except ParseError α) := do
  let position ← position? document 1 0 0 (min offset (byteSize document.toList))
  return .error ⟨position, cause⟩

/-- What was read, unless a fault ended the reading. -/
def settle {α : Type} (fault? : Option Fault) (held : α) : Except ParseError α :=
  match fault? with
  | some fault => .error (fault.locate document.toList)
  | none => .ok held

@[simp] theorem mapError_ok {ε ε' α : Type} (f : ε → ε') (found : α) :
    (Except.ok found).mapError f = .ok found := rfl

@[simp] theorem mapError_error {ε ε' α : Type} (f : ε → ε') (fault : ε) :
    (Except.error fault : Except ε α).mapError f = .error (f fault) := rfl

variable {document}

theorem position?_eq {cs : List Char} {line lineStart pos stop : Nat} (h : Spans document.toList pos cs stop)
    (begun : lineStart ≤ pos) :
    position? document line lineStart pos stop =
      some (cs.foldl Position.advance ⟨line, pos - lineStart + 1⟩) := by
  induction cs generalizing line lineStart pos with
  | nil =>
    have here : stop = pos := h.stop_eq
    rw [position?, if_neg (by omega), here]
    rfl
  | cons c cs ih =>
    by_cases ends : c = '\n'
    · subst ends
      obtain ⟨b, member, read⟩ := h.byte?_eq (i := 0) (by decide)
      have stop_eq : stop = pos + 1 + byteSize cs := h.tail.stop_eq
      have isEnd : b = code '\n' := (eq_code_iff member (by decide)).mpr rfl
      have tail : Spans document.toList (pos + 1) cs stop := h.tail
      rw [Nat.add_zero] at read
      rw [position?, if_pos (by omega), read]
      simp only [Option.bind_eq_bind, Option.bind_some, isEnd, if_true]
      rw [ih tail (Nat.le_refl _), Nat.sub_self]
      rfl
    · have step := h.passing (f := fun i => position? document line lineStart i stop)
        (fun i b _ before member read => by
          have inside : b ≠ code '\n' := mt (eq_code_iff member (by decide)).mp ends
          rw [position?, if_pos before, read]
          simp [inside])
      have column : pos + c.utf8Size - lineStart + 1 = pos - lineStart + 1 + c.utf8Size := by omega
      have advance : Position.advance ⟨line, pos - lineStart + 1⟩ c = ⟨line, pos - lineStart + 1 + c.utf8Size⟩ :=
        if_neg ends
      rw [List.foldl_cons, advance, ← column, ← ih h.tail (by omega)]
      exact step

theorem fail?_eq {α : Type} {cs : List Char} {pos stop : Nat} (cause : Cause)
    (h : Spans document.toList pos cs stop) :
    fail? document pos cause = some (.error (Fault.locate ⟨pos, cause⟩ document.toList) : Except ParseError α) := by
  obtain ⟨front, back, split, rfl, -⟩ := h
  have inFront : Spans document.toList 0 front (byteSize front) := ⟨[], cs ++ back, by simpa using split, rfl, by simp⟩
  have within : min (byteSize front) (byteSize document.toList) = byteSize front := by
    rw [split, byteSize_append]
    omega
  rw [fail?, within, position?_eq inFront (Nat.zero_le _), Fault.locate, Position.ofOffset, split,
    Position.forward_byteSize_append]
  rfl

variable (document)

def skipTrivia? (pos stop : Nat) : Option Nat := do
  let start ← skipWhile? document isSpaceByte pos stop
  let rest ← slice? document.toList start stop
  if ['/', '/'] <+: rest then
    let next ← skipLine? document start stop
    if pos < next ∧ next ≤ stop then skipTrivia? next stop else none
  else if ['/', '*'] <+: rest then
    let next ← skipNote? document (start + 2) stop
    if pos < next ∧ next ≤ stop then skipTrivia? next stop else none
  else return start
termination_by stop - pos

def holdsSign? (s : Char) (pos stop : Nat) : Option Bool :=
  if pos < stop then do
    let b ← byte? document pos
    return decide (b = code s)
  else return false

variable {document}

theorem skipTrivia?_step {cs : List Char} {pos stop : Nat} (h : Spans document.toList pos cs stop) :
    skipTrivia? document pos stop =
      match afterComment? (afterSpaces cs) with
      | none => some (stop - byteSize (afterSpaces cs))
      | some rest => skipTrivia? document (stop - byteSize rest) stop := by
  have spaces : skipWhile? document isSpaceByte pos stop = some (stop - byteSize (afterSpaces cs)) :=
    skipWhile?_eq agrees_isSpace h
  have begun := h.onward (afterSpaces_suffix cs)
  rw [skipTrivia?, spaces]
  simp only [Option.bind_eq_bind, Option.bind_some, begun.slice?_eq]
  cases comment : afterComment? (afterSpaces cs) with
  | none =>
    have noComment (second : Char) (sign : second = '/' ∨ second = '*') : ¬['/', second] <+: afterSpaces cs := by
      rintro ⟨rest, whole⟩
      rcases sign with rfl | rfl <;> rw [← whole] at comment <;> simp [afterComment?] at comment
    rw [if_neg (noComment '/' (.inl rfl)), if_neg (noComment '*' (.inr rfl))]
    rfl
  | some rest =>
    obtain ⟨suffix, shorter⟩ := afterComment?_suffix comment
    have onward : pos < stop - byteSize rest ∧ stop - byteSize rest ≤ stop :=
      ⟨h.lt_onward (suffix.trans (afterSpaces_suffix cs))
        (Nat.lt_of_lt_of_le shorter (afterSpaces_suffix cs).length_le), Nat.sub_le _ _⟩
    generalize afterSpaces cs = here at begun comment
    unfold afterComment? at comment
    split at comment
    · obtain rfl := Option.some.inj comment
      have line := skipLine?_eq begun
      rw [if_pos (by simp), line]
      exact if_pos onward
    · rename_i inside
      obtain rfl := Option.some.inj comment
      have second : Spans document.toList (stop - byteSize ('/' :: '*' :: inside) + 2) inside stop := begun.tail.tail
      rw [if_neg (by simp), if_pos (by simp), skipNote?_eq second]
      exact if_pos onward
    · simp at comment

theorem skipTrivia?_eq {cs : List Char} {pos stop : Nat} (h : Spans document.toList pos cs stop) :
    skipTrivia? document pos stop = some (stop - byteSize (afterTrivia cs)) := by
  fun_induction afterTrivia cs generalizing pos with
  | case1 cs plain => rw [skipTrivia?_step h, plain]
  | case2 cs rest comment ih =>
    rw [skipTrivia?_step h, comment]
    exact ih (h.onward ((afterComment?_suffix comment).1.trans (afterSpaces_suffix cs)))

theorem skipTrivia?_region {r : Region} (h : r.LiesIn document.toList) :
    skipTrivia? document r.start r.stop = some r.skipTrivia.start := skipTrivia?_eq h

theorem holdsSign?_eq {s : Char} (ascii : s.toNat ≤ 127) {cs : List Char} {pos stop : Nat}
    (h : Spans document.toList pos cs stop) :
    holdsSign? document s pos stop = some (decide (cs.head? = some s)) := by
  cases cs with
  | nil =>
    have here : stop = pos := h.stop_eq
    rw [holdsSign?, if_neg (by omega)]
    rfl
  | cons c cs =>
    have size := c.utf8Size_pos
    have stop_eq := h.stop_eq
    obtain ⟨b, member, read⟩ := h.byte?_eq size
    rw [byteSize_cons] at stop_eq
    rw [Nat.add_zero] at read
    rw [holdsSign?, if_pos (by omega), read]
    simp [eq_code_iff member ascii]

def isTagByte (b : UInt8) : Bool := !(isSpaceByte b || b == code '=')

theorem agrees_isTagChar : Agrees isTagByte isTagChar := (agrees_isSpace.or (agrees_code (by decide))).not

variable (document)

/-- The key or value that starts at a place, without its quotes, and where it ends. -/
def scanToken? (pos stop : Nat) : Option (Option (List Char × Nat)) := do
  let b ← byte? document pos
  if b = code '"' then
    match ← scanQuoted? document false (pos + 1) stop with
    | none => return none
    | some next => return some (← slice? document.toList (pos + 1) (next - 1), next)
  else
    let next ← skipWhile? document isTagByte pos stop
    if next = pos then return none else return some (← slice? document.toList pos next, next)

def readToken? (pos stop : Nat) : Option (Except ParseError (List Char × Nat)) := do
  if pos < stop then
    match ← scanToken? document pos stop with
    | none => fail? document pos .malformedTags
    | some found => return .ok found
  else fail? document pos .malformedTags

/-- The key, the equals sign and the value that start at a place, and where they end. -/
def readTag? (pos stop : Nat) : Option (Except ParseError ((String × String) × Nat)) := do
  match ← readToken? document pos stop with
  | .error e => return .error e
  | .ok (key, next) =>
    let sign ← skipTrivia? document next stop
    if ← holdsSign? document '=' sign stop then
      let place ← skipTrivia? document (sign + 1) stop
      match ← readToken? document place stop with
      | .error e => return .error e
      | .ok (value, next) => return .ok ((String.ofList key, String.ofList value), next)
    else fail? document sign .malformedTags

/-- Puts the tags between two places to those there are. -/
def readTags? (tags : Tags) (pos stop : Nat) : Option (Except ParseError Tags) := do
  let place ← skipTrivia? document pos stop
  if place < stop then
    match ← readTag? document place stop with
    | .error e => return .error e
    | .ok (pair, next) =>
      if pos < next ∧ next ≤ stop then readTags? (tags.insert pair.1 pair.2) next stop else none
  else return .ok tags
termination_by stop - pos

variable {document}

theorem scanToken?_eq {c : Char} {cs : List Char} {pos stop : Nat} (h : Spans document.toList pos (c :: cs) stop) :
    scanToken? document pos stop =
      some ((tagToken? (c :: cs)).map fun found => (found.1, stop - byteSize found.2)) := by
  obtain ⟨b, member, read⟩ := h.byte?_eq c.utf8Size_pos
  rw [Nat.add_zero] at read
  rw [scanToken?, read]
  simp only [Option.bind_eq_bind, Option.bind_some, eq_code_iff member (show ('"').toNat ≤ 127 by decide)]
  by_cases quote : c = '"'
  · subst quote
    have inside : Spans document.toList (pos + 1) cs stop := h.tail
    rw [if_pos rfl, scanQuoted?_eq inside, Option.bind_some]
    cases closes : afterQuote? cs with
    | none => simp [tagToken?, closes]
    | some rest =>
      -- the quote that closes the token is the last character in front of what is left
      obtain ⟨token, rfl, read⟩ := tagToken?_quote closes
      have slice := inside.split.1.slice?_eq
      have stop_eq := inside.stop_eq
      have quote : ('"').utf8Size = 1 := rfl
      simp only [byteSize_append, byteSize_cons, quote] at stop_eq
      have last : stop - byteSize rest - 1 = pos + 1 + byteSize token := by omega
      simp only [read, Option.map_some, last, slice, Option.bind_some, Option.pure_def]
  · have suffix : (c :: cs).dropWhile isTagChar <:+ c :: cs := List.dropWhile_suffix _
    have slice := (h.takeWhile isTagChar).slice?_eq
    have bare : tagToken? (c :: cs) = if ((c :: cs).dropWhile isTagChar).length < (c :: cs).length then
        some ((c :: cs).takeWhile isTagChar, (c :: cs).dropWhile isTagChar) else none := by
      unfold tagToken?
      split
      · rename_i begins
        exact absurd (List.cons.inj begins).1 quote
      · rfl
    rw [if_neg quote, skipWhile?_eq agrees_isTagChar h, Option.bind_some, bare]
    by_cases shorter : ((c :: cs).dropWhile isTagChar).length < (c :: cs).length
    · have onward := h.lt_onward suffix shorter
      rw [if_pos shorter, if_neg (by omega), slice]
      rfl
    · have whole := suffix.eq_of_length_le (by omega)
      have stays : stop - byteSize ((c :: cs).dropWhile isTagChar) = pos := by
        rw [whole, h.stop_eq, Nat.add_sub_cancel]
      rw [if_neg shorter, if_pos stays]
      rfl

theorem start_onward_of_cons {r : Region} {c : Char} {cs : List Char} (begins : r.chars = c :: cs) :
    (r.onward cs).start = r.start + c.utf8Size := by
  show r.start + byteSize r.chars - byteSize cs = _
  rw [begins, byteSize_cons]
  omega

theorem readToken?_eq {r : Region} (h : r.LiesIn document.toList) :
    readToken? document r.start r.stop =
      some (match tagToken? r.chars with
        | none => .error (Fault.locate ⟨r.start, .malformedTags⟩ document.toList)
        | some found => .ok (found.1, (r.onward found.2).start)) := by
  obtain ⟨start, chars⟩ := r
  cases chars with
  | nil =>
    rw [readToken?, if_neg (by simp [Region.stop]), fail?_eq _ h]
    rfl
  | cons c cs =>
    have bound := (start_lt_stop_iff (r := ⟨start, c :: cs⟩)).mpr (List.cons_ne_nil c cs)
    rw [readToken?, if_pos bound, scanToken?_eq h]
    cases tagToken? (c :: cs) with
    | none => exact fail?_eq _ h
    | some found => rfl

theorem readTag?_eq {r : Region} (h : r.LiesIn document.toList) :
    readTag? document r.start r.stop =
      some ((r.tag.mapError (·.locate document.toList)).map fun found => (found.1, found.2.start)) := by
  rw [readTag?, readToken?_eq h, Region.tag]
  cases readKey : tagToken? r.chars with
  | none => rfl
  | some found =>
    obtain ⟨key, afterKey⟩ := found
    have suffix := (tagToken?_suffix readKey).1
    have trivia := afterTrivia_suffix afterKey
    have lies := liesIn_onward (liesIn_onward h suffix) trivia
    have stop := (Region.stop_onward (r := r.onward afterKey) trivia).trans (Region.stop_onward suffix)
    have skips := skipTrivia?_region (liesIn_onward h suffix)
    change (r.onward afterKey).skipTrivia.LiesIn _ at lies
    change (r.onward afterKey).skipTrivia.stop = _ at stop
    rw [Region.stop_onward suffix] at skips
    simp only [Option.bind_eq_bind, Option.bind_some, skips]
    generalize (r.onward afterKey).skipTrivia = sign at lies stop
    have isSign := holdsSign?_eq (s := '=') (by decide) lies
    rw [stop] at isSign
    rw [isSign, Option.bind_some]
    by_cases equals : sign.chars.head? = some '='
    · obtain ⟨afterSign, begins⟩ := List.head?_eq_some_iff.mp equals
      have inside : afterSign <:+ sign.chars := begins ▸ List.suffix_cons '=' afterSign
      have next : sign.start + 1 = (sign.onward afterSign).start := (start_onward_of_cons begins).symm
      have skips := skipTrivia?_region (liesIn_onward lies inside)
      have lies := liesIn_onward (liesIn_onward lies inside) (afterTrivia_suffix afterSign)
      have valueStop := (Region.stop_onward (r := sign.onward afterSign) (afterTrivia_suffix afterSign)).trans
        (Region.stop_onward inside)
      change (sign.onward afterSign).skipTrivia.LiesIn _ at lies
      change (sign.onward afterSign).skipTrivia.stop = _ at valueStop
      rw [Region.stop_onward inside, stop] at skips
      rw [stop] at valueStop
      have value := readToken?_eq lies
      rw [valueStop] at value
      rw [decide_eq_true equals, if_pos rfl, next, skips, Option.bind_some, value, begins]
      cases readValue : tagToken? (sign.onward afterSign).skipTrivia.chars <;>
        simp [readValue, Except.map]
    · rw [decide_eq_false equals, if_neg (by simp), fail?_eq _ lies]
      split
      · rename_i begins
        rw [begins] at equals
        simp at equals
      · rfl

theorem liesIn_skipTrivia {r : Region} (h : r.LiesIn document.toList) :
    r.skipTrivia.LiesIn document.toList ∧ r.skipTrivia.stop = r.stop :=
  ⟨liesIn_onward h (afterTrivia_suffix r.chars), Region.stop_onward (afterTrivia_suffix r.chars)⟩

theorem eq_onward_of_tag {r rest : Region} {pair : String × String} (h : r.tag = .ok (pair, rest)) :
    rest = r.onward rest.chars := by
  unfold Region.tag at h
  split at h
  · simp at h
  · rename_i key afterKey readKey
    dsimp only at h
    split at h
    · rename_i afterSign begins
      split at h
      · simp at h
      · obtain ⟨-, rfl⟩ := Prod.mk.inj (Except.ok.inj h)
        have key := (tagToken?_suffix readKey).1
        have trivia := (afterTrivia_suffix afterKey).trans key
        have sign : afterSign <:+ r.chars := (List.suffix_cons '=' afterSign).trans (begins ▸ trivia)
        have value := (afterTrivia_suffix afterSign).trans sign
        simp only [Region.skipTrivia, onward_onward key, onward_onward trivia, onward_onward sign,
          onward_onward value, Region.onward_chars]
    · simp at h

theorem liesIn_of_tag {r rest : Region} {pair : String × String} (h : r.LiesIn document.toList)
    (ok : r.skipTrivia.tag = .ok (pair, rest)) :
    rest.LiesIn document.toList ∧ rest.stop = r.stop ∧ r.start < rest.start := by
  obtain ⟨suffix, shorter⟩ := Region.tag_suffix ok
  have trivia := afterTrivia_suffix r.chars
  have inside : rest.chars <:+ r.chars := suffix.trans trivia
  have next : rest = r.onward rest.chars := (eq_onward_of_tag ok).trans (onward_onward trivia rest.chars)
  rw [next]
  exact ⟨liesIn_onward h inside, Region.stop_onward inside,
    start_lt_of_suffix inside (Nat.lt_of_lt_of_le shorter trivia.length_le)⟩

theorem readTags?_step {r : Region} (h : r.LiesIn document.toList) (tags : Tags) :
    readTags? document tags r.start r.stop =
      if r.skipTrivia.chars.isEmpty then some (.ok tags)
      else match r.skipTrivia.tag with
        | .error fault => some (.error (fault.locate document.toList))
        | .ok (pair, rest) => readTags? document (tags.insert pair.1 pair.2) rest.start rest.stop := by
  obtain ⟨lies, stop⟩ := liesIn_skipTrivia h
  have tag := readTag?_eq lies
  have bound : r.skipTrivia.start < r.stop ↔ r.skipTrivia.chars ≠ [] := stop ▸ start_lt_stop_iff
  rw [stop] at tag
  rw [readTags?, skipTrivia?_region h]
  simp only [Option.bind_eq_bind, Option.bind_some, bound, List.isEmpty_iff, tag, ite_not]
  split
  · rfl
  · cases read : r.skipTrivia.tag with
    | error fault => rfl
    | ok found =>
      obtain ⟨pair, rest⟩ := found
      obtain ⟨restLies, restStop, further⟩ := liesIn_of_tag h read
      have within : rest.start ≤ r.stop := restStop ▸ Nat.le_add_right _ _
      simp only [restStop]
      exact if_pos ⟨further, within⟩

theorem readTags?_eq {r : Region} (h : r.LiesIn document.toList) (tags : Tags) :
    readTags? document tags r.start r.stop = some (settle document r.tags.2 (tags.insertAll r.tags.1)) := by
  fun_induction Region.tags r generalizing tags with
  | case1 r place empty => rw [readTags?_step h, if_pos empty]; rfl
  | case2 r place more fault wrong => rw [readTags?_step h, if_neg more, wrong]; rfl
  | case3 r place more pair rest ok pairs fault? read ih =>
    have later := ih (liesIn_of_tag h ok).1 (tags.insert pair.1 pair.2)
    rw [read] at later
    rw [readTags?_step h, if_neg more, ok]
    exact later

end ShaderText.Bytewise
