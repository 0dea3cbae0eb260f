import ShaderText.Enclosed
import ShaderText.Program

/-! Scanning by bytes. The scanners of spaces, comments, strings and blocks are stated here a second
time over the bytes of a document, by index. An answer `none` means that an index is outside of the
document, that a slice does not begin and end between characters, or that a loop does not move on.
Main statements: on a stretch of whole characters every scanner has an answer, and it is the place of
what the scanner of characters leaves.
-/
namespace ShaderText.Bytewise

def byte? (document : String) (i : Nat) : Option UInt8 := document.toUTF8.data[i]?

/-- Whether a byte offset stands between two characters, or at an end. -/
def IsBoundary (text : List Char) (n : Nat) : Prop := byteSize (takeBytes n text) = n

instance (text : List Char) (n : Nat) : Decidable (IsBoundary text n) :=
  inferInstanceAs (Decidable (_ = _))

/-- The characters from byte `start` up to byte `stop`. -/
def slice? (text : List Char) (start stop : Nat) : Option (List Char) :=
  if start ≤ stop ∧ stop ≤ byteSize text ∧ IsBoundary text start ∧ IsBoundary text stop then
    some (takeBytes (stop - start) (dropBytes start text))
  else none

/-- A document holds `cs` from byte `pos` up to byte `stop`. -/
def Spans (text : List Char) (pos : Nat) (cs : List Char) (stop : Nat) : Prop :=
  ∃ front back, text = front ++ (cs ++ back) ∧ pos = byteSize front ∧ stop = pos + byteSize cs

section Spans

variable {text cs rest : List Char} {pos stop : Nat}

theorem spans_whole (text : List Char) : Spans text 0 text (byteSize text) :=
  ⟨[], [], by simp, rfl, by simp⟩

theorem Spans.stop_eq (h : Spans text pos cs stop) : stop = pos + byteSize cs := by
  obtain ⟨_, _, _, _, stop_eq⟩ := h
  exact stop_eq

theorem Spans.split {front back : List Char} (h : Spans text pos (front ++ back) stop) :
    Spans text pos front (pos + byteSize front) ∧ Spans text (pos + byteSize front) back stop := by
  obtain ⟨before, after, rfl, rfl, rfl⟩ := h
  refine ⟨⟨before, back ++ after, by simp, rfl, rfl⟩, ⟨before ++ front, after, by simp, by simp, ?_⟩⟩
  rw [byteSize_append, Nat.add_assoc]

theorem Spans.append {front back : List Char} {middle : Nat} (h : Spans text pos front middle)
    (h' : Spans text middle back stop) : Spans text pos (front ++ back) stop := by
  obtain ⟨before, after, split, rfl, rfl⟩ := h
  obtain ⟨before', after', split', place, rfl⟩ := h'
  -- both texts in front of the middle are the bytes up to there
  have same : before ++ front = before' := by
    have cut := takeBytes_byteSize_append (before ++ front) after
    have cut' := takeBytes_byteSize_append before' (back ++ after')
    rw [byteSize_append, place, List.append_assoc, ← split, split'] at cut
    exact cut.symm.trans cut'
  refine ⟨before, after', ?_, rfl, ?_⟩
  · rw [split', ← same]
    simp
  · rw [byteSize_append, Nat.add_assoc]

theorem Spans.tail {c : Char} (h : Spans text pos (c :: cs) stop) : Spans text (pos + c.utf8Size) cs stop :=
  (show Spans text pos ([c] ++ cs) stop from h).split.2

theorem Spans.onward (h : Spans text pos cs stop) (suffix : rest <:+ cs) :
    Spans text (stop - byteSize rest) rest stop := by
  obtain ⟨front, rfl⟩ := suffix
  have place : stop - byteSize rest = pos + byteSize front := by
    rw [h.stop_eq, byteSize_append]
    omega
  rw [place]
  exact h.split.2

theorem Spans.upTo (h : Spans text pos cs stop) (suffix : rest <:+ cs) :
    Spans text pos (cs.take (cs.length - rest.length)) (stop - byteSize rest) := by
  obtain ⟨front, rfl⟩ := suffix
  have place : stop - byteSize rest = pos + byteSize front := by
    rw [h.stop_eq, byteSize_append]
    omega
  rw [place, List.length_append, Nat.add_sub_cancel, List.take_left]
  exact h.split.1

theorem Spans.takeWhile (h : Spans text pos cs stop) (p : Char → Bool) :
    Spans text pos (cs.takeWhile p) (stop - byteSize (cs.dropWhile p)) := by
  have stop_eq := h.stop_eq
  rw [← List.takeWhile_append_dropWhile (p := p) (l := cs)] at h stop_eq
  have place : stop - byteSize (cs.dropWhile p) = pos + byteSize (cs.takeWhile p) := by
    rw [byteSize_append] at stop_eq
    omega
  rw [place]
  exact h.split.1

theorem isBoundary_byteSize (front back : List Char) : IsBoundary (front ++ back) (byteSize front) := by
  rw [IsBoundary, takeBytes_byteSize_append]

theorem Spans.isBoundary (h : Spans text pos cs stop) : IsBoundary text pos ∧ IsBoundary text stop := by
  obtain ⟨front, back, rfl, rfl, rfl⟩ := h
  refine ⟨isBoundary_byteSize front (cs ++ back), ?_⟩
  have last := isBoundary_byteSize (front ++ cs) back
  rwa [List.append_assoc, byteSize_append] at last

theorem Spans.slice?_eq (h : Spans text pos cs stop) : slice? text pos stop = some cs := by
  obtain ⟨first, last⟩ := h.isBoundary
  obtain ⟨front, back, rfl, rfl, rfl⟩ := h
  rw [slice?, if_pos ⟨Nat.le_add_right _ _, by simp, first, last⟩, Nat.add_sub_cancel_left,
    dropBytes_byteSize_append, takeBytes_byteSize_append]

end Spans

theorem byte?_eq {document : String} {front cs : List Char} (split : document.toList = front ++ cs) (i : Nat) :
    byte? document (byteSize front + i) = (cs.flatMap String.utf8EncodeChar)[i]? := by
  have size (cs : List Char) : (cs.flatMap String.utf8EncodeChar).length = byteSize cs := by
    induction cs with
    | nil => rfl
    | cons c cs ih => simp [ih]
  have bytes : document.toUTF8.data = ((front ++ cs).flatMap String.utf8EncodeChar).toArray := by
    rw [String.toUTF8_eq_toByteArray, ← split, ← String.ofList_toList (s := document),
      String.toByteArray_ofList, String.ofList_toList]
    exact List.data_toByteArray
  rw [byte?, bytes, List.flatMap_append, List.getElem?_toArray, List.getElem?_append_right (by rw [size]; omega),
    size, Nat.add_sub_cancel_left]

theorem Spans.byte?_eq {document : String} {pos stop : Nat} {c : Char} {cs : List Char}
    (h : Spans document.toList pos (c :: cs) stop) {i : Nat} (inside : i < c.utf8Size) :
    ∃ b ∈ String.utf8EncodeChar c, byte? document (pos + i) = some b := by
  obtain ⟨front, back, split, rfl, rfl⟩ := h
  have bound : i < (String.utf8EncodeChar c).length := by rwa [String.length_utf8EncodeChar]
  refine ⟨(String.utf8EncodeChar c)[i], List.getElem_mem bound, ?_⟩
  rw [Bytewise.byte?_eq split, List.cons_append, List.flatMap_cons, List.getElem?_append_left bound,
    List.getElem?_eq_getElem bound]

theorem Spans.exists_byte? {document : String} {pos stop : Nat} {cs : List Char}
    (h : Spans document.toList pos cs stop) {i : Nat} (from_ : pos ≤ i) (before : i < stop) :
    ∃ b, byte? document i = some b := by
  induction cs generalizing pos with
  | nil =>
    have here : stop = pos := h.stop_eq
    omega
  | cons c cs ih =>
    by_cases inside : i < pos + c.utf8Size
    · obtain ⟨b, -, read⟩ := h.byte?_eq (show i - pos < c.utf8Size by omega)
      exact ⟨b, by rwa [Nat.add_sub_cancel' from_] at read⟩
    · exact ih h.tail (by omega)

/-- Whether a class of bytes and a class of characters are the same class. -/
def Agrees (p : UInt8 → Bool) (q : Char → Bool) : Prop := ∀ c, ∀ b ∈ String.utf8EncodeChar c, p b = q c

/-- Only a character of the ASCII range has bytes of that range, and its byte is its number. -/
theorem toNat_of_mem_utf8EncodeChar {c : Char} {b : UInt8} (h : b ∈ String.utf8EncodeChar c) :
    b.toNat = c.toNat ∧ c.toNat ≤ 127 ∨ 128 ≤ b.toNat ∧ 128 ≤ c.toNat := by
  have number : c.val.toNat = c.toNat := rfl
  unfold String.utf8EncodeChar at h
  simp only [number] at h
  split at h
  · rename_i small
    rw [List.mem_singleton.mp h, UInt8.toNat_ofNat']
    omega
  · refine .inr ⟨?_, by omega⟩
    split at h
    · simp only [List.mem_cons, List.not_mem_nil, or_false] at h
      rcases h with rfl | rfl <;> rw [UInt8.toNat_ofNat'] <;> omega
    · split at h
      · simp only [List.mem_cons, List.not_mem_nil, or_false] at h
        rcases h with rfl | rfl | rfl <;> rw [UInt8.toNat_ofNat'] <;> omega
      · simp only [List.mem_cons, List.not_mem_nil, or_false] at h
        rcases h with rfl | rfl | rfl | rfl <;> rw [UInt8.toNat_ofNat'] <;> omega

def code (s : Char) : UInt8 := UInt8.ofNat s.toNat

theorem utf8Size_of_ascii {s : Char} (ascii : s.toNat ≤ 127) : s.utf8Size = 1 :=
  Char.utf8Size_eq_one_iff.mpr (UInt32.le_iff_toNat_le.mpr ascii)

theorem eq_code_iff {c s : Char} {b : UInt8} (member : b ∈ String.utf8EncodeChar c) (ascii : s.toNat ≤ 127) :
    b = code s ↔ c = s := by
  have value : (code s).toNat = s.toNat := by
    rw [code, UInt8.toNat_ofNat']
    omega
  rw [← UInt8.toNat_inj, ← Char.toNat_inj, value]
  rcases toNat_of_mem_utf8EncodeChar member with ⟨same, -⟩ | ⟨high, high'⟩ <;> omega

theorem agrees_code {s : Char} (ascii : s.toNat ≤ 127) : Agrees (· == code s) (· == s) :=
  fun c b member => by rw [Bool.eq_iff_iff, beq_iff_eq, beq_iff_eq, eq_code_iff member ascii]

theorem Agrees.or {p p' : UInt8 → Bool} {q q' : Char → Bool} (h : Agrees p q) (h' : Agrees p' q') :
    Agrees (fun b => p b || p' b) (fun c => q c || q' c) := fun c b member => by
  simp only [h c b member, h' c b member]

theorem Agrees.and {p p' : UInt8 → Bool} {q q' : Char → Bool} (h : Agrees p q) (h' : Agrees p' q') :
    Agrees (fun b => p b && p' b) (fun c => q c && q' c) := fun c b member => by
  simp only [h c b member, h' c b member]

theorem Agrees.not {p : UInt8 → Bool} {q : Char → Bool} (h : Agrees p q) :
    Agrees (fun b => !p b) (fun c => !q c) := fun c b member => by simp only [h c b member]

/-- A loop that takes a step at every byte of a character takes the whole character. -/
theorem Spans.passing {α : Type} {document : String} {pos stop : Nat} {c : Char} {cs : List Char} {f : Nat → α}
    (h : Spans document.toList pos (c :: cs) stop)
    (step : ∀ i b, pos ≤ i ∧ i < pos + c.utf8Size → i < stop → b ∈ String.utf8EncodeChar c →
      byte? document i = some b → f i = f (i + 1)) : f pos = f (pos + c.utf8Size) := by
  have bound : pos + c.utf8Size ≤ stop := by
    rw [h.stop_eq, byteSize_cons]
    omega
  have upTo (n : Nat) (within : n ≤ c.utf8Size) : f pos = f (pos + n) := by
    induction n with
    | zero => rfl
    | succ n ih =>
      obtain ⟨b, member, read⟩ := h.byte?_eq (show n < c.utf8Size from within)
      rw [ih (by omega), step (pos + n) b ⟨by omega, by omega⟩ (by omega) member read, Nat.add_assoc]
  exact upTo c.utf8Size (Nat.le_refl _)

variable (document : String)

/-- Past the bytes of a class. -/
def skipWhile? (p : UInt8 → Bool) (pos stop : Nat) : Option Nat :=
  if pos < stop then do
    let b ← byte? document pos
    if p b then skipWhile? p (pos + 1) stop else some pos
  else some pos
termination_by stop - pos

def isSpaceByte (b : UInt8) : Bool :=
  b == code ' ' || b == code '\n' || b == code '\t' || b == code '\r' || b == code '\x0b' || b == code '\x0c'

theorem agrees_isSpace : Agrees isSpaceByte isSpace :=
  (((((agrees_code (by decide)).or (agrees_code (by decide))).or (agrees_code (by decide))).or
    (agrees_code (by decide))).or (agrees_code (by decide))).or (agrees_code (by decide))

variable {document}

theorem skipWhile?_eq {p : UInt8 → Bool} {q : Char → Bool} (agrees : Agrees p q) {cs : List Char}
    {pos stop : Nat} (h : Spans document.toList pos cs stop) :
    skipWhile? document p pos stop = some (stop - byteSize (cs.dropWhile q)) := by
  induction cs generalizing pos with
  | nil =>
    have here : stop = pos := h.stop_eq
    rw [skipWhile?, if_neg (by omega)]
    simp [here]
  | cons c cs ih =>
    have nonempty := c.utf8Size_pos
    have bound : pos < stop := by
      rw [h.stop_eq, byteSize_cons]
      omega
    by_cases passes : q c
    · have step := h.passing (f := fun i => skipWhile? document p i stop) (fun i b _ before member read => by
        rw [skipWhile?, if_pos before, read]
        simp [agrees c b member, passes])
      rw [List.dropWhile_cons_of_pos passes, ← ih h.tail]
      exact step
    · obtain ⟨b, member, read⟩ := h.byte?_eq nonempty
      rw [Nat.add_zero] at read
      rw [skipWhile?, if_pos bound, read, List.dropWhile_cons_of_neg passes, h.stop_eq]
      simp [agrees c b member, passes]

variable (document)

def skipLine? (pos stop : Nat) : Option Nat :=
  if pos < stop then do
    let b ← byte? document pos
    if b = code '\n' then some (pos + 1) else skipLine? (pos + 1) stop
  else some pos
termination_by stop - pos

def startsWith? (pos stop : Nat) (first second : Char) : Option Bool :=
  if pos + 2 ≤ stop then do
    let a ← byte? document pos
    let b ← byte? document (pos + 1)
    some (decide (a = code first ∧ b = code second))
  else some false

def skipNote? (pos stop : Nat) : Option Nat :=
  if pos < stop then do
    if ← startsWith? document pos stop '*' '/' then some (pos + 2) else skipNote? (pos + 1) stop
  else some stop
termination_by stop - pos

variable {document}

theorem skipLine?_eq {cs : List Char} {pos stop : Nat} (h : Spans document.toList pos cs stop) :
    skipLine? document pos stop = some (stop - byteSize (afterLine cs)) := by
  induction cs generalizing pos with
  | nil =>
    have here : stop = pos := h.stop_eq
    rw [skipLine?, if_neg (by omega)]
    simp [here, afterLine]
  | cons c cs ih =>
    by_cases ends : c = '\n'
    · subst ends
      obtain ⟨b, member, read⟩ := h.byte?_eq (i := 0) (by decide)
      have stop_eq : stop = pos + 1 + byteSize cs := h.tail.stop_eq
      rw [Nat.add_zero] at read
      have isEnd : b = code '\n' := (eq_code_iff member (by decide)).mpr rfl
      rw [skipLine?, if_pos (by omega), read]
      simp [isEnd, afterLine, stop_eq]
    · have step := h.passing (f := fun i => skipLine? document i stop) (fun i b _ before member read => by
        have inside : b ≠ code '\n' := mt (eq_code_iff member (by decide)).mp ends
        rw [skipLine?, if_pos before, read]
        simp [inside])
      rw [afterLine, if_neg ends, ← ih h.tail]
      exact step

theorem startsWith?_of_ne {cs : List Char} {start pos stop : Nat} {first : Char} {b : UInt8} (second : Char)
    (h : Spans document.toList start cs stop) (inside : start ≤ pos) (read : byte? document pos = some b)
    (other : b ≠ code first) : startsWith? document pos stop first second = some false := by
  rw [startsWith?]
  split
  · obtain ⟨next, read'⟩ := h.exists_byte? (i := pos + 1) (by omega) (by omega)
    simp [read, read', other]
  · rfl

theorem startsWith?_eq {cs : List Char} {pos stop : Nat} (h : Spans document.toList pos cs stop)
    {first second : Char} (ascii : first.toNat ≤ 127 ∧ second.toNat ≤ 127) :
    startsWith? document pos stop first second = some (decide ([first, second] <+: cs)) := by
  cases cs with
  | nil =>
    have here : stop = pos := h.stop_eq
    rw [startsWith?, if_neg (by omega)]
    simp
  | cons c cs =>
    obtain ⟨b, member, read⟩ := h.byte?_eq c.utf8Size_pos
    rw [Nat.add_zero] at read
    by_cases begins : c = first
    · subst begins
      have tail := h.tail
      rw [utf8Size_of_ascii ascii.1] at tail
      cases cs with
      | nil =>
        have here : stop = pos + 1 := tail.stop_eq
        rw [startsWith?, if_neg (by omega)]
        simp
      | cons d cs =>
        obtain ⟨b', member', read'⟩ := tail.byte?_eq d.utf8Size_pos
        have size := d.utf8Size_pos
        have stop_eq := tail.stop_eq
        rw [byteSize_cons] at stop_eq
        rw [Nat.add_zero] at read'
        rw [startsWith?, if_pos (by omega)]
        have firstIs : b = code c := (eq_code_iff member ascii.1).mpr rfl
        simp [read, read', firstIs, eq_code_iff member' ascii.2, eq_comm]
    · rw [startsWith?_of_ne second h (Nat.le_refl _) read (mt (eq_code_iff member ascii.1).mp begins)]
      simp [Ne.symm begins]

theorem skipNote?_eq {cs : List Char} {pos stop : Nat} (h : Spans document.toList pos cs stop) :
    skipNote? document pos stop = some (stop - byteSize (afterNote cs)) := by
  induction cs generalizing pos with
  | nil =>
    have here : stop = pos := h.stop_eq
    rw [skipNote?, if_neg (by omega)]
    simp [afterNote]
  | cons c cs ih =>
    have size := c.utf8Size_pos
    have stop_eq := h.stop_eq
    rw [byteSize_cons] at stop_eq
    by_cases star : c = '*'
    · subst star
      have unit : ('*').utf8Size = 1 := rfl
      have starts : startsWith? document pos stop '*' '/' = some (decide (['*', '/'] <+: '*' :: cs)) :=
        startsWith?_eq h ⟨by decide, by decide⟩
      by_cases ends : cs.head? = some '/'
      · obtain ⟨rest, rfl⟩ := List.head?_eq_some_iff.mp ends
        have units : byteSize ('/' :: rest) = 1 + byteSize rest := rfl
        rw [skipNote?, if_pos (by omega), starts]
        simp only [List.cons_prefix_cons, List.nil_prefix, and_self, decide_true, Option.bind_eq_bind,
          Option.bind_some, if_true, afterNote, Option.some.injEq]
        omega
      · have goesOn : ¬['*', '/'] <+: '*' :: cs := by
          intro starts
          obtain ⟨rest, rfl⟩ := (List.cons_prefix_cons.mp starts).2
          exact ends rfl
        rw [skipNote?, if_pos (by omega), starts, afterNote_cons fun _ => ends, ← ih h.tail]
        simp only [goesOn, decide_false, Option.bind_eq_bind, Option.bind_some, Bool.false_eq_true, if_false,
          unit]
    · have step := h.passing (f := fun i => skipNote? document i stop) (fun i b within before member read => by
        have other : b ≠ code '*' := mt (eq_code_iff member (by decide)).mp star
        rw [skipNote?, if_pos before, startsWith?_of_ne '/' h within.1 read other]
        rfl)
      rw [afterNote_cons fun is => absurd is star, ← ih h.tail]
      exact step

variable (document)

def scanQuoted? (escaped : Bool) (pos stop : Nat) : Option (Option Nat) :=
  if pos < stop then do
    let b ← byte? document pos
    if escaped then scanQuoted? false (pos + 1) stop
    else if b = code '\\' then scanQuoted? true (pos + 1) stop
    else if b = code '"' then some (some (pos + 1))
    else scanQuoted? false (pos + 1) stop
  else some none
termination_by stop - pos

/-- Past the brace that closes the outermost of `depth` open blocks. -/
def scanBlock? (depth pos stop : Nat) : Option (Option Nat) :=
  if pos < stop then do
    let b ← byte? document pos
    if b = code '"' then
      match ← scanQuoted? document false (pos + 1) stop with
      | none => some none
      | some next => if pos < next then scanBlock? depth next stop else none
    else if b = code '{' then scanBlock? (depth + 1) (pos + 1) stop
    else if b = code '}' then
      if depth ≤ 1 then some (some (pos + 1)) else scanBlock? (depth - 1) (pos + 1) stop
    else if ← startsWith? document pos stop '/' '/' then
      let next ← skipLine? document pos stop
      if pos < next then scanBlock? depth next stop else none
    else if ← startsWith? document pos stop '/' '*' then
      let next ← skipNote? document (pos + 2) stop
      if pos < next then scanBlock? depth next stop else none
    else scanBlock? depth (pos + 1) stop
  else some none
termination_by stop - pos

variable {document}

/-- An escaped character is passed over whole, though only its first byte is escaped. -/
theorem scanQuoted?_escaped {c : Char} {cs : List Char} {pos stop : Nat}
    (h : Spans document.toList pos (c :: cs) stop) :
    scanQuoted? document true pos stop = scanQuoted? document false (pos + c.utf8Size) stop := by
  have size := c.utf8Size_pos
  have step := h.passing (f := fun i => scanQuoted? document (decide (i = pos)) i stop)
    (fun i b within before member read => by
      have next : decide (i + 1 = pos) = false := by
        rw [decide_eq_false_iff_not]
        omega
      by_cases first : i = pos
      · rw [next, decide_eq_true first, scanQuoted?, if_pos before, read]
        rfl
      · -- a character with a second byte is no sign, and neither is any of its bytes
        have other (s : Char) (ascii : s.toNat ≤ 127) : b ≠ code s := by
          intro equal
          rw [(eq_code_iff member ascii).mp equal, utf8Size_of_ascii ascii] at within
          omega
        rw [next, decide_eq_false first, scanQuoted?, if_pos before, read]
        simp [other '\\' (by decide), other '"' (by decide)])
  have first : decide (pos = pos) = true := by simp
  have last : decide (pos + c.utf8Size = pos) = false := by
    rw [decide_eq_false_iff_not]
    omega
  rwa [first, last] at step

theorem scanQuoted?_eq {cs : List Char} {pos stop : Nat} (h : Spans document.toList pos cs stop) :
    scanQuoted? document false pos stop = some ((afterQuote? cs).map fun rest => stop - byteSize rest) := by
  fun_induction afterQuote? cs generalizing pos with
  | case1 =>
    have here : stop = pos := h.stop_eq
    rw [scanQuoted?, if_neg (by omega)]
    rfl
  | case2 cs =>
    have stop_eq : stop = pos + 1 + byteSize cs := h.tail.stop_eq
    obtain ⟨b, member, read⟩ := h.byte?_eq (i := 0) (by decide)
    have quote : b = code '"' := (eq_code_iff member (by decide)).mpr rfl
    have noEscape : code '"' ≠ code '\\' := by decide
    rw [Nat.add_zero] at read
    rw [scanQuoted?, if_pos (by omega), read]
    simp [quote, noEscape, stop_eq]
  | case3 c cs ih =>
    have stop_eq : stop = pos + 1 + byteSize (c :: cs) := h.tail.stop_eq
    obtain ⟨b, member, read⟩ := h.byte?_eq (i := 0) (by decide)
    have escape : b = code '\\' := (eq_code_iff member (by decide)).mpr rfl
    rw [Nat.add_zero] at read
    rw [← ih h.tail.tail, ← scanQuoted?_escaped h.tail, scanQuoted?, if_pos (by omega), read]
    simp [escape, utf8Size_of_ascii (show ('\\').toNat ≤ 127 by decide)]
  | case4 c cs noQuote noEscape ih =>
    rw [← ih h.tail]
    by_cases escape : c = '\\'
    · cases cs with
      | nil =>
        subst escape
        have stop_eq : stop = pos + 1 := h.tail.stop_eq
        obtain ⟨b, member, read⟩ := h.byte?_eq (i := 0) (by decide)
        have escape : b = code '\\' := (eq_code_iff member (by decide)).mpr rfl
        rw [Nat.add_zero] at read
        have none (escaped : Bool) (place : Nat) (outside : stop ≤ place) :
            scanQuoted? document escaped place stop = some .none := by
          rw [scanQuoted?, if_neg (by omega)]
        have last : stop ≤ pos + ('\\').utf8Size := Nat.le_of_eq h.tail.stop_eq
        rw [none false _ last, scanQuoted?, if_pos (by omega), read]
        simp [escape, none true (pos + 1) (by omega)]
      | cons d cs => exact absurd rfl (noEscape d cs escape)
    · exact h.passing (f := fun i => scanQuoted? document false i stop) fun i b within before member read => by
        have other : b ≠ code '\\' ∧ b ≠ code '"' :=
          ⟨mt (eq_code_iff member (by decide)).mp escape, mt (eq_code_iff member (by decide)).mp noQuote⟩
        rw [scanQuoted?, if_pos before, read]
        simp [other]

theorem afterClosing?_string (depth : Nat) (cs : List Char) :
    afterClosing? depth .string cs = (afterQuote? cs).bind (afterClosing? depth .code) := by
  fun_induction afterQuote? cs with
  | case1 => rfl
  | case2 cs => simp [afterClosing?, Mode.isCode, Mode.next]
  | case3 c cs ih =>
    rw [← ih]
    simp [afterClosing?, Mode.isCode, Mode.next]
  | case4 c cs noQuote noEscape ih =>
    by_cases escape : c = '\\'
    · cases cs with
      | nil => simp [afterClosing?, Mode.isCode, afterQuote?]
      | cons d cs => exact absurd rfl (noEscape d cs escape)
    · have noQuote : c ≠ '"' := noQuote
      rw [← ih, afterClosing?]
      simp [Mode.isCode, Mode.next, noQuote, escape]

theorem afterClosing?_line (depth : Nat) (cs : List Char) :
    afterClosing? depth .line cs = afterClosing? depth .code (afterLine cs) := by
  induction cs with
  | nil => rfl
  | cons c cs ih =>
    rw [afterClosing?, afterLine]
    by_cases ends : c = '\n'
    · simp [Mode.isCode, Mode.next, ends]
    · simp [Mode.isCode, Mode.next, ends, ih]

theorem afterClosing?_star (depth : Nat) {cs : List Char} (open_ : cs.head? ≠ some '/') :
    afterClosing? depth .star cs = afterClosing? depth .note cs := by
  cases cs with
  | nil => rfl
  | cons c cs =>
    have noSlash : c ≠ '/' := fun slash => open_ (slash ▸ rfl)
    rw [afterClosing?, afterClosing?]
    simp [Mode.isCode, Mode.next, noSlash]

theorem afterClosing?_note (depth : Nat) (cs : List Char) :
    afterClosing? depth .note cs = afterClosing? depth .code (afterNote cs) := by
  fun_induction afterNote cs with
  | case1 => rfl
  | case2 cs => simp [afterClosing?, Mode.isCode, Mode.next]
  | case3 c cs inside ih =>
    rw [← ih, afterClosing?]
    by_cases star : c = '*'
    · have open_ : cs.head? ≠ some '/' := by
        intro slash
        obtain ⟨rest, rfl⟩ := List.head?_eq_some_iff.mp slash
        exact inside rest star rfl
      simp [Mode.isCode, Mode.next, star, afterClosing?_star depth open_]
    · simp [Mode.isCode, Mode.next, star]

theorem afterClosing?_slash (depth : Nat) {cs : List Char} (noLine : cs.head? ≠ some '/')
    (noNote : cs.head? ≠ some '*') : afterClosing? depth .slash cs = afterClosing? depth .code cs := by
  cases cs with
  | nil => rfl
  | cons c cs =>
    have noLine : c ≠ '/' := fun slash => noLine (slash ▸ rfl)
    have noNote : c ≠ '*' := fun star => noNote (star ▸ rfl)
    rw [afterClosing?, afterClosing?]
    simp [Mode.isCode, Mode.next, noLine, noNote]

theorem Spans.lt_onward {text cs rest : List Char} {pos stop : Nat} (h : Spans text pos cs stop)
    (suffix : rest <:+ cs) (shorter : rest.length < cs.length) : pos < stop - byteSize rest := by
  obtain ⟨front, rfl⟩ := suffix
  cases front with
  | nil => simp at shorter
  | cons c front =>
    have size := c.utf8Size_pos
    rw [h.stop_eq, byteSize_append, byteSize_cons]
    omega

theorem scanBlock?_cons {c : Char} {cs : List Char} {depth pos stop : Nat}
    (h : Spans document.toList pos (c :: cs) stop) :
    scanBlock? document depth pos stop =
      if c = '"' then
        (scanQuoted? document false (pos + 1) stop).bind fun
          | none => some none
          | some next => if pos < next then scanBlock? document depth next stop else none
      else if c = '{' then scanBlock? document (depth + 1) (pos + 1) stop
      else if c = '}' then
        if depth ≤ 1 then some (some (pos + 1)) else scanBlock? document (depth - 1) (pos + 1) stop
      else (startsWith? document pos stop '/' '/').bind fun line =>
        if line then (skipLine? document pos stop).bind fun next =>
          if pos < next then scanBlock? document depth next stop else none
        else (startsWith? document pos stop '/' '*').bind fun note =>
          if note then (skipNote? document (pos + 2) stop).bind fun next =>
            if pos < next then scanBlock? document depth next stop else none
          else scanBlock? document depth (pos + 1) stop := by
  have bound : pos < stop := by
    have size := c.utf8Size_pos
    rw [h.stop_eq, byteSize_cons]
    omega
  obtain ⟨b, member, read⟩ := h.byte?_eq c.utf8Size_pos
  have quote : b = code '"' ↔ c = '"' := eq_code_iff member (by decide)
  have opens : b = code '{' ↔ c = '{' := eq_code_iff member (by decide)
  have closes : b = code '}' ↔ c = '}' := eq_code_iff member (by decide)
  rw [Nat.add_zero] at read
  rw [scanBlock?, if_pos bound, read]
  simp only [Option.bind_eq_bind, Option.bind_some, quote, opens, closes]

theorem scanBlock?_eq {cs : List Char} {depth pos stop : Nat} (h : Spans document.toList pos cs stop) :
    scanBlock? document depth pos stop =
      some ((afterClosing? depth .code cs).map fun rest => stop - byteSize rest) := by
  match cs, h with
  | [], h =>
    have here : stop = pos := h.stop_eq
    rw [scanBlock?, if_neg (by omega)]
    rfl
  | c :: cs, h =>
    -- what comes after a string or a comment is shorter, and lies further on
    have onward {rest : List Char} (suffix : rest <:+ cs) (depth : Nat) :
        (if pos < stop - byteSize rest then scanBlock? document depth (stop - byteSize rest) stop else none) =
          some ((afterClosing? depth .code rest).map fun rest => stop - byteSize rest) := by
      have shorter := suffix.length_le
      have later := h.onward (suffix.trans (List.suffix_cons c cs))
      rw [if_pos (h.lt_onward (suffix.trans (List.suffix_cons c cs)) (by simp; omega)), scanBlock?_eq later]
    have plain (depth : Nat) (ascii : c.toNat ≤ 127) : scanBlock? document depth (pos + 1) stop =
        some ((afterClosing? depth .code cs).map fun rest => stop - byteSize rest) := by
      have tail := h.tail
      rw [utf8Size_of_ascii ascii] at tail
      exact scanBlock?_eq tail
    by_cases sign : c = '"' ∨ c = '{' ∨ c = '}' ∨ c = '/'
    · rw [scanBlock?_cons h, afterClosing?]
      rcases sign with rfl | rfl | rfl | rfl
      · have tail : Spans document.toList (pos + 1) cs stop := h.tail
        have string : Mode.next .code '"' = .string := rfl
        rw [if_pos rfl, scanQuoted?_eq tail, if_neg (by decide), if_neg (by decide), string,
          afterClosing?_string]
        cases ends : afterQuote? cs with
        | none => rfl
        | some rest => exact onward (afterQuote?_suffix ends).1 depth
      · simpa [Mode.isCode] using plain (depth + 1) (by decide)
      · have stop_eq : stop = pos + 1 + byteSize cs := h.tail.stop_eq
        by_cases last : depth ≤ 1
        · simp [Mode.isCode, last, stop_eq]
        · simpa [Mode.isCode, last] using plain (depth - 1) (by decide)
      · have next : Mode.next .code '/' = .slash := rfl
        rw [if_neg (by decide), if_neg (by decide), if_neg (by decide), if_neg (by decide), if_neg (by decide),
          next, startsWith?_eq h ⟨by decide, by decide⟩, startsWith?_eq h ⟨by decide, by decide⟩,
          Option.bind_some, Option.bind_some]
        by_cases line : cs.head? = some '/'
        · obtain ⟨rest, rfl⟩ := List.head?_eq_some_iff.mp line
          have inside : afterClosing? depth .slash ('/' :: rest) = afterClosing? depth .line rest := rfl
          have comment : afterLine ('/' :: '/' :: rest) = afterLine rest := rfl
          rw [if_pos (by simp), skipLine?_eq h, inside, afterClosing?_line, comment]
          exact onward ((afterLine_suffix rest).trans (List.suffix_cons _ _)) depth
        by_cases note : cs.head? = some '*'
        · obtain ⟨rest, rfl⟩ := List.head?_eq_some_iff.mp note
          have inside : afterClosing? depth .slash ('*' :: rest) = afterClosing? depth .note rest := rfl
          have second : Spans document.toList (pos + 2) rest stop := h.tail.tail
          rw [if_neg (by simp), if_pos (by simp), skipNote?_eq second, inside, afterClosing?_note]
          exact onward ((afterNote_suffix rest).trans (List.suffix_cons _ _)) depth
        · have noComment (second : Char) (other : cs.head? ≠ some second) : ¬['/', second] <+: '/' :: cs := by
            intro starts
            obtain ⟨rest, rfl⟩ := (List.cons_prefix_cons.mp starts).2
            exact other rfl
          rw [if_neg (by simpa using noComment '/' line), if_neg (by simpa using noComment '*' note),
            afterClosing?_slash depth line note]
          exact plain depth (by decide)
    · simp only [not_or] at sign
      obtain ⟨quote, opens, closes, slash⟩ := sign
      have step := h.passing (f := fun i => scanBlock? document depth i stop) (fun i b within before member read => by
        have other (s : Char) (ascii : s.toNat ≤ 127) (apart : c ≠ s) : b ≠ code s :=
          mt (eq_code_iff member ascii).mp apart
        have noSlash (second : Char) := startsWith?_of_ne second h within.1 read (other '/' (by decide) slash)
        rw [scanBlock?, if_pos before, read]
        simp [other '"' (by decide) quote, other '{' (by decide) opens, other '}' (by decide) closes, noSlash])
      have inside : afterClosing? depth .code (c :: cs) = afterClosing? depth .code cs := by
        rw [afterClosing?]
        simp [Mode.isCode, Mode.next, Mode.opened, quote, opens, closes, slash]
      rw [inside, ← scanBlock?_eq h.tail]
      exact step
termination_by cs.length
decreasing_by
  all_goals simp only [List.length_cons]; omega

end ShaderText.Bytewise
