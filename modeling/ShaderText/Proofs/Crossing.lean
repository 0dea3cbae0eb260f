import ShaderText.Code
import ShaderText.Enclosed

/-! Reading a part of a block. `across?` runs the reader of a block over a text that does not close the
outermost block and tells what it is in at the end, so a block can be read piece by piece.
-/
namespace ShaderText

theorem afterQuote?_append {cs rest : List Char} (tail : List Char) (h : afterQuote? cs = some rest) :
    afterQuote? (cs ++ tail) = some (rest ++ tail) := by
  fun_induction afterQuote? cs with
  | case1 => simp at h
  | case2 cs =>
    obtain rfl := Option.some.inj h
    rfl
  | case3 c cs ih => exact ih h
  | case4 c cs notQuote notEscape ih =>
    have step : afterQuote? (c :: (cs ++ tail)) = afterQuote? (cs ++ tail) := by
      cases cs with
      | nil => simp [afterQuote?] at h
      | cons d cs =>
        rw [List.cons_append, afterQuote?]
        · exact notQuote
        · intro e more escape
          exact fun equal => notEscape d cs escape rfl
    rw [List.cons_append, step]
    exact ih h

theorem not_prefix_of_holds {c : Char} {cs : List Char} (h : holds ['*', '/'] (c :: cs) = false) :
    (c = '*' → cs.head? ≠ some '/') ∧ holds ['*', '/'] cs = false := by
  rw [holds, Bool.or_eq_false_iff] at h
  refine ⟨?_, h.2⟩
  rintro rfl head
  cases cs with
  | nil => simp at head
  | cons d cs =>
    obtain rfl : d = '/' := by simpa using head
    simp at h

theorem afterNote_append {inside : List Char} (h : holds ['*', '/'] inside = false) (tail : List Char) :
    afterNote (inside ++ '*' :: '/' :: tail) = tail := by
  induction inside with
  | nil => rfl
  | cons c inside ih =>
    obtain ⟨first, rest⟩ := not_prefix_of_holds h
    rw [List.cons_append, afterNote_cons, ih rest]
    intro star
    cases inside with
    | nil => simp
    | cons d inside => exact first star

/-- What a text leaves open: the number of open blocks and the mode, unless it closes the outermost of
`depth` open blocks. -/
def across? (depth : Nat) (mode : Mode) : List Char → Option (Nat × Mode)
  | [] => some (depth, mode)
  | c :: cs =>
    if mode.isCode && c == '{' then across? (depth + 1) .code cs
    else if mode.isCode && c == '}' then
      if depth ≤ 1 then none else across? (depth - 1) .code cs
    else across? depth (mode.next c) cs

theorem across?_append (depth : Nat) (mode : Mode) (cs tail : List Char) :
    across? depth mode (cs ++ tail) =
      (across? depth mode cs).bind fun left => across? left.1 left.2 tail := by
  fun_induction across? depth mode cs with
  | case1 => rfl
  | case2 depth mode c cs opens ih => simpa [across?, opens] using ih
  | case3 depth mode c cs notOpens closes last => simp [across?, notOpens, closes, last]
  | case4 depth mode c cs notOpens closes inner ih => simpa [across?, notOpens, closes, inner] using ih
  | case5 depth mode c cs notOpens notCloses ih => simpa [across?, notOpens, notCloses] using ih

theorem afterClosing?_append {depth : Nat} {mode : Mode} {cs : List Char} {left : Nat × Mode}
    (tail : List Char) (h : across? depth mode cs = some left) :
    afterClosing? depth mode (cs ++ tail) = afterClosing? left.1 left.2 tail := by
  fun_induction across? depth mode cs with
  | case1 =>
    obtain rfl := Option.some.inj h
    rfl
  | case2 depth mode c cs opens ih => simpa [afterClosing?, opens] using ih h
  | case3 => simp at h
  | case4 depth mode c cs notOpens closes inner ih =>
    simpa [afterClosing?, notOpens, closes, inner] using ih h
  | case5 depth mode c cs notOpens notCloses ih =>
    simpa [afterClosing?, notOpens, notCloses] using ih h

theorem afterClosing?_of_across?_eq_none {depth : Nat} {mode : Mode} {cs : List Char}
    (h : across? depth mode cs = none) :
    ∃ rest, ∀ tail, afterClosing? depth mode (cs ++ tail) = some (rest ++ tail) := by
  fun_induction across? depth mode cs with
  | case1 => simp at h
  | case2 depth mode c cs opens ih => simpa [afterClosing?, opens] using ih h
  | case3 depth mode c cs notOpens closes last =>
    exact ⟨cs, fun tail => by simp [afterClosing?, notOpens, closes, last]⟩
  | case4 depth mode c cs notOpens closes inner ih =>
    simpa [afterClosing?, notOpens, closes, inner] using ih h
  | case5 depth mode c cs notOpens notCloses ih =>
    simpa [afterClosing?, notOpens, notCloses] using ih h

theorem afterClosing?_append_tail {depth : Nat} {mode : Mode} {cs rest : List Char} (tail : List Char)
    (h : afterClosing? depth mode cs = some rest) :
    afterClosing? depth mode (cs ++ tail) = some (rest ++ tail) := by
  cases crossed : across? depth mode cs with
  | some left =>
    have := afterClosing?_append [] crossed
    rw [List.append_nil, h] at this
    simp [afterClosing?] at this
  | none =>
    obtain ⟨rest', closes⟩ := afterClosing?_of_across?_eq_none crossed
    have same := closes []
    rw [List.append_nil, List.append_nil, h] at same
    rw [closes tail, Option.some.inj same]

theorem eq_append_of_afterClosing? {depth : Nat} {mode : Mode} {cs rest : List Char}
    (h : afterClosing? depth mode cs = some rest) : ∃ inside, cs = inside ++ '}' :: rest := by
  fun_induction afterClosing? depth mode cs with
  | case1 => simp at h
  | case3 depth mode c cs notOpens closes last =>
    obtain rfl := Option.some.inj h
    simp only [Bool.and_eq_true, beq_iff_eq] at closes
    exact ⟨[], by rw [closes.2, List.nil_append]⟩
  | case2 depth mode c cs opens ih =>
    obtain ⟨inside, rfl⟩ := ih h
    exact ⟨c :: inside, rfl⟩
  | case4 depth mode c cs notOpens closes inner ih =>
    obtain ⟨inside, rfl⟩ := ih h
    exact ⟨c :: inside, rfl⟩
  | case5 depth mode c cs notOpens notCloses ih =>
    obtain ⟨inside, rfl⟩ := ih h
    exact ⟨c :: inside, rfl⟩

theorem afterBlock?_cons (inside : List Char) :
    afterBlock? ('{' :: inside) = afterClosing? 1 .code inside := by
  simp [afterBlock?, afterClosing?, Mode.isCode]

theorem one_le_of_across? {depth : Nat} {mode : Mode} {cs : List Char} {left : Nat × Mode}
    (positive : 1 ≤ depth) (h : across? depth mode cs = some left) : 1 ≤ left.1 := by
  fun_induction across? depth mode cs with
  | case1 =>
    obtain rfl := Option.some.inj h
    exact positive
  | case2 depth mode c cs opens ih => exact ih (by omega) h
  | case3 => simp at h
  | case4 depth mode c cs notOpens closes inner ih => exact ih (by omega) h
  | case5 depth mode c cs notOpens notCloses ih => exact ih positive h

/-- More open blocks around a text change nothing but the count. -/
theorem across?_add {depth : Nat} {mode : Mode} {cs : List Char} {left : Nat × Mode} (more : Nat)
    (h : across? depth mode cs = some left) :
    across? (depth + more) mode cs = some (left.1 + more, left.2) := by
  fun_induction across? depth mode cs with
  | case1 =>
    obtain rfl := Option.some.inj h
    rfl
  | case2 depth mode c cs opens ih =>
    have := ih h
    rw [Nat.add_right_comm] at this
    simpa [across?, opens] using this
  | case3 => simp at h
  | case4 depth mode c cs notOpens closes inner ih =>
    have shifted := ih h
    have lower : depth + more - 1 = depth - 1 + more := by omega
    have deep : ¬ depth + more ≤ 1 := by omega
    simpa [across?, notOpens, closes, deep, lower] using shifted
  | case5 depth mode c cs notOpens notCloses ih => simpa [across?, notOpens, notCloses] using ih h

/-- Whether a line of a block can start in this mode. A line comment, an escape and a slash or a star
that waits for its second character all end with the line before. -/
def Mode.startsLine : Mode → Bool
  | .code | .note | .string => true
  | _ => false

theorem Mode.startsLine_next_break (mode : Mode) : (mode.next '\n').startsLine := by
  cases mode <;> decide

theorem Mode.next_space {mode : Mode} (h : mode.startsLine) : mode.next ' ' = mode := by
  cases mode <;> simp_all [startsLine, next, opened]

theorem across?_break (depth : Nat) (mode : Mode) :
    across? depth mode ['\n'] = some (depth, mode.next '\n') := by
  simp [across?]

theorem startsLine_of_across?_break {depth : Nat} {mode : Mode} {cs : List Char} {left : Nat × Mode}
    (h : across? depth mode (cs ++ ['\n']) = some left) : left.2.startsLine := by
  rw [across?_append] at h
  obtain ⟨middle, -, last⟩ := Option.bind_eq_some_iff.mp h
  rw [across?_break] at last
  rw [← Option.some.inj last]
  exact Mode.startsLine_next_break middle.2

theorem across?_spaces {mode : Mode} (depth n : Nat) (h : mode.startsLine) (cs : List Char) :
    across? depth mode (List.replicate n ' ' ++ cs) = across? depth mode cs := by
  induction n with
  | zero => rfl
  | succ n ih =>
    rw [List.replicate_succ, List.cons_append, across?]
    simpa [Mode.next_space h] using ih

/-- A text that leaves no block, string or comment open and closes none from outside. -/
def IsNeutral (cs : List Char) : Prop := across? 1 .code cs = some (1, .code)

instance (cs : List Char) : Decidable (IsNeutral cs) := inferInstanceAs (Decidable (_ = _))

theorem IsNeutral.across?_eq {cs : List Char} (h : IsNeutral cs) {depth : Nat} (positive : 1 ≤ depth) :
    across? depth .code cs = some (depth, .code) := by
  have shifted := across?_add (depth - 1) h
  have total : 1 + (depth - 1) = depth := by omega
  rwa [total] at shifted

theorem IsNeutral.append {cs ds : List Char} (h : IsNeutral cs) (h' : IsNeutral ds) :
    IsNeutral (cs ++ ds) := by
  rw [IsNeutral, across?_append, h]
  exact h'

theorem isNeutral_nil : IsNeutral [] := rfl

theorem isNeutral_break : IsNeutral ['\n'] := rfl

theorem IsNeutral.flatMap {α : Type} {items : List α} {text : α → List Char}
    (h : ∀ item ∈ items, IsNeutral (text item)) : IsNeutral (items.flatMap text) := by
  induction items with
  | nil => exact isNeutral_nil
  | cons item items ih =>
    rw [List.flatMap_cons]
    exact (h item List.mem_cons_self).append
      (ih fun other member => h other (List.mem_cons_of_mem _ member))

/-- Whether a character means nothing to the reader of a block outside strings and comments. -/
def isPlain (c : Char) : Bool := !(c == '{' || c == '}' || c == '"' || c == '/')

theorem isNeutral_of_isPlain {cs : List Char} (h : cs.all isPlain) : IsNeutral cs := by
  unfold IsNeutral
  induction cs with
  | nil => rfl
  | cons c cs ih =>
    rw [List.all_cons, Bool.and_eq_true] at h
    obtain ⟨plain, rest⟩ := h
    simp only [isPlain, Bool.not_eq_true', Bool.or_eq_false_iff, beq_eq_false_iff_ne] at plain
    obtain ⟨⟨⟨notOpen, notClose⟩, notQuote⟩, notSlash⟩ := plain
    rw [across?]
    simpa [notOpen, notClose, Mode.next, Mode.opened, notQuote, notSlash] using ih rest

theorem across?_string {depth : Nat} {cs : List Char} (h : afterQuote? cs = some []) :
    across? depth .string cs = some (depth, .code) := by
  fun_induction afterQuote? cs with
  | case1 => simp at h
  | case2 cs =>
    obtain rfl := Option.some.inj h
    simp [across?, Mode.isCode, Mode.next]
  | case3 c cs ih => simpa [across?, Mode.isCode, Mode.next] using ih h
  | case4 c cs notQuote notEscape ih =>
    cases cs with
    | nil => simp [afterQuote?] at h
    | cons d cs =>
      have plain : c ≠ '\\' := fun equal => notEscape d cs equal rfl
      have := ih h
      rw [across?]
      simpa [Mode.isCode, Mode.next, plain, show c ≠ '"' from fun equal => notQuote equal] using this

theorem isNeutral_string {inside : List Char} (h : afterQuote? inside = some []) :
    IsNeutral ('"' :: inside) := by
  rw [IsNeutral, across?]
  simpa [Mode.isCode, Mode.next, Mode.opened] using across?_string h

theorem across?_of_afterClosing? {depth : Nat} {mode : Mode} {cs : List Char} (positive : 1 ≤ depth)
    (h : afterClosing? depth mode cs = some []) : across? (depth + 1) mode cs = some (1, .code) := by
  fun_induction afterClosing? depth mode cs with
  | case1 => simp at h
  | case2 depth mode c cs opens ih => simpa [across?, opens] using ih (by omega) h
  | case3 depth mode c cs notOpens closes last =>
    obtain rfl := Option.some.inj h
    have one : depth = 1 := by omega
    simp [across?, notOpens, closes, one]
  | case4 depth mode c cs notOpens closes inner ih =>
    have again := ih (by omega) h
    rw [show depth - 1 + 1 = depth + 1 - 1 by omega] at again
    simpa [across?, notOpens, closes, show ¬ depth + 1 ≤ 1 by omega] using again
  | case5 depth mode c cs notOpens notCloses ih =>
    simpa [across?, notOpens, notCloses] using ih positive h

theorem isNeutral_block {inside : List Char} (h : afterBlock? ('{' :: inside) = some []) :
    IsNeutral ('{' :: inside) := by
  have closes : afterClosing? 1 .code inside = some [] := by
    simpa [afterBlock?, afterClosing?, Mode.isCode] using h
  have crossed := across?_of_afterClosing? (Nat.le_refl 1) closes
  rw [IsNeutral, across?]
  simpa [Mode.isCode] using crossed

/-- Whether braces put around a text close each other. -/
def Closes (inside : List Char) : Prop := afterBlock? ('{' :: inside ++ ['}']) = some []

instance (inside : List Char) : Decidable (Closes inside) := inferInstanceAs (Decidable (_ = _))

theorem closes_iff {inside : List Char} :
    Closes inside ↔ ∃ mode : Mode, mode.isCode ∧ across? 1 .code inside = some (1, mode) := by
  have open_ : afterBlock? ('{' :: inside ++ ['}']) = afterClosing? 1 .code (inside ++ ['}']) := by
    simp [afterBlock?, afterClosing?, Mode.isCode]
  rw [Closes, open_]
  cases crossed : across? 1 .code inside with
  | none =>
    obtain ⟨rest, closes⟩ := afterClosing?_of_across?_eq_none crossed
    simp [closes]
  | some left =>
    have positive := one_le_of_across? (Nat.le_refl 1) crossed
    rw [afterClosing?_append _ crossed]
    obtain ⟨depth, mode⟩ := left
    cases code : mode.isCode with
    | false => simp [afterClosing?, code]
    | true =>
      by_cases last : depth ≤ 1
      · have one : depth = 1 := by omega
        simp [afterClosing?, code, one]
      · have more : depth ≠ 1 := by omega
        simp [afterClosing?, code, last, more]

theorem afterBlock?_of_closes {inside : List Char} (h : Closes inside) (tail : List Char) :
    afterBlock? ('{' :: inside ++ '}' :: tail) = some tail := by
  have := afterClosing?_append_tail tail h
  simpa [afterBlock?] using this

theorem IsNeutral.closes {cs : List Char} (h : IsNeutral cs) : Closes cs :=
  closes_iff.mpr ⟨.code, rfl, h⟩

theorem Closes.isNeutral {inside : List Char} (h : Closes inside) : IsNeutral ('{' :: inside ++ ['}']) :=
  isNeutral_block h

end ShaderText
