import ShaderText.Proofs.Balanced

/-! Blocks in byte strings. The scanners of strings, comments and blocks are stated here over bytes that need
not be the text of anything; on the bytes of a document they find what the scanners of documents find. Main
statement: a block is found in a byte string exactly where the grammar of blocks has one, whatever stands
behind it, and the blocks inside of it end in front of its end.
-/
namespace ShaderText.Octets

open Bytewise (code)

section Scanners

variable (bytes : List UInt8)

def skipLine (pos stop : Nat) : Nat :=
  if pos < stop then
    if bytes[pos]? = some (code '\n') then pos + 1 else skipLine (pos + 1) stop
  else pos
termination_by stop - pos

def startsWith (pos stop : Nat) (first second : Char) : Bool :=
  decide (pos + 2 ≤ stop ∧ bytes[pos]? = some (code first) ∧ bytes[pos + 1]? = some (code second))

def skipNote (pos stop : Nat) : Nat :=
  if pos < stop then
    if startsWith bytes pos stop '*' '/' then pos + 2 else skipNote (pos + 1) stop
  else stop
termination_by stop - pos

def scanQuoted (escaped : Bool) (pos stop : Nat) : Option Nat :=
  if pos < stop then
    if escaped then scanQuoted false (pos + 1) stop
    else if bytes[pos]? = some (code '\\') then scanQuoted true (pos + 1) stop
    else if bytes[pos]? = some (code '"') then some (pos + 1)
    else scanQuoted false (pos + 1) stop
  else none
termination_by stop - pos

theorem lt_of_scanQuoted {escaped : Bool} {pos stop next : Nat} (h : scanQuoted bytes escaped pos stop = some next) :
    pos < next := by
  fun_induction scanQuoted bytes escaped pos stop with
  | case3 escaped pos => exact (Option.some.inj h) ▸ Nat.lt_succ_self pos
  | case5 => contradiction
  | _ => rename_i ih; exact Nat.lt_of_succ_lt (ih h)

theorem lt_skipLine {pos stop : Nat} (before : pos < stop) : pos < skipLine bytes pos stop := by
  fun_induction skipLine bytes pos stop with
  | case1 pos => exact Nat.lt_succ_self pos
  | case2 pos before inside ih =>
    by_cases more : pos + 1 < stop
    · exact Nat.lt_of_succ_lt (ih more)
    · rw [skipLine, if_neg more]
      exact Nat.lt_succ_self pos
  | case3 pos past => contradiction

theorem le_skipNote {pos stop : Nat} (within : pos ≤ stop) : pos ≤ skipNote bytes pos stop := by
  fun_induction skipNote bytes pos stop with
  | case1 pos => exact Nat.le_add_right pos 2
  | case2 pos before inside ih => exact Nat.le_of_succ_le (ih before)
  | case3 pos past => exact within

/-- Past the brace that closes the outermost of `depth` open blocks. -/
def scanBlock (depth pos stop : Nat) : Option Nat :=
  if before : pos < stop then
    if bytes[pos]? = some (code '"') then
      match _closes : scanQuoted bytes false (pos + 1) stop with
      | none => none
      | some next => scanBlock depth next stop
    else if bytes[pos]? = some (code '{') then scanBlock (depth + 1) (pos + 1) stop
    else if bytes[pos]? = some (code '}') then
      if depth ≤ 1 then some (pos + 1) else scanBlock (depth - 1) (pos + 1) stop
    else if startsWith bytes pos stop '/' '/' then scanBlock depth (skipLine bytes pos stop) stop
    else if opens : startsWith bytes pos stop '/' '*' then scanBlock depth (skipNote bytes (pos + 2) stop) stop
    else scanBlock depth (pos + 1) stop
  else none
termination_by stop - pos
decreasing_by
  all_goals try omega
  · have further := lt_of_scanQuoted bytes ‹_›
    omega
  · have further := lt_skipLine bytes before
    omega
  · have further := le_skipNote bytes (of_decide_eq_true opens).1
    omega

theorem scanBlock_step (depth pos stop : Nat) :
    scanBlock bytes depth pos stop =
      if pos < stop then
        if bytes[pos]? = some (code '"') then
          (scanQuoted bytes false (pos + 1) stop).bind fun next => scanBlock bytes depth next stop
        else if bytes[pos]? = some (code '{') then scanBlock bytes (depth + 1) (pos + 1) stop
        else if bytes[pos]? = some (code '}') then
          if depth ≤ 1 then some (pos + 1) else scanBlock bytes (depth - 1) (pos + 1) stop
        else if startsWith bytes pos stop '/' '/' then scanBlock bytes depth (skipLine bytes pos stop) stop
        else if startsWith bytes pos stop '/' '*' then scanBlock bytes depth (skipNote bytes (pos + 2) stop) stop
        else scanBlock bytes depth (pos + 1) stop
      else none := by
  have string : (match closes : scanQuoted bytes false (pos + 1) stop with
      | none => none
      | some next => scanBlock bytes depth next stop) =
      (scanQuoted bytes false (pos + 1) stop).bind fun next => scanBlock bytes depth next stop := by
    split <;> rename_i closes <;> rw [closes] <;> rfl
  rw [scanBlock, string]
  rfl

/-- The bytes from `pos` up to `stop`, as the characters with the same numbers. -/
def chars (pos stop : Nat) : List Char := ((bytes.take stop).drop pos).map Char.ofUInt8

end Scanners

section Stretch

variable {bytes : List UInt8} {pos stop : Nat}

theorem ofUInt8_eq_iff {b : UInt8} {s : Char} (ascii : s.toNat ≤ 127) : Char.ofUInt8 b = s ↔ b = code s := by
  have number : (Char.ofUInt8 b).toNat = b.toNat := rfl
  have value : (code s).toNat = s.toNat := by
    rw [code, UInt8.toNat_ofNat']
    omega
  rw [← Char.toNat_inj, ← UInt8.toNat_inj, number, value]

theorem chars_step {b : UInt8} (before : pos < stop) (read : bytes[pos]? = some b) :
    chars bytes pos stop = Char.ofUInt8 b :: chars bytes (pos + 1) stop := by
  have taken : (bytes.take stop)[pos]? = some b := by rw [List.getElem?_take, if_pos before, read]
  rw [chars, List.drop_eq_getElem?_toList_append, taken]
  rfl

theorem chars_of_le (h : stop ≤ pos) : chars bytes pos stop = [] := by
  rw [chars, List.drop_eq_nil_of_le, List.map_nil]
  rw [List.length_take]
  omega

theorem length_chars (within : stop ≤ bytes.length) (start : Nat) :
    (chars bytes start stop).length = stop - start := by
  rw [chars, List.length_map, List.length_drop, List.length_take, Nat.min_eq_left within]

theorem chars_append (bytes : List UInt8) {pos middle stop : Nat} (h : pos ≤ middle) (h' : middle ≤ stop) :
    chars bytes pos stop = chars bytes pos middle ++ chars bytes middle stop := by
  have front : (chars bytes pos stop).take (middle - pos) = chars bytes pos middle := by
    rw [chars, chars, ← List.map_take, List.take_drop, List.take_take, Nat.add_sub_cancel' h, Nat.min_eq_left h']
  have back : (chars bytes pos stop).drop (middle - pos) = chars bytes middle stop := by
    rw [chars, chars, ← List.map_drop, List.drop_drop, Nat.add_sub_cancel' h]
  rw [← front, ← back, List.take_append_drop]

theorem chars_of_suffix (within : stop ≤ bytes.length) {rest : List Char} (suffix : rest <:+ chars bytes pos stop) :
    rest = chars bytes (stop - rest.length) stop ∧ (pos ≤ stop → pos ≤ stop - rest.length) := by
  have size := length_chars within pos
  have shorter := suffix.length_le
  by_cases ordered : pos ≤ stop
  · have split := chars_append bytes (show pos ≤ stop - rest.length by omega) (Nat.sub_le stop rest.length)
    obtain ⟨front, whole⟩ := suffix
    rw [← whole] at split
    have same : rest.length = (chars bytes (stop - rest.length) stop).length := by
      rw [length_chars within]
      omega
    exact ⟨(List.append_inj' split same).2, by omega⟩
  · have empty : rest = [] := List.eq_nil_of_length_eq_zero (by omega)
    rw [empty]
    exact ⟨(chars_of_le (Nat.le_refl _)).symm, by omega⟩

theorem of_chars_eq_cons {c : Char} {cs : List Char} (within : stop ≤ bytes.length)
    (h : chars bytes pos stop = c :: cs) :
    pos < stop ∧ chars bytes (pos + 1) stop = cs ∧
      ∀ s : Char, s.toNat ≤ 127 → (bytes[pos]? = some (code s) ↔ c = s) := by
  have before : pos < stop := by
    by_contra past
    rw [chars_of_le (Nat.le_of_not_lt past)] at h
    contradiction
  have read : bytes[pos]? = some bytes[pos] := List.getElem?_eq_getElem (by omega)
  rw [chars_step before read] at h
  obtain ⟨rfl, rfl⟩ := List.cons.inj h
  refine ⟨before, rfl, fun s ascii => ?_⟩
  rw [read, ofUInt8_eq_iff ascii, Option.some.injEq]

theorem le_of_chars_eq_nil (within : stop ≤ bytes.length) (h : chars bytes pos stop = []) : stop ≤ pos := by
  have size := length_chars within pos
  rw [h, List.length_nil] at size
  omega

end Stretch

section Find

variable {bytes : List UInt8} {pos stop : Nat}

theorem skipLine_eq (within : stop ≤ bytes.length) (ordered : pos ≤ stop) :
    skipLine bytes pos stop = stop - (afterLine (chars bytes pos stop)).length := by
  generalize here : chars bytes pos stop = cs
  induction cs generalizing pos with
  | nil =>
    have past := le_of_chars_eq_nil within here
    rw [skipLine, if_neg (by omega), afterLine, List.length_nil]
    omega
  | cons c cs ih =>
    obtain ⟨before, rest, sign⟩ := of_chars_eq_cons within here
    rw [skipLine, if_pos before, afterLine]
    by_cases ends : c = '\n'
    · have size := length_chars within (pos + 1)
      rw [if_pos ((sign '\n' (by decide)).mpr ends), if_pos ends, ← rest, size]
      omega
    · rw [if_neg (mt (sign '\n' (by decide)).mp ends), if_neg ends, ih before rest]

theorem startsWith_eq (within : stop ≤ bytes.length) {first second : Char}
    (ascii : first.toNat ≤ 127 ∧ second.toNat ≤ 127) :
    startsWith bytes pos stop first second = decide ([first, second] <+: chars bytes pos stop) := by
  rw [startsWith, decide_eq_decide]
  cases here : chars bytes pos stop with
  | nil =>
    have past := le_of_chars_eq_nil within here
    simp only [List.prefix_nil, reduceCtorEq, iff_false]
    omega
  | cons c cs =>
    obtain ⟨before, rest, sign⟩ := of_chars_eq_cons within here
    rw [List.cons_prefix_cons, sign first ascii.1]
    cases here' : cs with
    | nil =>
      have past := le_of_chars_eq_nil within (rest.trans here')
      simp only [List.prefix_nil, reduceCtorEq, and_false, iff_false]
      omega
    | cons d ds =>
      obtain ⟨before', -, sign'⟩ := of_chars_eq_cons within (rest.trans here')
      rw [List.cons_prefix_cons, sign' second ascii.2]
      simp only [List.nil_prefix, and_true, eq_comm]
      exact and_iff_right (by omega)

theorem skipNote_eq (within : stop ≤ bytes.length) :
    skipNote bytes pos stop = stop - (afterNote (chars bytes pos stop)).length := by
  generalize here : chars bytes pos stop = cs
  induction cs generalizing pos with
  | nil =>
    have past := le_of_chars_eq_nil within here
    rw [skipNote, if_neg (by omega), afterNote]
    rfl
  | cons c cs ih =>
    obtain ⟨before, rest, -⟩ := of_chars_eq_cons within here
    rw [skipNote, if_pos before, startsWith_eq within ⟨by decide, by decide⟩, here]
    by_cases ends : c = '*' ∧ ∃ after, cs = '/' :: after
    · obtain ⟨rfl, after, rfl⟩ := ends
      obtain ⟨before', rest', -⟩ := of_chars_eq_cons within rest
      have size := length_chars within (pos + 2)
      have left : chars bytes (pos + 2) stop = after := rest'
      have behind : afterNote ('*' :: '/' :: after) = after := rfl
      rw [if_pos (by simp), behind, ← left, size]
      omega
    · have inside : c = '*' → cs.head? ≠ some '/' := by
        intro star slash
        exact ends ⟨star, List.head?_eq_some_iff.mp slash⟩
      have open_ : ¬['*', '/'] <+: c :: cs := by
        rintro ⟨after, whole⟩
        obtain ⟨star, slash⟩ := List.cons.inj whole
        exact ends ⟨star.symm, after, slash.symm⟩
      rw [if_neg (by simpa using open_), afterNote_cons inside, ih rest]

theorem scanQuoted_eq (within : stop ≤ bytes.length) :
    scanQuoted bytes false pos stop = (afterQuote? (chars bytes pos stop)).map fun rest => stop - rest.length := by
  generalize here : chars bytes pos stop = cs
  fun_induction afterQuote? cs generalizing pos with
  | case1 =>
    have past := le_of_chars_eq_nil within here
    rw [scanQuoted, if_neg (by omega)]
    rfl
  | case2 cs =>
    obtain ⟨before, rest, sign⟩ := of_chars_eq_cons within here
    have noEscape : bytes[pos]? ≠ some (code '\\') := mt (sign '\\' (by decide)).mp (by decide)
    have size := length_chars within (pos + 1)
    rw [scanQuoted, if_pos before, if_neg Bool.false_ne_true, if_neg noEscape,
      if_pos ((sign '"' (by decide)).mpr rfl), Option.map_some, ← rest, size, Option.some.injEq]
    omega
  | case3 c cs ih =>
    obtain ⟨before, rest, sign⟩ := of_chars_eq_cons within here
    obtain ⟨before', rest', -⟩ := of_chars_eq_cons within rest
    rw [scanQuoted, if_pos before, if_neg Bool.false_ne_true, if_pos ((sign '\\' (by decide)).mpr rfl),
      scanQuoted, if_pos before', if_pos rfl]
    exact ih rest'
  | case4 c cs noQuote noEscape ih =>
    obtain ⟨before, rest, sign⟩ := of_chars_eq_cons within here
    rw [scanQuoted, if_pos before, if_neg Bool.false_ne_true]
    by_cases escape : c = '\\'
    · cases cs with
      | nil =>
        have past := le_of_chars_eq_nil within rest
        rw [if_pos ((sign '\\' (by decide)).mpr escape), scanQuoted, if_neg (by omega)]
        rfl
      | cons d cs => exact absurd rfl (noEscape d cs escape)
    · rw [if_neg (mt (sign '\\' (by decide)).mp escape), if_neg (mt (sign '"' (by decide)).mp noQuote)]
      exact ih rest

theorem scanBlock_eq (within : stop ≤ bytes.length) {depth pos : Nat} :
    scanBlock bytes depth pos stop =
      (afterClosing? depth .code (chars bytes pos stop)).map fun rest => stop - rest.length := by
  cases here : chars bytes pos stop with
  | nil =>
    have past := le_of_chars_eq_nil within here
    rw [scanBlock_step, if_neg (by omega)]
    rfl
  | cons c cs =>
    obtain ⟨before, rest, sign⟩ := of_chars_eq_cons within here
    have size := length_chars within (pos + 1)
    have apart {s : Char} (other : c ≠ s) (ascii : s.toNat ≤ 127) : bytes[pos]? ≠ some (code s) :=
      mt (sign s ascii).mp other
    have starts (second : Char) (ascii : second.toNat ≤ 127) :
        startsWith bytes pos stop '/' second = decide (['/', second] <+: c :: cs) := by
      rw [startsWith_eq within ⟨by decide, ascii⟩, here]
    -- what comes after a string or a comment lies further on
    have onward {after : List Char} (suffix : after <:+ cs) :
        scanBlock bytes depth (stop - after.length) stop =
          (afterClosing? depth .code after).map fun rest => stop - rest.length := by
      rw [← rest] at suffix
      obtain ⟨whole, later⟩ := chars_of_suffix within suffix
      have further : pos < stop - after.length := later before
      rw [scanBlock_eq within, ← whole]
    have plain (depth : Nat) : scanBlock bytes depth (pos + 1) stop =
        (afterClosing? depth .code cs).map fun rest => stop - rest.length := by
      rw [scanBlock_eq within, rest]
    rw [scanBlock_step, if_pos before]
    cases begins_cons c cs with
    | string cs =>
      have string : afterClosing? depth .code ('"' :: cs) = (afterQuote? cs).bind (afterClosing? depth .code) :=
        Bytewise.afterClosing?_string depth cs
      rw [if_pos ((sign '"' (by decide)).mpr rfl), scanQuoted_eq within, rest, string]
      cases ends : afterQuote? cs with
      | none => rfl
      | some after => exact onward (afterQuote?_suffix ends).1
    | opening cs =>
      rw [if_neg (apart (by decide) (by decide)), if_pos ((sign '{' (by decide)).mpr rfl)]
      exact plain (depth + 1)
    | closing cs =>
      rw [if_neg (apart (by decide) (by decide)), if_neg (apart (by decide) (by decide)),
        if_pos ((sign '}' (by decide)).mpr rfl)]
      by_cases last : depth ≤ 1
      · have ends : afterClosing? depth .code ('}' :: cs) = some cs := by simp [afterClosing?, Mode.isCode, last]
        rw [if_pos last, ends, Option.map_some, ← rest, size, Option.some.injEq]
        omega
      · have inner : afterClosing? depth .code ('}' :: cs) = afterClosing? (depth - 1) .code cs := by
          simp [afterClosing?, Mode.isCode, last]
        rw [if_neg last, inner, plain]
    | line cs =>
      have comment : afterClosing? depth .code ('/' :: '/' :: cs) = afterClosing? depth .code (afterLine cs) :=
        Bytewise.afterClosing?_line depth cs
      have next : skipLine bytes pos stop = stop - (afterLine cs).length := by
        rw [skipLine_eq within (Nat.le_of_lt before), here]
        rfl
      rw [if_neg (apart (by decide) (by decide)), if_neg (apart (by decide) (by decide)),
        if_neg (apart (by decide) (by decide)), if_pos (by simp [starts]), next, comment]
      exact onward ((afterLine_suffix cs).trans (List.suffix_cons _ _))
    | note cs =>
      obtain ⟨-, inside, -⟩ := of_chars_eq_cons within rest
      have comment : afterClosing? depth .code ('/' :: '*' :: cs) = afterClosing? depth .code (afterNote cs) :=
        Bytewise.afterClosing?_note depth cs
      have next : skipNote bytes (pos + 2) stop = stop - (afterNote cs).length := by
        rw [skipNote_eq within, inside]
      rw [if_neg (apart (by decide) (by decide)), if_neg (apart (by decide) (by decide)),
        if_neg (apart (by decide) (by decide)), if_neg (by simp [starts]), if_pos (by simp [starts]), next, comment]
      exact onward ((afterNote_suffix cs).trans (List.suffix_cons _ _))
    | plain other alone =>
      have noComment {second : Char} (next : c = '/' → cs.head? ≠ some second) : ¬['/', second] <+: c :: cs := by
        rintro ⟨more, begins⟩
        obtain ⟨slash, rfl⟩ := List.cons.inj begins
        exact next slash.symm rfl
      have noLine : startsWith bytes pos stop '/' '/' = false := by
        rw [starts _ (by decide)]
        exact decide_eq_false (noComment fun slash => (alone slash).1)
      have noNote : startsWith bytes pos stop '/' '*' = false := by
        rw [starts _ (by decide)]
        exact decide_eq_false (noComment fun slash => (alone slash).2)
      rw [if_neg (apart other.1 (by decide)), if_neg (apart other.2.1 (by decide)),
        if_neg (apart other.2.2 (by decide)), noLine, noNote, if_neg Bool.false_ne_true,
        if_neg Bool.false_ne_true, plain, afterClosing?_plain depth other alone]
termination_by stop - pos

theorem lt_of_isBlock {e : Nat} (isBlock : IsBlock (chars bytes pos e)) : pos < e := by
  by_contra past
  rw [chars_of_le (Nat.le_of_not_lt past)] at isBlock
  obtain ⟨items, -, whole⟩ := isBlock
  contradiction

theorem chars_of_opens (before : pos < stop) (opens : bytes[pos]? = some (code '{')) :
    chars bytes pos stop = '{' :: chars bytes (pos + 1) stop := by
  rw [chars_step before opens, (ofUInt8_eq_iff (by decide)).mpr rfl]

/-- A block is found where the grammar has one. -/
theorem scanBlock_eq_some_iff (opens : bytes[pos]? = some (code '{')) (within : stop ≤ bytes.length) {e : Nat} :
    scanBlock bytes 0 pos stop = some e ↔ pos < e ∧ e ≤ stop ∧ IsBlock (chars bytes pos e) := by
  rw [scanBlock_eq within, Option.map_eq_some_iff]
  constructor
  · rintro ⟨rest, closes, rfl⟩
    obtain ⟨behind, -⟩ := chars_of_suffix within (afterClosing?_suffix closes).1
    have before : pos < stop := by
      by_contra past
      rw [chars_of_le (Nat.le_of_not_lt past)] at closes
      contradiction
    have begins := chars_of_opens before opens
    rw [begins] at closes
    obtain ⟨block, isBlock, whole⟩ := afterBlock?_eq_some_iff.mp closes
    have size := length_chars within pos
    have filled : 0 < block.length := by
      obtain ⟨items, -, rfl⟩ := isBlock
      exact Nat.succ_pos _
    rw [begins, whole, List.length_append] at size
    have split := chars_append bytes (show pos ≤ stop - rest.length by omega) (Nat.sub_le stop rest.length)
    rw [begins, whole, ← behind] at split
    rw [List.append_cancel_right split] at isBlock
    exact ⟨by omega, Nat.sub_le _ _, isBlock⟩
  · rintro ⟨further, inFront, isBlock⟩
    have split := chars_append bytes (Nat.le_of_lt further) inFront
    have size := length_chars within e
    refine ⟨chars bytes e stop, ?_, by rw [size]; omega⟩
    rw [chars_of_opens (Nat.lt_of_lt_of_le further inFront) opens] at split ⊢
    exact afterBlock?_eq_some_iff.mpr ⟨_, isBlock, split⟩

theorem eq_of_isBlock {e e' : Nat} (opens : bytes[pos]? = some (code '{'))
    (within : e ≤ bytes.length ∧ e' ≤ bytes.length) (isBlock : IsBlock (chars bytes pos e))
    (isBlock' : IsBlock (chars bytes pos e')) : e = e' := by
  have found := (scanBlock_eq_some_iff opens (Nat.le_refl _)).mpr ⟨lt_of_isBlock isBlock, within.1, isBlock⟩
  have found' := (scanBlock_eq_some_iff opens (Nat.le_refl _)).mpr ⟨lt_of_isBlock isBlock', within.2, isBlock'⟩
  rw [found] at found'
  exact Option.some.inj found'

theorem scanBlock_of_le {e stop' : Nat} (opens : bytes[pos]? = some (code '{')) (within : stop ≤ bytes.length)
    (found : scanBlock bytes 0 pos stop = some e) (reaches : e ≤ stop') (within' : stop' ≤ bytes.length) :
    scanBlock bytes 0 pos stop' = some e := by
  obtain ⟨further, -, isBlock⟩ := (scanBlock_eq_some_iff opens within).mp found
  exact (scanBlock_eq_some_iff opens within').mpr ⟨further, reaches, isBlock⟩

theorem scanBlock_of_lt {e stop' : Nat} (opens : bytes[pos]? = some (code '{')) (within : stop ≤ bytes.length)
    (found : scanBlock bytes 0 pos stop = some e) (short : stop' < e) : scanBlock bytes 0 pos stop' = none := by
  obtain ⟨-, inFront, isBlock⟩ := (scanBlock_eq_some_iff opens within).mp found
  cases found' : scanBlock bytes 0 pos stop' with
  | none => rfl
  | some e' =>
    have within' : stop' ≤ bytes.length := by omega
    obtain ⟨-, inFront', isBlock'⟩ := (scanBlock_eq_some_iff opens within').mp found'
    have same := eq_of_isBlock opens (show e ≤ bytes.length ∧ e' ≤ bytes.length by omega) isBlock isBlock'
    omega

theorem chars_of_split {front block back : List Char} (within : stop ≤ bytes.length)
    (split : chars bytes pos stop = front ++ (block ++ back)) (filled : block ≠ []) :
    pos + front.length + block.length + back.length = stop ∧
      chars bytes (pos + front.length) (pos + front.length + block.length) = block := by
  have size := length_chars within pos
  have more := List.length_pos_of_ne_nil filled
  simp only [split, List.length_append] at size
  have place : pos + front.length + block.length + back.length = stop := by omega
  refine ⟨place, ?_⟩
  have outer := chars_append bytes (Nat.le_add_right pos front.length) (show _ ≤ stop by omega)
  have inner := chars_append bytes (Nat.le_add_right (pos + front.length) block.length) (show _ ≤ stop by omega)
  rw [split] at outer
  have behind := (List.append_inj outer (by rw [length_chars (by omega)]; omega)).2
  rw [inner] at behind
  exact (List.append_inj behind (by rw [length_chars (by omega)]; omega)).1.symm

/-- Where a block is opened inside of one, a block is found that ends in front of the end of the outer one. -/
theorem exists_scanBlock_of_mem_openings {e : Nat} {items : Items} (within : stop ≤ bytes.length)
    (inFront : e ≤ stop) (well : items.IsWellFormed) (whole : chars bytes pos e = items.braced) {n : Nat}
    (opening : n ∈ items.openings) :
    bytes[pos + 1 + n]? = some (code '{') ∧ ∃ e' < e, scanBlock bytes 0 (pos + 1 + n) stop = some e' := by
  obtain ⟨front, block, back, split, rfl, isBlock⟩ := Items.holdsBlock_of_mem_openings well n opening
  have filled : block ≠ [] := by
    obtain ⟨inner, -, rfl⟩ := isBlock
    exact List.cons_ne_nil _ _
  have around : chars bytes pos e = ('{' :: front) ++ (block ++ (back ++ ['}'])) := by
    rw [whole, Items.braced, split]
    simp
  obtain ⟨place, inside⟩ := chars_of_split (Nat.le_trans inFront within) around filled
  simp only [List.length_cons, List.length_append, List.length_nil] at place inside
  have start : pos + (front.length + 1) = pos + 1 + front.length := by omega
  rw [start] at place inside
  have opens : bytes[pos + 1 + front.length]? = some (code '{') := by
    obtain ⟨inner, -, rfl⟩ := isBlock
    obtain ⟨-, -, sign⟩ := of_chars_eq_cons (by omega) inside
    exact (sign '{' (by decide)).mpr rfl
  refine ⟨opens, _, ?_, (scanBlock_eq_some_iff opens within).mpr ⟨?_, ?_, inside ▸ isBlock⟩⟩
  · omega
  · have more := List.length_pos_of_ne_nil filled
    omega
  · omega

end Find

section Document

variable {document : String} {pos stop : Nat}

def ofDocument (document : String) : List UInt8 := document.toUTF8.data.toList

theorem exists_byte? (before : pos < stop) (within : stop ≤ (ofDocument document).length) :
    ∃ b, Bytewise.byte? document pos = some b ∧ (ofDocument document)[pos]? = some b := by
  have read : (ofDocument document)[pos]? = some (ofDocument document)[pos] := List.getElem?_eq_getElem (by omega)
  refine ⟨_, ?_, read⟩
  rw [← read, Bytewise.byte?, ofDocument, Array.getElem?_toList]

theorem skipLine?_eq (within : stop ≤ (ofDocument document).length) :
    Bytewise.skipLine? document pos stop = some (skipLine (ofDocument document) pos stop) := by
  fun_induction skipLine (ofDocument document) pos stop with
  | case1 pos before ends =>
    obtain ⟨b, read, read'⟩ := exists_byte? before within
    rw [read', Option.some.injEq] at ends
    rw [Bytewise.skipLine?, if_pos before, read]
    simp [ends]
  | case2 pos before inside ih =>
    obtain ⟨b, read, read'⟩ := exists_byte? before within
    rw [read', Option.some.injEq] at inside
    rw [Bytewise.skipLine?, if_pos before, read]
    simp [inside, ih]
  | case3 pos past => rw [Bytewise.skipLine?, if_neg past]

theorem startsWith?_eq (within : stop ≤ (ofDocument document).length) (first second : Char) :
    Bytewise.startsWith? document pos stop first second =
      some (startsWith (ofDocument document) pos stop first second) := by
  rw [Bytewise.startsWith?, startsWith]
  by_cases before : pos + 2 ≤ stop
  · obtain ⟨a, read, read'⟩ := exists_byte? (show pos < stop by omega) within
    obtain ⟨b, next, next'⟩ := exists_byte? (show pos + 1 < stop by omega) within
    rw [if_pos before, read, next, read', next']
    simp [before]
  · simp [before]

theorem skipNote?_eq (within : stop ≤ (ofDocument document).length) :
    Bytewise.skipNote? document pos stop = some (skipNote (ofDocument document) pos stop) := by
  fun_induction skipNote (ofDocument document) pos stop with
  | case1 pos before ends =>
    rw [Bytewise.skipNote?, if_pos before, startsWith?_eq within, ends]
    rfl
  | case2 pos before inside ih =>
    rw [Bytewise.skipNote?, if_pos before, startsWith?_eq within]
    simp [inside, ih]
  | case3 pos past => rw [Bytewise.skipNote?, if_neg past]

theorem scanQuoted?_eq (within : stop ≤ (ofDocument document).length) (escaped : Bool) :
    Bytewise.scanQuoted? document escaped pos stop = some (scanQuoted (ofDocument document) escaped pos stop) := by
  fun_induction scanQuoted (ofDocument document) escaped pos stop with
  | case1 pos before ih =>
    obtain ⟨b, read, -⟩ := exists_byte? before within
    rw [Bytewise.scanQuoted?, if_pos before, read]
    exact ih
  | case2 escaped pos before plain escape ih =>
    obtain ⟨b, read, read'⟩ := exists_byte? before within
    rw [read', Option.some.injEq] at escape
    rw [Bytewise.scanQuoted?, if_pos before, read]
    simp [plain, escape, ih]
  | case3 escaped pos before plain noEscape quote =>
    obtain ⟨b, read, read'⟩ := exists_byte? before within
    rw [read', Option.some.injEq] at noEscape quote
    rw [Bytewise.scanQuoted?, if_pos before, read]
    simp [plain, quote, show code '"' ≠ code '\\' by decide]
  | case4 escaped pos before plain noEscape noQuote ih =>
    obtain ⟨b, read, read'⟩ := exists_byte? before within
    rw [read', Option.some.injEq] at noEscape noQuote
    rw [Bytewise.scanQuoted?, if_pos before, read]
    simp [plain, noEscape, noQuote, ih]
  | case5 escaped pos past => rw [Bytewise.scanQuoted?, if_neg past]

theorem scanBlock?_eq (within : stop ≤ (ofDocument document).length) (depth pos : Nat) :
    Bytewise.scanBlock? document depth pos stop = some (scanBlock (ofDocument document) depth pos stop) := by
  rw [Bytewise.scanBlock?, scanBlock_step]
  by_cases before : pos < stop
  · obtain ⟨b, read, read'⟩ := exists_byte? before within
    have onward (depth : Nat) {next : Nat} (further : pos < next) :
        Bytewise.scanBlock? document depth next stop = some (scanBlock (ofDocument document) depth next stop) :=
      scanBlock?_eq within depth next
    rw [if_pos before, if_pos before, read, read']
    simp only [Option.bind_eq_bind, Option.bind_some, Option.some.injEq, scanQuoted?_eq within,
      startsWith?_eq within, skipLine?_eq within, skipNote?_eq within, onward _ (Nat.lt_succ_self pos)]
    split_ifs with quote opens closes last line further note further
    · cases ends : scanQuoted (ofDocument document) false (pos + 1) stop with
      | none => rfl
      | some next =>
        have further : pos < next := Nat.lt_of_succ_lt (lt_of_scanQuoted _ ends)
        simp only [Option.bind_some]
        rw [if_pos further, onward depth further]
    · rfl
    · rfl
    · rfl
    · exact onward depth further
    · exact absurd (lt_skipLine _ before) further
    · exact onward depth further
    · have within := le_skipNote (ofDocument document) (of_decide_eq_true note).1
      omega
    · rfl
  · rw [if_neg before, if_neg before]
termination_by stop - pos

/-- On the text of a document, the scanner of bytes finds the end that the reader of blocks finds. -/
theorem scanBlock_eq_afterBlock? {cs : List Char} (spans : Bytewise.Spans document.toList pos cs stop)
    (within : stop ≤ (ofDocument document).length) :
    scanBlock (ofDocument document) 0 pos stop = (afterBlock? cs).map fun rest => stop - byteSize rest := by
  have answer := scanBlock?_eq within 0 pos
  rw [Bytewise.scanBlock?_eq spans] at answer
  exact (Option.some.inj answer).symm

end Document

/-- The scanner finds the one block of the grammar that starts with the brace, if that block ends in front of
the bound. Bytes behind the block do not matter, and each block inside of it is found as well, with an end in
front of its own. -/
theorem scanBlock_exact {bytes : List UInt8} {pos stop : Nat} (opens : bytes[pos]? = some (code '{'))
    (within : stop ≤ bytes.length) :
    (∀ e, scanBlock bytes 0 pos stop = some e ↔ pos < e ∧ e ≤ stop ∧ IsBlock (chars bytes pos e)) ∧
      (∀ e e', e ≤ bytes.length → e' ≤ bytes.length →
        IsBlock (chars bytes pos e) → IsBlock (chars bytes pos e') → e = e') ∧
      (∀ e, scanBlock bytes 0 pos stop = some e →
        (∀ stop', e ≤ stop' → stop' ≤ bytes.length → scanBlock bytes 0 pos stop' = some e) ∧
        (∀ stop' < e, scanBlock bytes 0 pos stop' = none) ∧
        ∀ items : Items, items.IsWellFormed → chars bytes pos e = items.braced → ∀ n ∈ items.openings,
          bytes[pos + 1 + n]? = some (code '{') ∧ ∃ e' < e, scanBlock bytes 0 (pos + 1 + n) stop = some e') ∧
      -- the answer is that of the scanner of documents and of the reader of their text
      ∀ document, ofDocument document = bytes →
        Bytewise.scanBlock? document 0 pos stop = some (scanBlock bytes 0 pos stop) ∧
        ∀ cs, Bytewise.Spans document.toList pos cs stop →
          scanBlock bytes 0 pos stop = (afterBlock? cs).map fun rest => stop - byteSize rest := by
  have found {e : Nat} := scanBlock_eq_some_iff opens within (e := e)
  refine ⟨fun e => found, fun e e' inside inside' => eq_of_isBlock opens ⟨inside, inside'⟩,
    fun e ends => ⟨?_, ?_, ?_⟩, ?_⟩
  · exact fun stop' => scanBlock_of_le opens within ends
  · exact fun stop' => scanBlock_of_lt opens within ends
  · intro items well whole n opening
    exact exists_scanBlock_of_mem_openings within (found.mp ends).2.1 well whole opening
  · rintro document rfl
    exact ⟨scanBlock?_eq within 0 pos, fun cs spans => scanBlock_eq_afterBlock? spans within⟩

/-- Braces in a string and in comments, and a byte behind the block that begins no character. -/
theorem scanBlock_exact_string_comments :
    let block := "\x7b\"\x7d\\\"\"//\x7d\n/*/\x7d**/ /\x7ba\x7b\x7d\x7d*\x7d"
    let bytes := 0xC3 :: (block.toList.map code ++ [0xFF, code '}'])
    bytes[1]? = some (code '{') ∧ 29 ≤ bytes.length ∧ scanBlock bytes 0 1 29 = some 27 ∧
      scanBlock bytes 0 1 28 = some 27 ∧ scanBlock bytes 0 1 26 = none ∧
      ∃ e' < 27, scanBlock bytes 0 20 29 = some e' := by
  intro block bytes
  let items : Items := .string ['}', '\\', '"'] (.line ['}'] (.note ['/', '}', '*'] (.plain ' ' (.plain '/'
    (.block (.plain 'a' (.block .nil .nil)) (.plain '*' .nil))))))
  have well : items.IsWellFormed := by
    refine ⟨.plain (by decide) (by decide) (.escaped '"' .nil), ?_⟩
    simp [Items.IsWellFormed, Items.text, holds, List.isPrefixOf]
  have whole : chars bytes 1 27 = items.braced := by decide
  have opens : bytes[1]? = some (code '{') := by decide
  have within : 29 ≤ bytes.length := by decide
  obtain ⟨found, -, exact_, -⟩ := scanBlock_exact opens within
  have ends : scanBlock bytes 0 1 29 = some 27 := (found 27).mpr ⟨by decide, by decide, items, well, whole⟩
  obtain ⟨behind, below, nested⟩ := exact_ 27 ends
  exact ⟨opens, within, ends, behind 28 (by decide) (by decide), below 26 (by decide),
    (nested items well whole 18 (by decide)).2⟩

end ShaderText.Octets
