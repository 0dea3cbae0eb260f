import Mathlib.Data.Prod.Lex
import ShaderText.Shader.Parse
import ShaderText.Proofs.Alignment
import ShaderText.Proofs.Bytewise.Octets

/-! Positions of byte offsets. A position is found in the bytes in front of the offset: their line feeds give the
line, and the place of the last one gives the column. Main statement: positions come in the order of their offsets,
so that each position of a document, and the position of each error, stands for one offset, which can be read off
the lines of the document.
-/
namespace ShaderText

open Bytewise (code)

namespace Position

/-- Positions in the order of lines, and in a line of columns. -/
def key (p : Position) : Nat ×ₗ Nat := toLex (p.line, p.column)

theorem key_lt_key {p q : Position} : p.key < q.key ↔ p.line < q.line ∨ p.line = q.line ∧ p.column < q.column :=
  Prod.Lex.toLex_lt_toLex

end Position

namespace Octets

def lastBreak? (bytes : List UInt8) : Option Nat :=
  (bytes.reverse.findIdx? (· == code '\n')).map fun i => bytes.length - 1 - i

/-- Where the last line starts: behind the last line feed, or at the front. -/
def lastLineStart (bytes : List UInt8) : Nat := ((lastBreak? bytes).map (· + 1)).getD 0

/-- The position of an offset, or of the end if that comes first. There is no answer if the bytes in front cannot be
cut off, or if their last line starts behind the offset. -/
def position? (bytes : List UInt8) (offset : Nat) : Option Position :=
  let offset := min offset bytes.length
  let front := bytes.take offset
  let start := lastLineStart front
  if offset ≤ bytes.length ∧ start ≤ offset then some ⟨front.count (code '\n') + 1, offset - start + 1⟩ else none

def advance (p : Position) (b : UInt8) : Position :=
  if b = code '\n' then ⟨p.line + 1, 1⟩ else ⟨p.line, p.column + 1⟩

theorem lastLineStart_concat (bytes : List UInt8) (b : UInt8) :
    lastLineStart (bytes ++ [b]) = if b = code '\n' then bytes.length + 1 else lastLineStart bytes := by
  rw [lastLineStart, lastBreak?, List.reverse_concat, List.findIdx?_cons]
  by_cases ends : b = code '\n'
  · simp [ends]
  · simp [ends, lastLineStart, lastBreak?, Function.comp_def, Nat.sub_sub, Nat.add_comm 1]

theorem lastLineStart_le (bytes : List UInt8) : lastLineStart bytes ≤ bytes.length := by
  induction bytes using List.reverseRecOn with
  | nil => exact Nat.le_refl 0
  | append_singleton bytes b ih =>
    rw [lastLineStart_concat, List.length_append, List.length_singleton]
    split
    · exact Nat.le_refl _
    · exact Nat.le_succ_of_le ih

/-- Going byte by byte from the front, the line counts the line feeds and the column the bytes behind the last one. -/
theorem foldl_advance_origin (bytes : List UInt8) :
    bytes.foldl advance .origin = ⟨bytes.count (code '\n') + 1, bytes.length - lastLineStart bytes + 1⟩ := by
  -- the last byte is split off, since it decides where the last line starts
  induction bytes using List.reverseRecOn with
  | nil => rfl
  | append_singleton bytes b ih =>
    rw [List.foldl_append, ih, lastLineStart_concat, List.count_append, List.length_append, List.length_singleton]
    by_cases ends : b = code '\n'
    · simp [advance, ends]
    · have none : [b].count (code '\n') = 0 := List.count_eq_zero.mpr (by simpa using Ne.symm ends)
      rw [List.foldl_cons, List.foldl_nil, advance, if_neg ends, if_neg ends, none, Nat.add_zero,
        Nat.sub_add_comm (lastLineStart_le bytes)]

theorem position?_eq (bytes : List UInt8) (offset : Nat) :
    position? bytes offset = some ((bytes.take offset).foldl advance .origin) := by
  have cut : bytes.take (min offset bytes.length) = bytes.take offset := by
    rw [← List.take_take, List.take_length]
  have within := lastLineStart_le (bytes.take offset)
  rw [List.length_take] at within
  rw [foldl_advance_origin, position?]
  simp only [cut, List.length_take]
  rw [if_pos ⟨Nat.min_le_right _ _, within⟩]

section Advance

variable {bytes : List UInt8} (p : Position)

theorem key_lt_advance (b : UInt8) : p.key < (advance p b).key := by
  rw [Position.key_lt_key, advance]
  split
  · exact .inl (Nat.lt_succ_self _)
  · exact .inr ⟨rfl, Nat.lt_succ_self _⟩

theorem key_lt_foldl_advance (some : bytes ≠ []) : p.key < (bytes.foldl advance p).key := by
  induction bytes using List.reverseRecOn with
  | nil => exact absurd rfl some
  | append_singleton bytes b ih =>
    rw [List.foldl_append]
    have last := key_lt_advance (bytes.foldl advance p) b
    rcases eq_or_ne bytes [] with rfl | more
    · exact last
    · exact (ih more).trans last

theorem foldl_advance_of_not_mem (single : code '\n' ∉ bytes) :
    bytes.foldl advance p = ⟨p.line, p.column + bytes.length⟩ := by
  induction bytes generalizing p with
  | nil => rfl
  | cons b bytes ih =>
    obtain ⟨inside, single⟩ := List.ne_and_not_mem_of_not_mem_cons single
    rw [List.foldl_cons, ih _ single, advance, if_neg (Ne.symm inside), List.length_cons, Nat.add_assoc,
      Nat.add_comm 1]

end Advance

def ofText (text : List Char) : List UInt8 := text.flatMap String.utf8EncodeChar

theorem ofDocument_eq (document : String) : ofDocument document = ofText document.toList := by
  apply List.ext_getElem?
  intro i
  have read := Bytewise.byte?_eq (show document.toList = [] ++ document.toList from rfl) i
  rwa [byteSize_nil, Nat.zero_add, Bytewise.byte?, ← Array.getElem?_toList] at read

theorem ofText_append (front back : List Char) : ofText (front ++ back) = ofText front ++ ofText back :=
  List.flatMap_append

theorem length_ofText (text : List Char) : (ofText text).length = byteSize text := by
  induction text with
  | nil => rfl
  | cons c text ih =>
    rw [ofText, List.flatMap_cons, List.length_append, String.length_utf8EncodeChar, byteSize_cons, ← ih, ofText]

theorem mem_ofText_iff {text : List Char} : code '\n' ∈ ofText text ↔ '\n' ∈ text := by
  rw [ofText, List.mem_flatMap]
  constructor
  · rintro ⟨c, member, inside⟩
    rwa [← (Bytewise.eq_code_iff inside (by decide)).mp rfl]
  · exact fun member => ⟨'\n', member, by decide⟩

theorem foldl_advance_char (p : Position) (c : Char) : (String.utf8EncodeChar c).foldl advance p = p.advance c := by
  by_cases ends : c = '\n'
  · subst ends
    rfl
  · have single : code '\n' ∉ ofText [c] := mt mem_ofText_iff.mp (by simpa using Ne.symm ends)
    rw [ofText, List.flatMap_singleton] at single
    rw [foldl_advance_of_not_mem p single, String.length_utf8EncodeChar, Position.advance, if_neg ends]

end Octets

namespace Position

theorem forward_eq_foldl (p : Position) (n : Nat) (text : List Char) :
    p.forward n text = ((Octets.ofText text).take n).foldl Octets.advance p := by
  induction text generalizing p n with
  | nil => rw [forward, Octets.ofText, List.flatMap_nil, List.take_nil, List.foldl_nil]
  | cons c text ih =>
    have size := String.length_utf8EncodeChar c
    rw [forward, Octets.ofText, List.flatMap_cons, List.take_append, List.foldl_append, size]
    by_cases whole : c.utf8Size ≤ n
    · rw [if_pos whole, List.take_of_length_le (by omega), Octets.foldl_advance_char, ih, Octets.ofText]
    · -- the offset is inside of the character, which is then no line feed
      have single : code '\n' ∉ (String.utf8EncodeChar c).take n := by
        intro member
        obtain rfl := (Bytewise.eq_code_iff (List.mem_of_mem_take member) (by decide)).mp rfl
        obtain rfl : n = 0 := Nat.lt_one_iff.mp (Nat.lt_of_not_le whole)
        simp at member
      rw [if_neg whole, Nat.sub_eq_zero_of_le (by omega), List.take_zero, List.foldl_nil,
        Octets.foldl_advance_of_not_mem p single, List.length_take, size, Nat.min_eq_left (by omega)]

theorem ofOffset_eq_foldl (text : List Char) (n : Nat) :
    ofOffset text n = ((Octets.ofText text).take n).foldl Octets.advance origin :=
  forward_eq_foldl origin n text

theorem key_ofOffset_lt {text : List Char} {a b : Nat} (before : a < b) (within : b ≤ byteSize text) :
    (ofOffset text a).key < (ofOffset text b).key := by
  have split : (Octets.ofText text).take b =
      (Octets.ofText text).take a ++ ((Octets.ofText text).take b).drop a := by
    conv_lhs => rw [← List.take_append_drop a ((Octets.ofText text).take b)]
    rw [List.take_take, Nat.min_eq_left (Nat.le_of_lt before)]
  have some : ((Octets.ofText text).take b).drop a ≠ [] := by
    apply List.ne_nil_of_length_pos
    rw [List.length_drop, List.length_take, Octets.length_ofText]
    omega
  rw [ofOffset_eq_foldl, ofOffset_eq_foldl, split, List.foldl_append]
  exact Octets.key_lt_foldl_advance _ some

theorem ofOffset_of_le {text : List Char} {n : Nat} (past : byteSize text ≤ n) :
    ofOffset text n = ofOffset text (byteSize text) := by
  have size := Octets.length_ofText text
  rw [ofOffset_eq_foldl, ofOffset_eq_foldl, List.take_of_length_le (by omega), List.take_of_length_le (by omega)]

end Position

theorem exists_joinLines_eq {lines : List (List Char)} {k : Nat} {line : List Char} (found : lines[k]? = some line) :
    ∃ rest, joinLines lines = linesText (lines.take k) ++ (line ++ rest) := by
  induction lines generalizing k with
  | nil => simp at found
  | cons first lines ih =>
    cases k with
    | zero =>
      obtain rfl : first = line := by simpa using found
      cases lines with
      | nil => exact ⟨[], by simp [joinLines, linesText]⟩
      | cons second lines => exact ⟨'\n' :: joinLines (second :: lines), rfl⟩
    | succ k =>
      rw [List.getElem?_cons_succ] at found
      obtain ⟨rest, split⟩ := ih found
      refine ⟨rest, ?_⟩
      rw [joinLines, split, List.take_succ_cons, linesText_cons, List.append_assoc, List.cons_append]
      rintro rfl
      simp at found

theorem exists_line_of_le {lines : List (List Char)} (some : lines ≠ []) {n : Nat}
    (within : n ≤ byteSize (joinLines lines)) :
    ∃ k line m, lines[k]? = .some line ∧ m ≤ byteSize line ∧ n = byteSize (linesText (lines.take k)) + m := by
  fun_induction joinLines lines generalizing n with
  | case1 => exact absurd rfl some
  | case2 line => exact ⟨0, line, n, rfl, within, by simp [linesText]⟩
  | case3 line lines nonempty ih =>
    by_cases inside : n ≤ byteSize line
    · exact ⟨0, line, n, rfl, inside, by simp [linesText]⟩
    · -- the place is in the lines behind the first one and its line feed
      have one : ('\n').utf8Size = 1 := rfl
      rw [byteSize_append, byteSize_cons, one] at within
      obtain ⟨k, next, m, found, place, split⟩ := ih nonempty (n := n - (byteSize line + 1)) (by omega)
      refine ⟨k + 1, next, m, found, place, ?_⟩
      rw [List.take_succ_cons, linesText_cons, byteSize_append, byteSize_cons, one]
      omega

def lineStart (text : List Char) (line : Nat) : Nat := byteSize (linesText ((splitLines text).take (line - 1)))

namespace Position

theorem foldl_advance_linesText {lines : List (List Char)} (single : ∀ line ∈ lines, '\n' ∉ line) (n : Nat) :
    (Octets.ofText (linesText lines)).foldl Octets.advance ⟨n, 1⟩ = ⟨n + lines.length, 1⟩ := by
  induction lines generalizing n with
  | nil => rfl
  | cons line lines ih =>
    obtain ⟨first, single⟩ := List.forall_mem_cons.mp single
    have ends (p : Position) : (Octets.ofText ['\n']).foldl Octets.advance p = ⟨p.line + 1, 1⟩ := rfl
    rw [linesText_cons, ← List.singleton_append, Octets.ofText_append, Octets.ofText_append, List.foldl_append,
      List.foldl_append, Octets.foldl_advance_of_not_mem _ (mt Octets.mem_ofText_iff.mp first), ends, ih single,
      List.length_cons, Nat.add_right_comm, Nat.add_assoc]

theorem ofOffset_append_line (front : List Char) {line : List Char} (single : '\n' ∉ line) {m : Nat}
    (within : m ≤ byteSize line) (rest : List Char) :
    ofOffset (front ++ (line ++ rest)) (byteSize front + m) =
      ⟨(ofOffset front (byteSize front)).line, (ofOffset front (byteSize front)).column + m⟩ := by
  have size := Octets.length_ofText line
  have inside : code '\n' ∉ (Octets.ofText line).take m :=
    fun member => single (Octets.mem_ofText_iff.mp (List.mem_of_mem_take member))
  rw [ofOffset_eq_foldl, ofOffset_eq_foldl, Octets.ofText_append, Octets.ofText_append, ← Octets.length_ofText front,
    List.take_length_add_append, List.take_length, List.take_append_of_le_length (by omega), List.foldl_append,
    Octets.foldl_advance_of_not_mem _ inside, List.length_take, Nat.min_eq_left (by omega)]

theorem ofOffset_linesText {lines : List (List Char)} (single : ∀ line ∈ lines, '\n' ∉ line) :
    ofOffset (linesText lines) (byteSize (linesText lines)) = ⟨lines.length + 1, 1⟩ := by
  rw [ofOffset_eq_foldl, ← Octets.length_ofText, List.take_length, origin, foldl_advance_linesText single,
    Nat.add_comm]

theorem ofOffset_place {text line : List Char} {k m : Nat} (found : (splitLines text)[k]? = some line)
    (within : m ≤ byteSize line) :
    lineStart text (k + 1) + m ≤ byteSize text ∧ ofOffset text (lineStart text (k + 1) + m) = ⟨k + 1, m + 1⟩ := by
  obtain ⟨rest, split⟩ := exists_joinLines_eq found
  rw [joinLines_splitLines] at split
  have single : ∀ other ∈ splitLines text, '\n' ∉ other := fun _ => not_mem_of_mem_splitLines
  have count : ((splitLines text).take k).length = k :=
    List.length_take_of_le (Nat.le_of_lt (List.getElem?_eq_some_iff.mp found).1)
  have begins := ofOffset_linesText fun other member => single other (List.mem_of_mem_take (i := k) member)
  have behind := ofOffset_append_line (linesText ((splitLines text).take k))
    (single line (List.mem_of_getElem? found)) within rest
  have start : byteSize (linesText ((splitLines text).take k)) = lineStart text (k + 1) := rfl
  have size := congrArg byteSize split
  rw [byteSize_append, byteSize_append, start] at size
  rw [begins, count, ← split, start, Nat.add_comm 1] at behind
  exact ⟨by omega, behind⟩

theorem exists_place {text : List Char} {n : Nat} (within : n ≤ byteSize text) :
    ∃ k line m, (splitLines text)[k]? = some line ∧ m ≤ byteSize line ∧ n = lineStart text (k + 1) + m := by
  rw [← joinLines_splitLines text] at within
  exact exists_line_of_le (splitLines_ne_nil text) within

/-- The offset of a position, read off the lines of a text. -/
def offset? (text : List Char) : Position → Option Nat
  | ⟨line + 1, column + 1⟩ => do
    let chars ← (splitLines text)[line]?
    if column ≤ byteSize chars then some (lineStart text (line + 1) + column) else none
  | _ => none

theorem offset?_eq_some_iff {text : List Char} {p : Position} {n : Nat} :
    offset? text p = some n ↔ n ≤ byteSize text ∧ ofOffset text n = p := by
  constructor
  · intro found
    unfold offset? at found
    split at found
    · rename_i line column
      obtain ⟨chars, there, found⟩ := Option.bind_eq_some_iff.mp found
      split at found
      · rename_i within
        rw [← Option.some.inj found]
        exact ofOffset_place there within
      · contradiction
    · contradiction
  · rintro ⟨within, rfl⟩
    obtain ⟨k, line, m, there, inside, rfl⟩ := exists_place within
    rw [(ofOffset_place there inside).2, offset?, there, Option.bind_eq_bind, Option.bind_some, if_pos inside]

theorem eq_lineStart_add {text : List Char} {n : Nat} (within : n ≤ byteSize text) :
    1 ≤ (ofOffset text n).column ∧
      n = lineStart text (ofOffset text n).line + ((ofOffset text n).column - 1) := by
  obtain ⟨k, line, m, there, inside, rfl⟩ := exists_place within
  rw [(ofOffset_place there inside).2]
  exact ⟨Nat.le_add_left 1 m, rfl⟩

theorem offset?_ofOffset (text : List Char) (n : Nat) :
    offset? text (ofOffset text n) = some (min n (byteSize text)) := by
  refine offset?_eq_some_iff.mpr ⟨Nat.min_le_right n (byteSize text), ?_⟩
  rcases Nat.le_total n (byteSize text) with within | past
  · rw [Nat.min_eq_left within]
  · rw [Nat.min_eq_right past, ofOffset_of_le past]

theorem existsUnique_offset (text : List Char) (n : Nat) :
    ∃! offset, offset ≤ byteSize text ∧ ofOffset text offset = ofOffset text n := by
  have found := offset?_ofOffset text n
  refine ⟨_, offset?_eq_some_iff.mp found, fun offset place => ?_⟩
  exact Option.some.inj ((offset?_eq_some_iff.mpr place).symm.trans found)

/-- Each position stands for one offset. The position is what the bytes in front of the offset say, and nothing in
finding it fails; positions come in the order of their offsets; the line counts the line feeds in front, and the start
of the line with the columns in front gives the offset back; behind the end there is no new position. So the lines of
the document tell the offset of a fault from its position, and the position of an error stands for one offset. -/
theorem ofOffset_identifies (document : String) :
    let text := document.toList
    let bytes := Octets.ofDocument document
    (∀ offset, Octets.position? bytes offset = some (ofOffset text offset)) ∧
      (∀ a b, a < b → b ≤ bytes.length → (ofOffset text a).key < (ofOffset text b).key) ∧
      (∀ offset ≤ bytes.length, (ofOffset text offset).line = (bytes.take offset).count (code '\n') + 1 ∧
        1 ≤ (ofOffset text offset).column ∧
        offset = lineStart text (ofOffset text offset).line + ((ofOffset text offset).column - 1)) ∧
      (∀ offset, bytes.length ≤ offset → ofOffset text offset = ofOffset text bytes.length) ∧
      (∀ p offset, offset? text p = some offset ↔ offset ≤ bytes.length ∧ ofOffset text offset = p) ∧
      (∀ f : Fault, offset? text (f.locate text).position = some (min f.offset bytes.length)) ∧
      ∀ e, Shader.parse document = .error e →
        ∃! offset, offset ≤ bytes.length ∧ ofOffset text offset = e.position := by
  intro text bytes
  have same : bytes = Octets.ofText text := Octets.ofDocument_eq document
  have size : bytes.length = byteSize text := by rw [same, Octets.length_ofText]
  rw [size]
  refine ⟨fun offset => ?_, fun a b => key_ofOffset_lt, fun offset within => ⟨?_, eq_lineStart_add within⟩,
    fun offset => ofOffset_of_le, fun p offset => offset?_eq_some_iff, fun f => offset?_ofOffset text f.offset, ?_⟩
  · rw [Octets.position?_eq, same, ofOffset_eq_foldl]
  · rw [ofOffset_eq_foldl, ← same, Octets.foldl_advance_origin]
  · intro e wrong
    obtain ⟨f, -, rfl⟩ := Shader.parse_eq_error_iff.mp wrong
    exact existsUnique_offset text f.offset

/-- Inside of a character, on a line feed, on an empty line, behind the end, and at an error at the end. -/
theorem ofOffset_identifies_blankLine :
    let document := "// é\n\nShader\n"
    let text := document.toList
    let bytes := Octets.ofDocument document
    bytes.length = 14 ∧ Octets.position? bytes 4 = some ⟨1, 5⟩ ∧ ofOffset text 5 = ⟨1, 6⟩ ∧ ofOffset text 6 = ⟨2, 1⟩ ∧
      (ofOffset text 5).key < (ofOffset text 6).key ∧ (bytes.take 6).count (code '\n') + 1 = 2 ∧
      lineStart text 2 = 6 ∧ ofOffset text 20 = ofOffset text bytes.length ∧ offset? text ⟨3, 7⟩ = some 13 ∧
      offset? text ⟨2, 2⟩ = none ∧ Shader.parse document = .error ⟨⟨4, 1⟩, .missingBlock "Shader"⟩ ∧
      ∃! offset, offset ≤ bytes.length ∧ ofOffset text offset = ⟨4, 1⟩ := by
  intro document text bytes
  have size : (Octets.ofDocument document).length = 14 := by decide +kernel
  have inside : ofOffset text 4 = ⟨1, 5⟩ := by decide +kernel
  have onBreak : ofOffset text 5 = ⟨1, 6⟩ := by decide +kernel
  have onEmpty : ofOffset text 6 = ⟨2, 1⟩ := by decide +kernel
  have wrong : Shader.parse document = .error ⟨⟨4, 1⟩, .missingBlock "Shader"⟩ := by decide +kernel
  obtain ⟨found, ordered, exact_, past, decodes, -, errors⟩ := ofOffset_identifies document
  obtain ⟨line, -, start⟩ := exact_ 6 (by omega)
  rw [onEmpty] at line start
  refine ⟨size, by rw [found, inside], onBreak, onEmpty, ordered 5 6 (by omega) (by omega), line.symm, start.symm,
    past 20 (by omega), (decodes _ 13).mpr ⟨by omega, by decide +kernel⟩, by decide +kernel, wrong, errors _ wrong⟩

end Position

end ShaderText
