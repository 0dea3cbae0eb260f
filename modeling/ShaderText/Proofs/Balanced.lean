import ShaderText.Proofs.Alignment
import ShaderText.Proofs.Crossing
import ShaderText.Proofs.Bytewise.Scanning

/-! The grammar of blocks. A block is a brace, items and a closing brace; an item is a block, a string, a
comment or a plain character. Main statements: the reader of blocks passes over exactly the texts of this
grammar, and each brace that opens a block among the items begins a text of the grammar too.
-/
namespace ShaderText

open Bytewise

/-- What can stand between quotes. A backslash escapes the character behind it. -/
inductive IsQuotable : List Char → Prop
  | nil : IsQuotable []
  | escaped (c : Char) {cs : List Char} (rest : IsQuotable cs) : IsQuotable ('\\' :: c :: cs)
  | plain {c : Char} {cs : List Char} (quote : c ≠ '"') (escape : c ≠ '\\') (rest : IsQuotable cs) :
      IsQuotable (c :: cs)

/-- The items of a block, one after another. -/
inductive Items
  | nil
  | block (inner rest : Items)
  | string (body : List Char) (rest : Items)
  | line (body : List Char) (rest : Items)
  | note (body : List Char) (rest : Items)
  | plain (c : Char) (rest : Items)

namespace Items

def text : Items → List Char
  | nil => []
  | block inner rest => '{' :: (inner.text ++ '}' :: rest.text)
  | string body rest => '"' :: (body ++ '"' :: rest.text)
  | line body rest => '/' :: '/' :: (body ++ '\n' :: rest.text)
  | note body rest => '/' :: '*' :: (body ++ '*' :: '/' :: rest.text)
  | plain c rest => c :: rest.text

def braced (items : Items) : List Char := '{' :: (items.text ++ ['}'])

/-- Whether every item ends where its kind says, and no plain character begins an item of another kind. -/
def IsWellFormed : Items → Prop
  | nil => True
  | block inner rest => inner.IsWellFormed ∧ rest.IsWellFormed
  | string body rest => IsQuotable body ∧ rest.IsWellFormed
  | line body rest => '\n' ∉ body ∧ rest.IsWellFormed
  | note body rest => holds ['*', '/'] body = false ∧ rest.IsWellFormed
  | plain c rest =>
    (c ≠ '"' ∧ c ≠ '{' ∧ c ≠ '}') ∧
      (c = '/' → rest.text.head? ≠ some '/' ∧ rest.text.head? ≠ some '*') ∧ rest.IsWellFormed

/-- Where the braces stand that open a block, in the text of the items. -/
def openings : Items → List Nat
  | nil => []
  | block inner rest =>
    0 :: (inner.openings.map (· + 1) ++ rest.openings.map (· + (inner.text.length + 2)))
  | string body rest => rest.openings.map (· + (body.length + 2))
  | line body rest => rest.openings.map (· + (body.length + 3))
  | note body rest => rest.openings.map (· + (body.length + 4))
  | plain _ rest => rest.openings.map (· + 1)

end Items

def IsBlock (text : List Char) : Prop := ∃ items : Items, items.IsWellFormed ∧ text = items.braced

theorem IsQuotable.afterQuote?_eq {body : List Char} (h : IsQuotable body) (rest : List Char) :
    afterQuote? (body ++ '"' :: rest) = some rest := by
  induction h with
  | nil => rfl
  | escaped c _ ih => exact ih
  | plain quote escape _ ih =>
    rw [List.cons_append, afterQuote?]
    · exact ih
    · exact quote
    · intro c cs equal
      exact absurd equal escape

section Inside

variable {depth : Nat} {cs rest : List Char}

theorem exists_quotable_of_afterClosing? (h : afterClosing? depth .string cs = some rest) :
    ∃ body after, IsQuotable body ∧ cs = body ++ '"' :: after ∧ afterClosing? depth .code after = some rest := by
  rw [afterClosing?_string] at h
  fun_induction afterQuote? cs with
  | case1 => contradiction
  | case2 cs => exact ⟨[], cs, .nil, rfl, h⟩
  | case3 c cs ih =>
    obtain ⟨body, after, quotable, rfl, more⟩ := ih h
    exact ⟨'\\' :: c :: body, after, quotable.escaped c, rfl, more⟩
  | case4 c cs quote noEscape ih =>
    obtain ⟨body, after, quotable, rfl, more⟩ := ih h
    refine ⟨c :: body, after, .plain quote ?_ quotable, rfl, more⟩
    rintro rfl
    cases body with
    | nil => exact noEscape _ _ rfl rfl
    | cons d body => exact noEscape _ _ rfl rfl

theorem exists_line_of_afterClosing? (h : afterClosing? depth .line cs = some rest) :
    ∃ body after, '\n' ∉ body ∧ cs = body ++ '\n' :: after ∧ afterClosing? depth .code after = some rest := by
  rw [afterClosing?_line] at h
  induction cs with
  | nil => contradiction
  | cons c cs ih =>
    rw [afterLine] at h
    by_cases ends : c = '\n'
    · rw [if_pos ends] at h
      exact ⟨[], cs, List.not_mem_nil, by rw [ends, List.nil_append], h⟩
    · rw [if_neg ends] at h
      obtain ⟨body, after, single, rfl, more⟩ := ih h
      refine ⟨c :: body, after, ?_, rfl, more⟩
      rw [List.mem_cons, not_or]
      exact ⟨Ne.symm ends, single⟩

theorem exists_note_of_afterClosing? (h : afterClosing? depth .note cs = some rest) :
    ∃ body after, holds ['*', '/'] body = false ∧ cs = body ++ '*' :: '/' :: after ∧
      afterClosing? depth .code after = some rest := by
  rw [afterClosing?_note] at h
  fun_induction afterNote cs with
  | case1 => contradiction
  | case2 cs => exact ⟨[], cs, rfl, rfl, h⟩
  | case3 c cs inside ih =>
    obtain ⟨body, after, single, rfl, more⟩ := ih h
    refine ⟨c :: body, after, ?_, rfl, more⟩
    rw [holds, single, Bool.or_false, Bool.eq_false_iff]
    intro begins
    obtain ⟨tail, whole⟩ := List.isPrefixOf_iff_prefix.mp begins
    obtain ⟨rfl, rfl⟩ := List.cons.inj whole
    exact inside _ rfl rfl

end Inside

/-- What a text begins with: a string, a brace, a comment or a character for itself. -/
inductive Begins : List Char → Prop
  | string (cs : List Char) : Begins ('"' :: cs)
  | opening (cs : List Char) : Begins ('{' :: cs)
  | closing (cs : List Char) : Begins ('}' :: cs)
  | line (cs : List Char) : Begins ('/' :: '/' :: cs)
  | note (cs : List Char) : Begins ('/' :: '*' :: cs)
  | plain {c : Char} {cs : List Char} (sign : c ≠ '"' ∧ c ≠ '{' ∧ c ≠ '}')
      (alone : c = '/' → cs.head? ≠ some '/' ∧ cs.head? ≠ some '*') : Begins (c :: cs)

theorem begins_cons (c : Char) (cs : List Char) : Begins (c :: cs) := by
  by_cases quote : c = '"'
  · exact quote ▸ .string cs
  by_cases opens : c = '{'
  · exact opens ▸ .opening cs
  by_cases closes : c = '}'
  · exact closes ▸ .closing cs
  by_cases line : c = '/' ∧ cs.head? = some '/'
  · obtain ⟨rfl, second⟩ := line
    obtain ⟨cs, rfl⟩ := List.head?_eq_some_iff.mp second
    exact .line cs
  by_cases note : c = '/' ∧ cs.head? = some '*'
  · obtain ⟨rfl, second⟩ := note
    obtain ⟨cs, rfl⟩ := List.head?_eq_some_iff.mp second
    exact .note cs
  · exact .plain ⟨quote, opens, closes⟩ fun slash =>
      ⟨fun second => line ⟨slash, second⟩, fun second => note ⟨slash, second⟩⟩

theorem afterClosing?_plain {c : Char} {cs : List Char} (depth : Nat) (sign : c ≠ '"' ∧ c ≠ '{' ∧ c ≠ '}')
    (alone : c = '/' → cs.head? ≠ some '/' ∧ cs.head? ≠ some '*') :
    afterClosing? depth .code (c :: cs) = afterClosing? depth .code cs := by
  by_cases slash : c = '/'
  · rw [slash]
    exact afterClosing?_slash depth (alone slash).1 (alone slash).2
  · rw [afterClosing?]
    simp [Mode.isCode, Mode.next, Mode.opened, sign, slash]

theorem Items.IsWellFormed.afterClosing?_eq {items : Items} (h : items.IsWellFormed) (depth : Nat)
    (behind : List Char) :
    afterClosing? (depth + 1) .code (items.text ++ '}' :: behind) =
      afterClosing? (depth + 1) .code ('}' :: behind) := by
  induction items generalizing depth behind with
  | nil => rfl
  | block inner rest ihInner ihRest =>
    have opens : afterClosing? (depth + 1) .code ((block inner rest).text ++ '}' :: behind) =
        afterClosing? (depth + 2) .code (inner.text ++ '}' :: (rest.text ++ '}' :: behind)) := by
      simp [text, afterClosing?, Mode.isCode]
    have closes : afterClosing? (depth + 2) .code ('}' :: (rest.text ++ '}' :: behind)) =
        afterClosing? (depth + 1) .code (rest.text ++ '}' :: behind) := rfl
    rw [opens, ihInner h.1, closes, ihRest h.2]
  | string body rest ih =>
    have opens : afterClosing? (depth + 1) .code ((string body rest).text ++ '}' :: behind) =
        afterClosing? (depth + 1) .string (body ++ '"' :: (rest.text ++ '}' :: behind)) := by
      simp [text, afterClosing?, Mode.isCode, Mode.next, Mode.opened]
    rw [opens, afterClosing?_string, h.1.afterQuote?_eq, Option.bind_some, ih h.2]
  | line body rest ih =>
    have opens : afterClosing? (depth + 1) .code ((line body rest).text ++ '}' :: behind) =
        afterClosing? (depth + 1) .line (body ++ '\n' :: (rest.text ++ '}' :: behind)) := by
      simp [text, afterClosing?, Mode.isCode, Mode.next, Mode.opened]
    rw [opens, afterClosing?_line, afterLine_append_break h.1, ih h.2]
  | note body rest ih =>
    have opens : afterClosing? (depth + 1) .code ((note body rest).text ++ '}' :: behind) =
        afterClosing? (depth + 1) .note (body ++ '*' :: '/' :: (rest.text ++ '}' :: behind)) := by
      simp [text, afterClosing?, Mode.isCode, Mode.next, Mode.opened]
    rw [opens, afterClosing?_note, afterNote_append h.1, ih h.2]
  | plain c rest ih =>
    obtain ⟨sign, alone, well⟩ := h
    have head (s : Char) (other : s ≠ '}') (apart : rest.text.head? ≠ some s) :
        (rest.text ++ '}' :: behind).head? ≠ some s := by
      cases whole : rest.text with
      | nil => simpa using Ne.symm other
      | cons d more => simpa [whole] using apart
    rw [← ih well]
    exact afterClosing?_plain (depth + 1) sign fun slash =>
      ⟨head '/' (by decide) (alone slash).1, head '*' (by decide) (alone slash).2⟩

theorem exists_items_of_afterClosing? {depth : Nat} {cs rest : List Char}
    (h : afterClosing? (depth + 1) .code cs = some rest) :
    ∃ (items : Items) (behind : List Char), items.IsWellFormed ∧ cs = items.text ++ '}' :: behind := by
  induction size : cs.length using Nat.strong_induction_on generalizing depth cs rest with | _ n ih
  match cs with
  | [] => contradiction
  | c :: cs =>
    -- whatever stands behind an item is shorter than what begins with it
    have onward {depth : Nat} {after : List Char} (suffix : after <:+ cs)
        (more : afterClosing? (depth + 1) .code after = some rest) :
        ∃ (items : Items) (behind : List Char), items.IsWellFormed ∧ after = items.text ++ '}' :: behind :=
      ih after.length (size ▸ Nat.lt_succ_of_le suffix.length_le) more rfl
    cases begins_cons c cs with
    | string cs =>
      have string : afterClosing? (depth + 1) .string cs = some rest := h
      obtain ⟨body, after, quotable, split, more⟩ := exists_quotable_of_afterClosing? string
      obtain ⟨items, behind, well, whole⟩ := onward ⟨body ++ ['"'], by simp [split]⟩ more
      exact ⟨.string body items, behind, ⟨quotable, well⟩, by simp [Items.text, split, whole]⟩
    | opening cs =>
      have deeper : afterClosing? (depth + 2) .code cs = some rest := h
      obtain ⟨inner, after, well, split⟩ := onward List.suffix_rfl deeper
      rw [split, well.afterClosing?_eq] at deeper
      have more : afterClosing? (depth + 1) .code after = some rest := deeper
      obtain ⟨items, behind, well', whole⟩ := onward ⟨inner.text ++ ['}'], by simp [split]⟩ more
      exact ⟨.block inner items, behind, ⟨well, well'⟩, by simp [Items.text, split, whole]⟩
    | closing cs => exact ⟨.nil, cs, trivial, rfl⟩
    | line cs =>
      have comment : afterClosing? (depth + 1) .line cs = some rest := h
      obtain ⟨body, after, single, split, more⟩ := exists_line_of_afterClosing? comment
      obtain ⟨items, behind, well, whole⟩ := onward ⟨'/' :: body ++ ['\n'], by simp [split]⟩ more
      exact ⟨.line body items, behind, ⟨single, well⟩, by simp [Items.text, split, whole]⟩
    | note cs =>
      have comment : afterClosing? (depth + 1) .note cs = some rest := h
      obtain ⟨body, after, single, split, more⟩ := exists_note_of_afterClosing? comment
      obtain ⟨items, behind, well, whole⟩ := onward ⟨'*' :: body ++ ['*', '/'], by simp [split]⟩ more
      exact ⟨.note body items, behind, ⟨single, well⟩, by simp [Items.text, split, whole]⟩
    | plain sign alone =>
      rw [afterClosing?_plain (depth + 1) sign alone] at h
      obtain ⟨items, behind, well, whole⟩ := onward List.suffix_rfl h
      have apart (s : Char) (other : cs.head? ≠ some s) : items.text.head? ≠ some s := by
        intro begins
        obtain ⟨more, begins⟩ := List.head?_eq_some_iff.mp begins
        rw [whole, begins] at other
        exact other rfl
      exact ⟨.plain c items, behind, ⟨sign, fun slash =>
        ⟨apart '/' (alone slash).1, apart '*' (alone slash).2⟩, well⟩, by simp [Items.text, whole]⟩

/-- The reader of blocks passes over the texts of the grammar. -/
theorem afterBlock?_eq_some_iff {inside rest : List Char} :
    afterBlock? ('{' :: inside) = some rest ↔ ∃ block, IsBlock block ∧ '{' :: inside = block ++ rest := by
  have last (behind : List Char) : afterClosing? 1 .code ('}' :: behind) = some behind := rfl
  rw [afterBlock?_cons]
  constructor
  · intro closes
    obtain ⟨items, behind, well, rfl⟩ := exists_items_of_afterClosing? closes
    rw [well.afterClosing?_eq, last] at closes
    obtain rfl := Option.some.inj closes
    exact ⟨items.braced, ⟨items, well, rfl⟩, by simp [Items.braced]⟩
  · rintro ⟨_, ⟨items, well, rfl⟩, whole⟩
    obtain rfl : inside = items.text ++ '}' :: rest := by simpa [Items.braced] using whole
    rw [well.afterClosing?_eq, last]

/-- A text with a block in it, `n` characters behind its start. -/
def HoldsBlock (text : List Char) (n : Nat) : Prop :=
  ∃ front block back, text = front ++ (block ++ back) ∧ front.length = n ∧ IsBlock block

theorem HoldsBlock.append {text : List Char} {n : Nat} (h : HoldsBlock text n) (lead tail : List Char) :
    HoldsBlock (lead ++ (text ++ tail)) (n + lead.length) := by
  obtain ⟨front, block, back, rfl, rfl, isBlock⟩ := h
  refine ⟨lead ++ front, block, back ++ tail, by simp, ?_, isBlock⟩
  rw [List.length_append, Nat.add_comm]

/-- Where a block is opened among items, there is a block that ends among the items. -/
theorem Items.holdsBlock_of_mem_openings {items : Items} (h : items.IsWellFormed) :
    ∀ n ∈ items.openings, HoldsBlock items.text n := by
  -- what stands in front of the later items moves all their blocks
  have later {rest : Items} (lead : List Char) (ih : ∀ n ∈ rest.openings, HoldsBlock rest.text n) :
      ∀ n ∈ rest.openings.map (· + lead.length), HoldsBlock (lead ++ rest.text) n := by
    intro n member
    obtain ⟨m, inside, rfl⟩ := List.mem_map.mp member
    have moved := (ih m inside).append lead []
    rwa [List.append_nil] at moved
  induction items with
  | nil => exact fun n member => by contradiction
  | block inner rest ihInner ihRest =>
    have whole : (block inner rest).text = inner.braced ++ rest.text := by simp [text, braced]
    have size : inner.braced.length = inner.text.length + 2 := by simp [braced]
    intro n member
    rcases List.mem_cons.mp member with rfl | member
    · exact ⟨[], inner.braced, rest.text, whole, rfl, inner, h.1, rfl⟩
    rcases List.mem_append.mp member with inside | behind
    · obtain ⟨m, opening, rfl⟩ := List.mem_map.mp inside
      exact (ihInner h.1 m opening).append ['{'] ('}' :: rest.text)
    · rw [whole]
      rw [← size] at behind
      exact later inner.braced (ihRest h.2) n behind
  | string body rest ih =>
    have moved := later ('"' :: (body ++ ['"'])) (ih h.2)
    simpa [text, openings] using moved
  | line body rest ih =>
    have moved := later ('/' :: '/' :: (body ++ ['\n'])) (ih h.2)
    simpa [text, openings] using moved
  | note body rest ih =>
    have moved := later ('/' :: '*' :: (body ++ ['*', '/'])) (ih h.2)
    simpa [text, openings] using moved
  | plain c rest ih => exact later [c] (ih h.2.2)

end ShaderText
