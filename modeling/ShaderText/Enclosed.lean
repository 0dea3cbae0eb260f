import ShaderText.Trivia

/-! Quoted strings and brace blocks. A string ends at the first quote that no backslash escapes. A
block ends at the brace that balances its first one; braces in strings and comments do not count, and
the reader of a block keeps in one mode what it is inside of. Main statements: what is left after a
string or a block is a proper tail of the text given.
-/
namespace ShaderText

/-- Past the end of a string whose opening quote has been read. -/
def afterQuote? : List Char → Option (List Char)
  | [] => none
  | '"' :: cs => some cs
  | '\\' :: _ :: cs => afterQuote? cs
  | _ :: cs => afterQuote? cs

/-- What a place inside a block is part of. After `slash` or `star` one more character decides. -/
inductive Mode
  | code
  | slash
  | line
  | note
  | star
  | string
  | escape
deriving Repr, DecidableEq

namespace Mode

/-- The mode that a character of plain code opens. -/
def opened (c : Char) : Mode :=
  if c = '"' then .string else if c = '/' then .slash else .code

def next : Mode → Char → Mode
  | .code, c => opened c
  | .slash, c => if c = '/' then .line else if c = '*' then .note else opened c
  | .line, c => if c = '\n' then .code else .line
  | .note, c => if c = '*' then .star else .note
  | .star, c => if c = '/' then .code else if c = '*' then .star else .note
  | .string, c => if c = '"' then .code else if c = '\\' then .escape else .string
  | .escape, _ => .string

def isCode : Mode → Bool
  | .code | .slash => true
  | _ => false

end Mode

/-- Past the brace that closes the outermost of `depth` open blocks. -/
def afterClosing? (depth : Nat) (mode : Mode) : List Char → Option (List Char)
  | [] => none
  | c :: cs =>
    if mode.isCode && c == '{' then afterClosing? (depth + 1) .code cs
    else if mode.isCode && c == '}' then
      if depth ≤ 1 then some cs else afterClosing? (depth - 1) .code cs
    else afterClosing? depth (mode.next c) cs

/-- Past the block that starts here. -/
def afterBlock? (cs : List Char) : Option (List Char) := afterClosing? 0 .code cs

theorem afterQuote?_suffix {cs rest : List Char} (h : afterQuote? cs = some rest) :
    rest <:+ cs ∧ rest.length < cs.length := by
  fun_induction afterQuote? cs with
  | case1 => simp at h
  | case2 cs =>
    obtain rfl := Option.some.inj h
    exact ⟨List.suffix_cons _ _, by simp⟩
  | case3 c cs ih =>
    have := ih h
    refine ⟨(this.1.trans (List.suffix_cons _ _)).trans (List.suffix_cons _ _), ?_⟩
    simp
    omega
  | case4 c cs _ _ ih =>
    have := ih h
    refine ⟨this.1.trans (List.suffix_cons _ _), ?_⟩
    simp
    omega

theorem afterClosing?_suffix {depth : Nat} {mode : Mode} {cs rest : List Char}
    (h : afterClosing? depth mode cs = some rest) : rest <:+ cs ∧ rest.length < cs.length := by
  fun_induction afterClosing? depth mode cs with
  | case1 => simp at h
  | case3 =>
    obtain rfl := Option.some.inj h
    exact ⟨List.suffix_cons _ _, by simp⟩
  | case2 _ _ c cs _ ih =>
    have := ih h
    refine ⟨this.1.trans (List.suffix_cons _ _), ?_⟩
    simp
    omega
  | case4 _ _ c cs _ _ _ ih =>
    have := ih h
    refine ⟨this.1.trans (List.suffix_cons _ _), ?_⟩
    simp
    omega
  | case5 _ _ c cs _ _ ih =>
    have := ih h
    refine ⟨this.1.trans (List.suffix_cons _ _), ?_⟩
    simp
    omega

end ShaderText
