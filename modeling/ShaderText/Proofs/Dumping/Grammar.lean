import Mathlib.Data.List.Forall2
import ShaderText.Json

/-! The grammar of JSON, for the values that have neither numbers nor truth values in them. A text is a row
of tokens with white space between them, and a string may be spelled in more than one way. Main statements:
a text spells one value at most; both written forms of a value spell it, and the compact form is what is
left of the pretty one without the white space outside of its strings.
-/
namespace ShaderText.Json

@[induction_eliminator]
theorem induction_parts {holds : Json → Prop} (null : holds .null) (string : ∀ value, holds (.string value))
    (array : ∀ items, (∀ item ∈ items, holds item) → holds (.array items))
    (object : ∀ members, (∀ member ∈ members, holds member.2) → holds (.object members)) (j : Json) : holds j :=
  match j with
  | .null => null
  | .string value => string value
  | .array items => array items (forItems items)
  | .object members => object members (forMembers members)
where
  forItems (items : List Json) : ∀ item ∈ items, holds item :=
    match items with
    | [] => by simp
    | item :: rest => List.forall_mem_cons.mpr ⟨induction_parts null string array object item, forItems rest⟩
  forMembers (members : List (String × Json)) : ∀ member ∈ members, holds member.2 :=
    match members with
    | [] => by simp
    | (_, value) :: rest =>
      List.forall_mem_cons.mpr ⟨induction_parts null string array object value, forMembers rest⟩

/-- Whether no object has two members of one name. -/
inductive HasDistinctNames : Json → Prop
  | null : HasDistinctNames .null
  | string (value : String) : HasDistinctNames (.string value)
  | array {items : List Json} (inside : ∀ item ∈ items, HasDistinctNames item) : HasDistinctNames (.array items)
  | object {members : List (String × Json)} (apart : (members.map Prod.fst).Nodup)
      (inside : ∀ member ∈ members, HasDistinctNames member.2) : HasDistinctNames (.object members)

/-- The character that a letter behind a backslash stands for. -/
def shortEscape? : Char → Option Char
  | '"' => some '"'
  | '\\' => some '\\'
  | '/' => some '/'
  | 'b' => some '\x08'
  | 'f' => some '\x0c'
  | 'n' => some '\n'
  | 'r' => some '\r'
  | 't' => some '\t'
  | _ => none

def hexDigit? (c : Char) : Option Nat :=
  if 48 ≤ c.toNat ∧ c.toNat ≤ 57 then some (c.toNat - 48)
  else if 97 ≤ c.toNat ∧ c.toNat ≤ 102 then some (c.toNat - 87)
  else if 65 ≤ c.toNat ∧ c.toNat ≤ 70 then some (c.toNat - 55)
  else none

/-- The number that four hexadecimal digits stand for. -/
def codeUnit? (a b c d : Char) : Option Nat := do
  return ((← hexDigit? a) * 16 + (← hexDigit? b)) * 256 + (← hexDigit? c) * 16 + (← hexDigit? d)

def isHighSurrogate (n : Nat) : Prop := 0xd800 ≤ n ∧ n < 0xdc00

def isLowSurrogate (n : Nat) : Prop := 0xdc00 ≤ n ∧ n < 0xe000

/-- A text between quotes, and the characters that it spells. -/
inductive Spells : List Char → List Char → Prop
  | nil : Spells [] []
  | plain {c : Char} {cs value : List Char} (printed : 0x20 ≤ c.toNat) (sign : c ≠ '"' ∧ c ≠ '\\')
      (more : Spells cs value) : Spells (c :: cs) (c :: value)
  | short {e c : Char} {cs value : List Char} (known : shortEscape? e = some c) (more : Spells cs value) :
      Spells ('\\' :: e :: cs) (c :: value)
  | unit {a b c d : Char} {n : Nat} {cs value : List Char} (digits : codeUnit? a b c d = some n)
      (alone : ¬isHighSurrogate n ∧ ¬isLowSurrogate n) (more : Spells cs value) :
      Spells ('\\' :: 'u' :: a :: b :: c :: d :: cs) (Char.ofNat n :: value)
  | pair {a b c d a' b' c' d' : Char} {high low : Nat} {cs value : List Char}
      (digits : codeUnit? a b c d = some high) (first : isHighSurrogate high)
      (digits' : codeUnit? a' b' c' d' = some low) (second : isLowSurrogate low) (more : Spells cs value) :
      Spells ('\\' :: 'u' :: a :: b :: c :: d :: '\\' :: 'u' :: a' :: b' :: c' :: d' :: cs)
        (Char.ofNat (0x10000 + (high - 0xd800) * 0x400 + (low - 0xdc00)) :: value)

theorem ne_u_of_shortEscape? {e c : Char} (known : shortEscape? e = some c) : e ≠ 'u' := by
  rintro rfl
  contradiction

theorem Spells.unique {cs value ds value' rest rest' : List Char} (h : Spells cs value) (h' : Spells ds value')
    (same : cs ++ '"' :: rest = ds ++ '"' :: rest') : value = value' ∧ rest = rest' := by
  -- the first two characters tell the escapes apart, and the number they spell the two kinds of code units
  induction h generalizing ds value' with
  | nil =>
    cases h' with
    | nil => exact ⟨rfl, (List.cons.inj same).2⟩
    | plain _ sign => exact absurd (List.cons.inj same).1.symm sign.1
    | short | unit | pair => simp at same
  | plain printed sign more ih =>
    cases h' with
    | nil => exact absurd (List.cons.inj same).1 sign.1
    | plain _ _ more' =>
      simp only [List.cons_append, List.cons.injEq] at same
      obtain ⟨rfl, same⟩ := same
      obtain ⟨rfl, behind⟩ := ih more' same
      exact ⟨rfl, behind⟩
    | short | unit | pair => exact absurd (List.cons.inj same).1 sign.2
  | short known more ih =>
    cases h' with
    | nil => simp at same
    | plain _ sign => exact absurd (List.cons.inj same).1.symm sign.2
    | short known' more' =>
      simp only [List.cons_append, List.cons.injEq, true_and] at same
      obtain ⟨rfl, same⟩ := same
      obtain ⟨rfl, behind⟩ := ih more' same
      exact ⟨by rw [Option.some.inj (known.symm.trans known')], behind⟩
    | unit | pair =>
      simp only [List.cons_append, List.cons.injEq, true_and] at same
      exact absurd same.1 (ne_u_of_shortEscape? known)
  | unit digits alone more ih =>
    cases h' with
    | nil => simp at same
    | plain _ sign => exact absurd (List.cons.inj same).1.symm sign.2
    | short known' =>
      simp only [List.cons_append, List.cons.injEq, true_and] at same
      exact absurd same.1.symm (ne_u_of_shortEscape? known')
    | unit digits' _ more' =>
      simp only [List.cons_append, List.cons.injEq, true_and] at same
      obtain ⟨rfl, rfl, rfl, rfl, same⟩ := same
      obtain ⟨rfl, behind⟩ := ih more' same
      exact ⟨by rw [Option.some.inj (digits.symm.trans digits')], behind⟩
    | pair digits' first =>
      simp only [List.cons_append, List.cons.injEq, true_and] at same
      obtain ⟨rfl, rfl, rfl, rfl, -⟩ := same
      rw [Option.some.inj (digits.symm.trans digits')] at alone
      exact absurd first alone.1
  | pair digits first digitsLow second more ih =>
    cases h' with
    | nil => simp at same
    | plain _ sign => exact absurd (List.cons.inj same).1.symm sign.2
    | short known' =>
      simp only [List.cons_append, List.cons.injEq, true_and] at same
      exact absurd same.1.symm (ne_u_of_shortEscape? known')
    | unit digits' alone =>
      simp only [List.cons_append, List.cons.injEq, true_and] at same
      obtain ⟨rfl, rfl, rfl, rfl, -⟩ := same
      rw [← Option.some.inj (digits.symm.trans digits')] at alone
      exact absurd first alone.1
    | pair digits' _ digitsLow' _ more' =>
      simp only [List.cons_append, List.cons.injEq, true_and] at same
      obtain ⟨rfl, rfl, rfl, rfl, rfl, rfl, rfl, rfl, same⟩ := same
      obtain ⟨rfl, behind⟩ := ih more' same
      rw [Option.some.inj (digits.symm.trans digits'), Option.some.inj (digitsLow.symm.trans digitsLow')]
      exact ⟨rfl, behind⟩

theorem codeUnit?_controlDigits :
    ∀ n < 32, codeUnit? '0' '0' (Nat.digitChar (n / 16)) (Nat.digitChar (n % 16)) = some n := by
  decide

theorem Spells.escape {cs value : List Char} (h : Spells cs value) (c : Char) :
    Spells (Json.escape c ++ cs) (c :: value) := by
  unfold Json.escape
  split
  case h_8 quote backslash _ _ _ _ _ =>
    by_cases control : c.toNat < 0x20
    · have alone : ¬isHighSurrogate c.toNat ∧ ¬isLowSurrogate c.toNat := by
        unfold isHighSurrogate isLowSurrogate
        omega
      have spells := Spells.unit (codeUnit?_controlDigits c.toNat control) alone h
      rw [Char.ofNat_toNat] at spells
      rw [if_pos control]
      exact spells
    · rw [if_neg control]
      exact .plain (Nat.le_of_not_lt control) ⟨quote, backslash⟩ h
  all_goals exact .short rfl h

theorem spells_flatMap_escape (value : List Char) : Spells (value.flatMap Json.escape) value := by
  induction value with
  | nil => exact .nil
  | cons c value ih => exact ih.escape c

inductive Sign
  | openArray
  | closeArray
  | openObject
  | closeObject
  | comma
  | colon
deriving DecidableEq

def Sign.char : Sign → Char
  | openArray => '['
  | closeArray => ']'
  | openObject => '{'
  | closeObject => '}'
  | comma => ','
  | colon => ':'

theorem Sign.char_injective {s t : Sign} (h : s.char = t.char) : s = t := by
  revert h
  cases s <;> cases t <;> decide

inductive Token
  | null
  | string (value : String)
  | sign (sign : Sign)

/-- Parts between two brackets, with a comma in front of each but the first. -/
def listed (opening closing : Sign) : List (List Token) → List Token
  | [] => [.sign opening, .sign closing]
  | part :: parts => .sign opening :: (part ++ (parts.flatMap (.sign .comma :: ·) ++ [.sign closing]))

mutual

def tokens : Json → List Token
  | .null => [.null]
  | .string value => [.string value]
  | .array items => listed .openArray .closeArray (itemTokens items)
  | .object members => listed .openObject .closeObject (memberTokens members)

def itemTokens : List Json → List (List Token)
  | [] => []
  | item :: rest => item.tokens :: itemTokens rest

def memberTokens : List (String × Json) → List (List Token)
  | [] => []
  | (name, value) :: rest => (.string name :: .sign .colon :: value.tokens) :: memberTokens rest

end

/-- A token, and a text for it. -/
inductive Token.IsSpelt : Token → List Char → Prop
  | null : IsSpelt .null ['n', 'u', 'l', 'l']
  | string {value : String} {body : List Char} (spells : Spells body value.toList) :
      IsSpelt (.string value) ('"' :: (body ++ ['"']))
  | sign (sign : Sign) : IsSpelt (.sign sign) [sign.char]

/-- The characters that mean nothing between tokens. -/
def isWhite (c : Char) : Bool := c == ' ' || c == '\n' || c == '\r' || c == '\t'

/-- Some texts in turn, with white space around them. -/
inductive Laid : List (List Char) → List Char → Prop
  | done {gap : List Char} (white : gap.all isWhite) : Laid [] gap
  | text {gap text cs : List Char} {texts : List (List Char)} (white : gap.all isWhite) (more : Laid texts cs) :
      Laid (text :: texts) (gap ++ (text ++ cs))

/-- Whether a text is JSON for a value. -/
def IsSpelt (j : Json) (cs : List Char) : Prop :=
  ∃ texts, List.Forall₂ Token.IsSpelt j.tokens texts ∧ Laid texts cs

theorem Token.IsSpelt.unique {t t' : Token} {text text' cs cs' : List Char} (h : t.IsSpelt text)
    (h' : t'.IsSpelt text') (same : text ++ cs = text' ++ cs') : t = t' ∧ cs = cs' := by
  have letter (s : Sign) : 'n' ≠ s.char ∧ '"' ≠ s.char := by cases s <;> decide
  cases h with
  | null =>
    cases h' with
    | null => exact ⟨rfl, List.append_cancel_left same⟩
    | string => simp at same
    | sign s => exact absurd (List.cons.inj same).1 (letter s).1
  | string spells =>
    cases h' with
    | null => simp at same
    | string spells' =>
      simp only [List.cons_append, List.cons.injEq, List.append_assoc, List.nil_append, true_and] at same
      obtain ⟨value, behind⟩ := spells.unique spells' same
      exact ⟨by rw [String.toList_inj.mp value], behind⟩
    | sign s => exact absurd (List.cons.inj same).1 (letter s).2
  | sign s =>
    cases h' with
    | null => exact absurd (List.cons.inj same).1.symm (letter s).1
    | string => exact absurd (List.cons.inj same).1.symm (letter s).2
    | sign s' =>
      obtain ⟨char, behind⟩ := List.cons.inj same
      exact ⟨by rw [Sign.char_injective char], behind⟩

theorem Token.IsSpelt.exists_cons {t : Token} {text : List Char} (h : t.IsSpelt text) :
    ∃ c cs, text = c :: cs ∧ isWhite c = false := by
  cases h with
  | null => exact ⟨_, _, rfl, by decide⟩
  | string => exact ⟨_, _, rfl, by decide⟩
  | sign s => exact ⟨_, _, rfl, by cases s <;> decide⟩

theorem Token.IsSpelt.dropWhile_isWhite {t : Token} {gap text : List Char} (h : t.IsSpelt text)
    (white : gap.all isWhite) (cs : List Char) : (gap ++ (text ++ cs)).dropWhile isWhite = text ++ cs := by
  obtain ⟨c, more, rfl, dark⟩ := h.exists_cons
  rw [List.dropWhile_append_of_pos (List.all_eq_true.mp white), List.cons_append,
    List.dropWhile_cons_of_neg (by simp [dark])]

theorem not_white_append {t : Token} {gap text : List Char} (h : t.IsSpelt text) (cs : List Char) :
    (gap ++ (text ++ cs)).all isWhite = false := by
  obtain ⟨c, more, rfl, dark⟩ := h.exists_cons
  simp [dark]

theorem Laid.unique {tokens tokens' : List Token} {texts texts' : List (List Char)} {cs : List Char}
    (laid : Laid texts cs) (spelt : List.Forall₂ Token.IsSpelt tokens texts) (laid' : Laid texts' cs)
    (spelt' : List.Forall₂ Token.IsSpelt tokens' texts') : tokens = tokens' := by
  induction laid generalizing tokens tokens' texts' with
  | done white =>
    obtain rfl := List.forall₂_nil_right_iff.mp spelt
    cases laid' with
    | done => exact (List.forall₂_nil_right_iff.mp spelt').symm
    | text =>
      obtain ⟨t, _, first, -, rfl⟩ := List.forall₂_cons_right_iff.mp spelt'
      rw [not_white_append first] at white
      contradiction
  | @text gap text cs texts white more ih =>
    obtain ⟨t, rest, first, others, rfl⟩ := List.forall₂_cons_right_iff.mp spelt
    generalize whole : gap ++ (text ++ cs) = all at laid'
    cases laid' with
    | done white' =>
      rw [← whole, not_white_append first] at white'
      contradiction
    | text white' more' =>
      obtain ⟨t', rest', first', others', rfl⟩ := List.forall₂_cons_right_iff.mp spelt'
      have same := congrArg (List.dropWhile isWhite) whole
      rw [first.dropWhile_isWhite white, first'.dropWhile_isWhite white'] at same
      obtain ⟨rfl, rfl⟩ := first.unique first' same
      rw [ih others more' others']

theorem itemTokens_eq_map (items : List Json) : itemTokens items = items.map tokens := by
  induction items with
  | nil => rfl
  | cons item items ih => rw [itemTokens, ih, List.map_cons]

theorem memberTokens_eq_map (members : List (String × Json)) :
    memberTokens members = members.map fun member => .string member.1 :: .sign .colon :: member.2.tokens := by
  induction members with
  | nil => rfl
  | cons member members ih => rw [memberTokens, ih, List.map_cons]

def opening : Json → Token
  | .null => .null
  | .string value => .string value
  | .array _ => .sign .openArray
  | .object _ => .sign .openObject

theorem exists_tokens (j : Json) : ∃ more, j.tokens = j.opening :: more := by
  cases j with
  | null | string => exact ⟨[], rfl⟩
  | array items =>
    rw [tokens]
    cases itemTokens items <;> exact ⟨_, rfl⟩
  | object members =>
    rw [tokens]
    cases memberTokens members <;> exact ⟨_, rfl⟩

section Listed

variable {α : Type} {spell : α → List Token} {closing : Sign} {items items' : List α} {rest rest' : List Token}

theorem further_unique (apart : closing ≠ .comma)
    (one : ∀ item ∈ items, ∀ item' more more', spell item ++ more = spell item' ++ more' →
      item = item' ∧ more = more')
    (same : (items.map spell).flatMap (.sign .comma :: ·) ++ .sign closing :: rest =
      (items'.map spell).flatMap (.sign .comma :: ·) ++ .sign closing :: rest') :
    items = items' ∧ rest = rest' := by
  induction items generalizing items' with
  | nil =>
    cases items' with
    | nil => exact ⟨rfl, (List.cons.inj same).2⟩
    | cons item' items' => exact absurd (Token.sign.inj (List.cons.inj same).1) apart
  | cons item items ih =>
    obtain ⟨first, others⟩ := List.forall_mem_cons.mp one
    cases items' with
    | nil => exact absurd (Token.sign.inj (List.cons.inj same).1).symm apart
    | cons item' items' =>
      simp only [List.map_cons, List.flatMap_cons, List.cons_append, List.append_assoc, List.cons.injEq,
        true_and] at same
      obtain ⟨rfl, behind⟩ := first item' _ _ same
      obtain ⟨rfl, last⟩ := ih others behind
      exact ⟨rfl, last⟩

theorem listed_unique {opening : Sign} (apart : closing ≠ .comma)
    (opens : ∀ item, ∃ t more, spell item = t :: more ∧ t ≠ .sign closing)
    (one : ∀ item ∈ items, ∀ item' more more', spell item ++ more = spell item' ++ more' →
      item = item' ∧ more = more')
    (same : listed opening closing (items.map spell) ++ rest = listed opening closing (items'.map spell) ++ rest') :
    items = items' ∧ rest = rest' := by
  -- a bracket that closes is not the first token of an item
  have ends (item : α) (more more' : List Token) : .sign closing :: more ≠ spell item ++ more' := by
    obtain ⟨t, after, begins, first⟩ := opens item
    intro equal
    rw [begins, List.cons_append] at equal
    exact first (List.cons.inj equal).1.symm
  cases items with
  | nil =>
    cases items' with
    | nil =>
      simp only [List.map_nil, listed, List.cons_append, List.cons.injEq, true_and] at same
      exact ⟨rfl, same⟩
    | cons item' items' =>
      simp only [List.map_nil, List.map_cons, listed, List.cons_append, List.cons.injEq, List.append_assoc,
        true_and] at same
      exact absurd same (ends item' _ _)
  | cons item items =>
    obtain ⟨first, others⟩ := List.forall_mem_cons.mp one
    cases items' with
    | nil =>
      simp only [List.map_nil, List.map_cons, listed, List.cons_append, List.cons.injEq, List.append_assoc,
        true_and] at same
      exact absurd same.symm (ends item _ _)
    | cons item' items' =>
      simp only [List.map_cons, listed, List.cons_append, List.cons.injEq, List.append_assoc, List.nil_append,
        true_and] at same
      obtain ⟨rfl, behind⟩ := first item' _ _ same
      obtain ⟨rfl, last⟩ := further_unique apart others behind
      exact ⟨rfl, last⟩

end Listed

theorem member_unique {member member' : String × Json} {rest rest' : List Token}
    (one : ∀ (j' : Json) (more more' : List Token), member.2.tokens ++ more = j'.tokens ++ more' →
      member.2 = j' ∧ more = more')
    (same : (Token.string member.1 :: .sign .colon :: member.2.tokens) ++ rest =
      (.string member'.1 :: .sign .colon :: member'.2.tokens) ++ rest') : member = member' ∧ rest = rest' := by
  simp only [List.cons_append, List.cons.injEq, Token.string.injEq, true_and] at same
  obtain ⟨name, same⟩ := same
  obtain ⟨value, behind⟩ := one member'.2 _ _ same
  exact ⟨Prod.ext name value, behind⟩

theorem opening_eq {j j' : Json} {rest rest' : List Token} (same : j.tokens ++ rest = j'.tokens ++ rest') :
    j.opening = j'.opening := by
  obtain ⟨more, begins⟩ := j.exists_tokens
  obtain ⟨more', begins'⟩ := j'.exists_tokens
  rw [begins, begins'] at same
  exact (List.cons.inj same).1

/-- Tokens are the tokens of one value, and end at one place. -/
theorem tokens_unique {j j' : Json} {rest rest' : List Token} (same : j.tokens ++ rest = j'.tokens ++ rest') :
    j = j' ∧ rest = rest' := by
  -- the first token tells which kind of value it is
  induction j generalizing j' rest rest' with
  | null =>
    cases j' with
    | null => exact ⟨rfl, (List.cons.inj same).2⟩
    | string | array | object => simpa [opening] using opening_eq same
  | string value =>
    cases j' with
    | string value' =>
      obtain rfl := Token.string.inj (opening_eq same)
      exact ⟨rfl, (List.cons.inj same).2⟩
    | null | array | object => simpa [opening] using opening_eq same
  | array items ih =>
    cases j' with
    | array items' =>
      rw [tokens, tokens, itemTokens_eq_map, itemTokens_eq_map] at same
      have opens (item : Json) : ∃ t more, item.tokens = t :: more ∧ t ≠ .sign .closeArray := by
        obtain ⟨more, begins⟩ := item.exists_tokens
        exact ⟨item.opening, more, begins, by cases item <;> simp [opening]⟩
      obtain ⟨rfl, behind⟩ := listed_unique (by decide) opens (fun item member _ _ _ => ih item member) same
      exact ⟨rfl, behind⟩
    | null | string | object => simpa [opening] using opening_eq same
  | object members ih =>
    cases j' with
    | object members' =>
      rw [tokens, tokens, memberTokens_eq_map, memberTokens_eq_map] at same
      obtain ⟨rfl, behind⟩ := listed_unique (by decide) (fun member => ⟨_, _, rfl, by simp⟩)
        (fun member inside _ _ _ => member_unique fun _ _ _ => ih member inside) same
      exact ⟨rfl, behind⟩
    | null | string | array => simpa [opening] using opening_eq same

theorem IsSpelt.unique {j j' : Json} {cs : List Char} (h : j.IsSpelt cs) (h' : j'.IsSpelt cs) : j = j' := by
  obtain ⟨texts, spelt, laid⟩ := h
  obtain ⟨texts', spelt', laid'⟩ := h'
  have same := congrArg (· ++ []) (laid.unique spelt laid' spelt')
  exact (tokens_unique same).1

def Token.text : Token → List Char
  | .null => ['n', 'u', 'l', 'l']
  | .string value => writeString value
  | .sign s => [s.char]

theorem Token.isSpelt_text (t : Token) : t.IsSpelt t.text := by
  cases t with
  | null => exact .null
  | string value => exact .string (spells_flatMap_escape value.toList)
  | sign s => exact .sign s

theorem forall₂_isSpelt_text (tokens : List Token) : List.Forall₂ Token.IsSpelt tokens (tokens.map Token.text) := by
  rw [List.forall₂_map_right_iff, List.forall₂_same]
  exact fun t _ => t.isSpelt_text

theorem compactItems_eq_map (items : List Json) : compactItems items = items.map compact := by
  induction items with
  | nil => rfl
  | cons item items ih => rw [compactItems, ih, List.map_cons]

theorem compactMembers_eq_map (members : List (String × Json)) :
    compactMembers members = members.map fun member => writeString member.1 ++ ':' :: member.2.compact := by
  induction members with
  | nil => rfl
  | cons member members ih => rw [compactMembers, ih, List.map_cons]

theorem prettyItems_eq_map (depth : Nat) (items : List Json) :
    prettyItems depth items = items.map (prettyAt depth) := by
  induction items with
  | nil => rfl
  | cons item items ih => rw [prettyItems, ih, List.map_cons]

theorem prettyMembers_eq_map (depth : Nat) (members : List (String × Json)) :
    prettyMembers depth members =
      members.map fun member => writeString member.1 ++ ':' :: ' ' :: prettyAt depth member.2 := by
  induction members with
  | nil => rfl
  | cons member members ih => rw [prettyMembers, ih, List.map_cons]

theorem separate_cons (separator item : List Char) (items : List (List Char)) :
    separate separator (item :: items) = item ++ items.flatMap (separator ++ ·) := by
  induction items generalizing item with
  | nil => simp [separate]
  | cons next items ih =>
    have step : separate separator (item :: next :: items) =
        item ++ separator ++ separate separator (next :: items) := rfl
    rw [step, ih, List.flatMap_cons, List.append_assoc, List.append_assoc]

theorem flatMap_text_listed {α : Type} (opening closing : Sign) (items : List α) {spell : α → List Token}
    {write : α → List Char} (h : ∀ item ∈ items, (spell item).flatMap Token.text = write item) :
    (listed opening closing (items.map spell)).flatMap Token.text =
      opening.char :: (separate [','] (items.map write) ++ [closing.char]) := by
  cases items with
  | nil => rfl
  | cons item items =>
    obtain ⟨first, others⟩ := List.forall_mem_cons.mp h
    have further : items.flatMap (fun item => ',' :: (spell item).flatMap Token.text) =
        items.flatMap fun item => ',' :: write item :=
      List.flatMap_congr fun item member => by rw [others item member]
    rw [List.map_cons, List.map_cons, separate_cons]
    simp [listed, Token.text, first, List.flatMap_assoc, List.flatMap_map, further, Sign.char]

theorem compact_eq (j : Json) : j.compact = j.tokens.flatMap Token.text := by
  induction j with
  | null | string => simp [compact, tokens, Token.text]
  | array items ih =>
    rw [compact, tokens, itemTokens_eq_map, compactItems_eq_map,
      flatMap_text_listed _ _ _ fun item member => (ih item member).symm]
    rfl
  | object members ih =>
    have parts : ∀ member ∈ members, (.string member.1 :: .sign .colon :: member.2.tokens).flatMap Token.text =
        writeString member.1 ++ ':' :: member.2.compact := fun member inside => by
      simp [Token.text, Sign.char, ih member inside]
    rw [compact, tokens, memberTokens_eq_map, compactMembers_eq_map, flatMap_text_listed _ _ _ parts]
    rfl

namespace Laid

variable {texts others : List (List Char)} {cs ds gap : List Char}

theorem append (h : Laid texts cs) (h' : Laid others ds) : Laid (texts ++ others) (cs ++ ds) := by
  induction h with
  | done white =>
    cases h' with
    | done white' => exact .done (by rw [List.all_append, white, white']; rfl)
    | text white' more =>
      rw [List.nil_append, ← List.append_assoc]
      exact .text (by rw [List.all_append, white, white']; rfl) more
  | text white _ ih =>
    rw [List.append_assoc, List.append_assoc, List.cons_append]
    exact .text white ih

theorem single (text : List Char) : Laid [text] text := by
  have laid : Laid [text] ([] ++ (text ++ [])) := .text rfl (.done rfl)
  simpa using laid

theorem gap_append (white : gap.all isWhite) (h : Laid texts cs) : Laid texts (gap ++ cs) :=
  (Laid.done white).append h

theorem cons (text : List Char) (h : Laid texts cs) : Laid (text :: texts) (text ++ cs) := (single text).append h

end Laid

theorem all_isWhite_lineBreak (depth : Nat) : (lineBreak depth).all isWhite := by
  simp [lineBreak, isWhite]

theorem laid_bracket {α : Type} (opening closing : Sign) (depth : Nat) (items : List α) {spell : α → List Token}
    {write : α → List Char} (h : ∀ item ∈ items, Laid ((spell item).map Token.text) (write item)) :
    Laid ((listed opening closing (items.map spell)).map Token.text)
      (bracket opening.char closing.char depth (items.map write)) := by
  have last : Laid [[closing.char]] [closing.char] := .single _
  cases items with
  | nil => exact .cons [opening.char] last
  | cons item items =>
    obtain ⟨first, others⟩ := List.forall_mem_cons.mp h
    -- a comma stands right behind the part in front of it, and the white space behind the comma
    have further : Laid (((items.map spell).flatMap (.sign .comma :: ·)).map Token.text)
        ((items.map write).flatMap (',' :: lineBreak (depth + 1) ++ ·)) := by
      clear h first
      induction items with
      | nil => exact .done rfl
      | cons next items ih =>
        obtain ⟨here, later⟩ := List.forall_mem_cons.mp others
        have comma : Laid ([','] :: (spell next).map Token.text) (',' :: (lineBreak (depth + 1) ++ write next)) :=
          .cons [','] (here.gap_append (all_isWhite_lineBreak _))
        simpa [Token.text, Sign.char] using comma.append (ih later)
    have inside := (first.append further).append (last.gap_append (all_isWhite_lineBreak depth))
    have whole := Laid.cons [opening.char] (inside.gap_append (all_isWhite_lineBreak (depth + 1)))
    rw [bracket, if_neg (by simp), List.map_cons, List.map_cons, separate_cons]
    simpa [listed, Token.text] using whole

theorem laid_prettyAt (j : Json) (depth : Nat) : Laid (j.tokens.map Token.text) (prettyAt depth j) := by
  induction j generalizing depth with
  | null | string => exact .single _
  | array items ih =>
    rw [prettyAt, tokens, itemTokens_eq_map, prettyItems_eq_map]
    exact laid_bracket .openArray .closeArray depth items fun item member => ih item member (depth + 1)
  | object members ih =>
    have parts : ∀ member ∈ members, Laid ((.string member.1 :: .sign .colon :: member.2.tokens).map Token.text)
        (writeString member.1 ++ ':' :: ' ' :: prettyAt (depth + 1) member.2) := by
      intro member inside
      have white : [' '].all isWhite := rfl
      exact .cons (writeString member.1) (.cons [':'] ((ih member inside (depth + 1)).gap_append white))
    rw [prettyAt, tokens, memberTokens_eq_map, prettyMembers_eq_map]
    exact laid_bracket .openObject .closeObject depth members parts

theorem laid_compact (j : Json) : Laid (j.tokens.map Token.text) j.compact := by
  rw [compact_eq]
  induction j.tokens with
  | nil => exact .done rfl
  | cons t tokens ih => exact .cons t.text ih

theorem isSpelt_pretty (j : Json) : j.IsSpelt j.pretty := ⟨_, forall₂_isSpelt_text j.tokens, j.laid_prettyAt 0⟩

theorem isSpelt_compact (j : Json) : j.IsSpelt j.compact := ⟨_, forall₂_isSpelt_text j.tokens, j.laid_compact⟩

/-- What a place in a text of JSON is part of. -/
inductive Place
  | outside
  | string
  | escape

/-- A text without the white space outside of its strings. -/
def squeezed : Place → List Char → List Char
  | _, [] => []
  | .outside, c :: cs =>
    if isWhite c then squeezed .outside cs else c :: squeezed (if c = '"' then .string else .outside) cs
  | .string, c :: cs =>
    c :: squeezed (if c = '"' then .outside else if c = '\\' then .escape else .string) cs
  | .escape, c :: cs => c :: squeezed .string cs

theorem squeezed_append {gap : List Char} (white : gap.all isWhite) (cs : List Char) :
    squeezed .outside (gap ++ cs) = squeezed .outside cs := by
  induction gap with
  | nil => rfl
  | cons c gap ih =>
    rw [List.all_cons, Bool.and_eq_true] at white
    rw [List.cons_append, squeezed, if_pos white.1, ih white.2]

theorem squeezed_cons {c : Char} (sign : c ≠ '"' ∧ c ≠ '\\') (cs : List Char) :
    squeezed .string (c :: cs) = c :: squeezed .string cs := by
  rw [squeezed, if_neg sign.1, if_neg sign.2]

theorem ne_sign_of_hexDigit? {c : Char} {n : Nat} (digit : hexDigit? c = some n) : c ≠ '"' ∧ c ≠ '\\' := by
  constructor <;>
  · rintro rfl
    simp [hexDigit?] at digit

theorem squeezed_unit {a b c d : Char} {n : Nat} (digits : codeUnit? a b c d = some n) (cs : List Char) :
    squeezed .string ('\\' :: 'u' :: a :: b :: c :: d :: cs) =
      '\\' :: 'u' :: a :: b :: c :: d :: squeezed .string cs := by
  simp only [codeUnit?, Option.bind_eq_bind, Option.bind_eq_some_iff] at digits
  obtain ⟨_, first, _, second, _, third, _, last, -⟩ := digits
  have opens : squeezed .string ('\\' :: 'u' :: a :: b :: c :: d :: cs) =
      '\\' :: 'u' :: squeezed .string (a :: b :: c :: d :: cs) := rfl
  rw [opens, squeezed_cons (ne_sign_of_hexDigit? first), squeezed_cons (ne_sign_of_hexDigit? second),
    squeezed_cons (ne_sign_of_hexDigit? third), squeezed_cons (ne_sign_of_hexDigit? last)]

theorem Spells.squeezed_eq {body value : List Char} (h : Spells body value) (cs : List Char) :
    squeezed .string (body ++ '"' :: cs) = body ++ '"' :: squeezed .outside cs := by
  induction h with
  | nil => rfl
  | plain _ sign _ ih => rw [List.cons_append, squeezed_cons sign, ih, List.cons_append]
  | short _ _ ih => simp [squeezed, ih]
  | unit digits _ _ ih => simp [squeezed_unit digits, ih]
  | pair digits _ digits' _ _ ih => simp [squeezed_unit digits, squeezed_unit digits', ih]

theorem Token.IsSpelt.squeezed_eq {t : Token} {text : List Char} (h : t.IsSpelt text) (cs : List Char) :
    squeezed .outside (text ++ cs) = text ++ squeezed .outside cs := by
  cases h with
  | null => simp [squeezed, isWhite]
  | string spells =>
    have inside := spells.squeezed_eq cs
    simpa [squeezed, isWhite] using inside
  | sign s => cases s <;> simp [squeezed, isWhite, Sign.char]

theorem Laid.squeezed_eq {tokens : List Token} {texts : List (List Char)} {cs : List Char}
    (laid : Laid texts cs) (spelt : List.Forall₂ Token.IsSpelt tokens texts) :
    squeezed .outside cs = texts.flatten := by
  induction laid generalizing tokens with
  | @done gap white =>
    have blank := squeezed_append white []
    rwa [List.append_nil] at blank
  | text white _ ih =>
    obtain ⟨t, rest, first, others, rfl⟩ := List.forall₂_cons_right_iff.mp spelt
    rw [squeezed_append white, first.squeezed_eq, ih others, List.flatten_cons]

/-- The pretty form without white space outside of strings is the compact form. -/
theorem squeezed_pretty (j : Json) : squeezed .outside j.pretty = j.compact := by
  rw [pretty, (j.laid_prettyAt 0).squeezed_eq (forall₂_isSpelt_text j.tokens), compact_eq, List.flatMap]

end ShaderText.Json
