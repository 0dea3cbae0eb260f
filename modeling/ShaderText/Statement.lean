import ShaderText.Text.Region
import ShaderText.Word
import ShaderText.Enclosed

/-! A statement is a name and the value that follows it, possibly on another line. A comment counts as
a statement too, so that the statements of a text cover all of it but the spaces between them. Main
statement: a statement takes at least one character, and what is left is a tail of the text given, so
that reading one statement after another comes to an end.
-/
namespace ShaderText

inductive Kind
  | comment
  | program (sentinel : Sentinel)
  | quoted
  | block
  | bare
  | empty
deriving Repr, DecidableEq

/-- A statement in its place. The value keeps its quotes or braces. -/
structure Statement where
  kind : Kind
  name : Region
  value : Region
  rest : Region
deriving Repr, DecidableEq

/-- A name goes on up to a space, a brace, a quote or a bracket. -/
def isNameChar (c : Char) : Bool := !(isSpace c || c == '{' || c == '"' || c == '[')

/-- What follows a name: the kind of value, the text from the value on and the text after it. -/
structure Remainder where
  kind : Kind
  value : List Char
  rest : List Char

/-- The value that starts here. A string or a block that is not closed takes all that is left. -/
def Remainder.ofValue (value : List Char) : Remainder :=
  match value with
  | [] => ⟨.empty, value, []⟩
  | '"' :: inside => ⟨.quoted, value, (afterQuote? inside).getD []⟩
  | '{' :: _ => ⟨.block, value, (afterBlock? value).getD []⟩
  | _ => ⟨.bare, value, afterBare value⟩

/-- What follows the name at the front of `cs`. A comment ends where comments end, but never inside
its first word. -/
def Remainder.ofName (cs afterName : List Char) : Remainder :=
  match afterComment? cs with
  | some rest => ⟨.comment, afterName, if rest.length < afterName.length then rest else afterName⟩
  | none =>
    match sentinel? (cs.take (cs.length - afterName.length)) with
    | some s => ⟨.program s, afterName, afterName⟩
    | none => ofValue (afterSpaces afterName)

/-- The first statement of a region, unless the region holds only spaces. -/
def Statement.first? (r : Region) : Option Statement :=
  match afterSpaces r.chars with
  | [] => none
  | c :: cs =>
    let here := r.onward (c :: cs)
    let afterName := cs.dropWhile isNameChar
    let found := Remainder.ofName (c :: cs) afterName
    some ⟨found.kind, here.upTo afterName, (here.onward found.value).upTo found.rest,
      here.onward found.rest⟩

theorem Statement.first?_of_afterSpaces {r : Region} {c : Char} {cs : List Char}
    (begins : afterSpaces r.chars = c :: cs) :
    first? r =
      let here := r.onward (c :: cs)
      let afterName := cs.dropWhile isNameChar
      let found := Remainder.ofName (c :: cs) afterName
      some ⟨found.kind, here.upTo afterName, (here.onward found.value).upTo found.rest,
        here.onward found.rest⟩ := by
  unfold first?
  split
  · rename_i none
    simp [begins] at none
  · rename_i d ds begins'
    rw [begins] at begins'
    obtain ⟨rfl, rfl⟩ := List.cons.inj begins'
    rfl

theorem Statement.exists_cons_of_first? {r : Region} {s : Statement} (h : first? r = some s) :
    ∃ c cs, afterSpaces r.chars = c :: cs := by
  unfold first? at h
  split at h
  · simp at h
  · rename_i c cs begins
    exact ⟨c, cs, begins⟩

theorem Remainder.ofValue_suffix (cs : List Char) :
    (ofValue cs).value = cs ∧ (ofValue cs).rest <:+ (ofValue cs).value := by
  unfold ofValue
  split
  · exact ⟨rfl, List.suffix_refl _⟩
  · refine ⟨rfl, ?_⟩
    cases h : afterQuote? ‹_› with
    | none => exact List.nil_suffix
    | some rest => exact (afterQuote?_suffix h).1.trans (List.suffix_cons _ _)
  · refine ⟨rfl, ?_⟩
    cases h : afterBlock? ('{' :: _) with
    | none => exact List.nil_suffix
    | some rest => exact (afterClosing?_suffix h).1
  · exact ⟨rfl, afterBare_suffix _⟩

theorem Remainder.ofName_suffix {cs afterName : List Char} (h : afterName <:+ cs) :
    (ofName cs afterName).value <:+ afterName ∧
      (ofName cs afterName).rest <:+ (ofName cs afterName).value := by
  unfold ofName
  split
  · rename_i rest comment
    refine ⟨List.suffix_refl _, ?_⟩
    dsimp only
    split
    · exact List.suffix_of_suffix_length_le (afterComment?_suffix comment).1 h (by omega)
    · exact List.suffix_refl _
  · split
    · exact ⟨List.suffix_refl _, List.suffix_refl _⟩
    · obtain ⟨value, rest⟩ := ofValue_suffix (afterSpaces afterName)
      exact ⟨by rw [value]; exact afterSpaces_suffix _, rest⟩

theorem Remainder.head?_of_kind_block {cs afterName : List Char} (block : (ofName cs afterName).kind = .block) :
    ((ofName cs afterName).value.take
      ((ofName cs afterName).value.length - (ofName cs afterName).rest.length)).head? = some '{' := by
  revert block
  unfold ofName
  split
  · intro block
    simp at block
  · split
    · intro block
      simp at block
    · generalize afterSpaces afterName = value
      unfold ofValue
      split
      · intro block
        simp at block
      · intro block
        simp at block
      · rename_i inside
        intro _
        have shorter : ((afterBlock? ('{' :: inside)).getD []).length < ('{' :: inside).length := by
          cases closes : afterBlock? ('{' :: inside) with
          | none => simp
          | some rest => exact (afterClosing?_suffix closes).2
        simp only
        rw [List.head?_take, if_neg (by omega)]
        rfl
      · intro block
        simp at block

theorem Statement.head?_value {r : Region} {s : Statement} (h : first? r = some s) (block : s.kind = .block) :
    s.value.chars.head? = some '{' := by
  unfold first? at h
  split at h
  · simp at h
  · obtain rfl := Option.some.inj h
    exact Remainder.head?_of_kind_block block

theorem Statement.rest_suffix {r : Region} {s : Statement} (h : first? r = some s) :
    s.rest.chars <:+ r.chars ∧ s.rest.chars.length < r.chars.length := by
  unfold first? at h
  split at h
  · simp at h
  · rename_i c cs spaces
    obtain rfl := Option.some.inj h
    have name : cs.dropWhile isNameChar <:+ cs := List.dropWhile_suffix _
    have whole : c :: cs <:+ r.chars := spaces ▸ afterSpaces_suffix r.chars
    obtain ⟨value, rest⟩ := Remainder.ofName_suffix (name.trans (List.suffix_cons c cs))
    have inside := (rest.trans value).trans name
    refine ⟨(inside.trans (List.suffix_cons c cs)).trans whole, ?_⟩
    have shorter := inside.length_le
    have longer := whole.length_le
    simp only [Region.onward_chars, List.length_cons] at *
    omega

def Region.statements (r : Region) : List Statement :=
  match _h : Statement.first? r with
  | none => []
  | some s => s :: s.rest.statements
termination_by r.chars.length
decreasing_by exact (Statement.rest_suffix _h).2

theorem Region.statements_of_none {r : Region} (none : Statement.first? r = none) : r.statements = [] := by
  rw [statements]
  split
  · rfl
  · simp_all

theorem Region.statements_of_some {r : Region} {s : Statement} (first : Statement.first? r = some s) :
    r.statements = s :: s.rest.statements := by
  rw [statements]
  split
  · simp_all
  · rename_i s' first'
    rw [Option.some.inj (first.symm.trans first')]

end ShaderText
