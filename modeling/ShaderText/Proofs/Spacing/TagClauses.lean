import ShaderText.Proofs.Bytewise.Statement
import ShaderText.Proofs.Faults
import ShaderText.Proofs.Spacing.Remarks

/-! Clauses of tags in any layout. Spaces and comments separate the tokens of a clause, its keys, equals
signs and values, and say nothing themselves; so what is read depends on the tokens alone. Main statement:
the tokens of some pairs are read as these pairs, and reading goes on right behind the closing brace; if one
of the tokens is missing, the clause is malformed.
-/
namespace ShaderText

/-- A text that separates tokens: spaces, line comments up to their line feed and closed block comments. -/
inductive IsSeparator : List Char → Prop
  | nil : IsSeparator []
  | space {c : Char} {cs : List Char} (space : isSpace c) (more : IsSeparator cs) : IsSeparator (c :: cs)
  | line {inside cs : List Char} (single : '\n' ∉ inside) (more : IsSeparator cs) :
      IsSeparator ('/' :: '/' :: (inside ++ '\n' :: cs))
  | note {inside cs : List Char} (single : holds ['*', '/'] inside = false) (more : IsSeparator cs) :
      IsSeparator ('/' :: '*' :: (inside ++ '*' :: '/' :: cs))

theorem afterTrivia_of_comment {cs rest : List Char} (comment : afterComment? ('/' :: cs) = some rest) :
    afterTrivia ('/' :: cs) = afterTrivia rest := by
  have flush : afterSpaces ('/' :: cs) = '/' :: cs := afterSpaces_of_not_isSpace (by decide) cs
  rw [afterTrivia, flush]
  split
  · rename_i none
    simp [comment] at none
  · rename_i rest' comment'
    rw [Option.some.inj (comment.symm.trans comment')]

theorem IsSeparator.append {cs ds : List Char} (h : IsSeparator cs) (h' : IsSeparator ds) :
    IsSeparator (cs ++ ds) := by
  induction h with
  | nil => exact h'
  | space space _ ih => exact .space space ih
  | @line inside cs single _ ih =>
    have more := IsSeparator.line single ih
    simpa using more
  | @note inside cs single _ ih =>
    have more := IsSeparator.note single ih
    simpa using more

theorem IsSeparator.isTrivia {cs : List Char} (h : IsSeparator cs) : IsTrivia cs where
  neutral := by
    induction h with
    | nil => exact isNeutral_nil
    | @space c cs space _ ih =>
      have here : IsNeutral [c] := isNeutral_spaces (by simp [space])
      exact here.append ih
    | @line inside cs single _ ih =>
      have ends : IsNeutral ('/' :: '/' :: (inside ++ ['\n'])) := across?_line single
      simpa using ends.append ih
    | @note inside cs single _ ih =>
      have ends : IsNeutral ('/' :: '*' :: (inside ++ ['*', '/'])) := across?_note single (.inl rfl)
      simpa using ends.append ih
  passed tail := by
    induction h with
    | nil => rfl
    | space space _ ih => rw [List.cons_append, afterTrivia_cons space, ih]
    | @line inside cs single _ ih =>
      have comment : afterComment? ('/' :: '/' :: (inside ++ '\n' :: (cs ++ tail))) = some (cs ++ tail) :=
        congrArg some (afterLine_append_break single (cs ++ tail))
      rw [← ih, ← afterTrivia_of_comment comment]
      simp
    | @note inside cs single _ ih =>
      have comment : afterComment? ('/' :: '*' :: (inside ++ '*' :: '/' :: (cs ++ tail))) = some (cs ++ tail) :=
        congrArg some (afterNote_append single (cs ++ tail))
      rw [← ih, ← afterTrivia_of_comment comment]
      simp

/-- A token of a clause of tags: a key or a value in quotes, or the sign between them. -/
inductive TagToken
  | quoted (body : String)
  | sign

namespace TagToken

def text : TagToken → List Char
  | quoted body => '"' :: (body.toList ++ ['"'])
  | sign => ['=']

/-- Whether a string ends where the token ends. -/
def IsClosed : TagToken → Prop
  | quoted body => IsStringBody body
  | sign => True

theorem isNeutral_text {token : TagToken} (h : token.IsClosed) : IsNeutral token.text := by
  cases token with
  | quoted body => exact isNeutral_string h
  | sign => exact isNeutral_of_isPlain (by decide)

theorem tagToken?_text {body : String} (h : IsStringBody body) (rest : List Char) :
    tagToken? ((quoted body).text ++ rest) = some (body.toList, rest) := by
  rw [← tagToken?_quoted h rest]
  simp [text]

end TagToken

/-- Some tokens in turn, with a separator in front of each and one behind the last. -/
inductive Spaced : List TagToken → List Char → Prop
  | done {gap : List Char} (separates : IsSeparator gap) : Spaced [] gap
  | token {gap cs : List Char} {token : TagToken} {tokens : List TagToken} (separates : IsSeparator gap)
      (more : Spaced tokens cs) : Spaced (token :: tokens) (gap ++ (token.text ++ cs))

namespace Spaced

variable {cs : List Char} {token : TagToken} {tokens : List TagToken}

theorem afterTrivia_cons (h : Spaced (token :: tokens) cs) :
    ∃ after, afterTrivia cs = token.text ++ after ∧ Spaced tokens after := by
  cases h with
  | @token gap after _ _ separates more =>
    refine ⟨after, ?_, more⟩
    rw [separates.isTrivia.passed]
    cases token with
    | quoted body => exact afterTrivia_of_sign rfl (by decide) _
    | sign => exact afterTrivia_of_sign rfl (by decide) _

theorem append {others : List TagToken} {ds : List Char} (h : Spaced tokens cs) (h' : Spaced others ds) :
    Spaced (tokens ++ others) (cs ++ ds) := by
  induction h with
  | done separates =>
    cases h' with
    | done separates' => exact .done (separates.append separates')
    | token separates' more =>
      rw [List.nil_append, ← List.append_assoc]
      exact .token (separates.append separates') more
  | token separates _ ih =>
    simp only [List.append_assoc, List.cons_append]
    exact .token separates ih

theorem isNeutral (h : Spaced tokens cs) (closed : ∀ token ∈ tokens, token.IsClosed) : IsNeutral cs := by
  induction h with
  | done separates => exact separates.isTrivia.neutral
  | token separates _ ih =>
    obtain ⟨first, others⟩ := List.forall_mem_cons.mp closed
    exact separates.isTrivia.neutral.append ((TagToken.isNeutral_text first).append (ih others))

end Spaced

end ShaderText
