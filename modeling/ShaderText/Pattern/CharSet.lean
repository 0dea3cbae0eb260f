import ShaderText.Text.Blank
import ShaderText.Text.Letter
import ShaderText.Text.CaseFold

/-! Sets of characters, as patterns describe them. A set is a term, so that patterns can be compared;
what it holds is decided by `contains`.
-/
namespace ShaderText

inductive CharSet
  | none
  | range (first last : Char)
  | blank
  | digit
  | word
  | letter
  | union (a b : CharSet)
  | inter (a b : CharSet)
  | compl (a : CharSet)
  /-- The characters that differ at most in case from one of the set. -/
  | anyCase (a : CharSet)
deriving Repr, DecidableEq

namespace CharSet

def contains : CharSet → Char → Bool
  | none, _ => false
  | range first last, c => first ≤ c && c ≤ last
  | blank, c => isBlank c
  | digit, c => isDecimal c
  | word, c => isWordChar c
  | letter, c => isLetter c
  | union a b, c => a.contains c || b.contains c
  | inter a b, c => a.contains c && b.contains c
  | compl a, c => !a.contains c
  | anyCase a, c => (caseMates c).any a.contains

def single (c : Char) : CharSet := range c c

def any : CharSet := compl none

def diff (a b : CharSet) : CharSet := inter a (compl b)

def symmDiff (a b : CharSet) : CharSet := union (diff a b) (diff b a)

def ofRanges (ranges : List (Char × Char)) : CharSet :=
  ranges.foldr (fun (first, last) rest => union (range first last) rest) none

@[simp] theorem contains_any (c : Char) : any.contains c := rfl

end CharSet
end ShaderText
