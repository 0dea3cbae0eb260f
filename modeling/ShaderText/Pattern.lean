import ShaderText.Pattern.CharSet

/-! Patterns and the search for them. A place in a line is known by the characters on its two sides;
some patterns match there without taking a character. Reading one character turns a pattern into the
patterns for what may follow, so a search keeps the set of all patterns that are still open.
-/
namespace ShaderText

inductive Anchor
  | textStart
  | textEnd
  | lineStart
  | lineEnd
  | wordEdge
  | noWordEdge
deriving Repr, DecidableEq

namespace Anchor

/-- Whether the condition holds between two characters, where none stands outside the text. -/
def holds (a : Anchor) (before after : Option Char) : Bool :=
  let edge := before.any isWordChar != after.any isWordChar
  match a with
  | textStart => before.isNone
  | textEnd => after.isNone
  | lineStart => before.all (· == '\n')
  | lineEnd => after.all (· == '\n')
  | wordEdge => edge
  | noWordEdge => !edge

end Anchor

inductive Pattern
  | empty
  | one (set : CharSet)
  | anchor (a : Anchor)
  | seq (p q : Pattern)
  | alt (p q : Pattern)
  | star (p : Pattern)
deriving Repr, DecidableEq

namespace Pattern

def matchesHere (before after : Option Char) : Pattern → Bool
  | empty => true
  | one _ => false
  | anchor a => a.holds before after
  | seq p q => p.matchesHere before after && q.matchesHere before after
  | alt p q => p.matchesHere before after || q.matchesHere before after
  | star _ => true

/-- `p` and then `q`, where an empty `p` is left out. -/
def andThen (p q : Pattern) : Pattern :=
  match p with
  | empty => q
  | _ => seq p q

/-- The patterns for what may follow after the character `c` has been taken. -/
def residues (before : Option Char) (c : Char) : Pattern → List Pattern
  | empty => []
  | one set => if set.contains c then [empty] else []
  | anchor _ => []
  | seq p q =>
    let first := (p.residues before c).map (·.andThen q)
    if p.matchesHere before (some c) then first ++ q.residues before c else first
  | alt p q => p.residues before c ++ q.residues before c
  | star p => (p.residues before c).map (·.andThen (star p))

def distinct (ps : List Pattern) : List Pattern := ps.foldr (fun p rest => p :: rest.filter (· != p)) []

/-- Whether one of the open patterns matches from this place on, or the pattern from a later one. -/
def search (p : Pattern) (opened : List Pattern) (before : Option Char) : List Char → Bool
  | [] => (p :: opened).any (matchesHere before none)
  | c :: cs =>
    let all := p :: opened
    all.any (matchesHere before (some c)) ||
      p.search (distinct (all.flatMap (residues before c))) (some c) cs

def isFoundIn (p : Pattern) (line : String) : Bool := p.search [] none line.toList

def ofList (ps : List Pattern) : Pattern := ps.foldr andThen empty

/-- Between `least` and `most` times the pattern, or at least `least` times. -/
def repeated (p : Pattern) (least : Nat) (most : Option Nat) : Pattern :=
  let tail :=
    match most with
    | none => star p
    | some most => (List.range (most - least)).foldl (fun rest _ => alt empty (p.andThen rest)) empty
  (List.replicate least p).foldr andThen tail

end Pattern
end ShaderText
