/-! A page is text under construction: what has been written and how deep the next line stands. Every
line is written with four spaces for each level, an empty line with none.
-/
namespace ShaderText

structure Page where
  text : String
  depth : Nat
deriving Repr, DecidableEq

namespace Page

def blank : Page := ⟨"", 0⟩

def margin (depth : Nat) : String := String.ofList (List.replicate (4 * depth) ' ')

def line (p : Page) (content : String) : Page :=
  { p with text := p.text ++ (if content.isEmpty then "" else margin p.depth ++ content) ++ "\n" }

def lines (p : Page) (contents : List String) : Page := contents.foldl line p

def indent (p : Page) : Page := { p with depth := p.depth + 1 }

def outdent (p : Page) : Page := { p with depth := p.depth - 1 }

/-- A word and an opening brace on lines of their own; what follows stands one level deeper. -/
def openBlock (p : Page) (word : String) : Page := ((p.line word).line "\x7b").indent

def closeBlock (p : Page) : Page := p.outdent.line "\x7d"

end Page
end ShaderText
