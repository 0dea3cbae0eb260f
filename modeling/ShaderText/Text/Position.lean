import ShaderText.Text.Bytes

/-! Lines and columns. Both count from one; a column counts bytes from the start of its line, and a
line ends after its line feed.
-/
namespace ShaderText

structure Position where
  line : Nat
  column : Nat
deriving Repr, DecidableEq

namespace Position

def origin : Position := ⟨1, 1⟩

def advance (p : Position) (c : Char) : Position :=
  if c = '\n' then ⟨p.line + 1, 1⟩ else ⟨p.line, p.column + c.utf8Size⟩

/-- The position `offset` bytes further, or at the end of the text if that comes first. -/
def forward (p : Position) : Nat → List Char → Position
  | _, [] => p
  | offset, c :: cs =>
    if c.utf8Size ≤ offset then (p.advance c).forward (offset - c.utf8Size) cs
    else ⟨p.line, p.column + offset⟩

def ofOffset (text : List Char) (offset : Nat) : Position := origin.forward offset text

theorem forward_byteSize_append (p : Position) (a b : List Char) :
    p.forward (byteSize a) (a ++ b) = a.foldl advance p := by
  induction a generalizing p with
  | nil =>
    cases b with
    | nil => rfl
    | cons c cs => simp [forward, Nat.not_le.mpr c.utf8Size_pos]
  | cons c cs ih => simp [forward, ih]

end Position
end ShaderText
