import ShaderText.Text.Bytes

/-! A region is a stretch of a document that knows its own text: the byte offset at which it starts
and its characters. A span is the same stretch by numbers alone. Main statements: cutting a region at
a tail of its text splits the text and keeps both ends where they were.
-/
namespace ShaderText

structure Span where
  start : Nat
  size : Nat
deriving Repr, DecidableEq

namespace Span

/-- The interval from `start` up to `stop`, empty when they are in the wrong order. -/
def between (start stop : Nat) : Span := ⟨start, stop - start⟩

def stop (s : Span) : Nat := s.start + s.size

def isEmpty (s : Span) : Bool := s.size == 0

/-- The text an interval covers, if the document is long enough. -/
def slice? (s : Span) (text : List Char) : Option (List Char) :=
  if s.stop ≤ byteSize text then some (takeBytes s.size (dropBytes s.start text)) else none

end Span

/-- A stretch of a document: where it starts, in bytes, and the characters it holds. -/
structure Region where
  start : Nat
  chars : List Char
deriving Repr, DecidableEq

namespace Region

def whole (text : List Char) : Region := ⟨0, text⟩

/-- The part of a document that an interval covers, cut short at the end of the document. -/
def within (text : List Char) (s : Span) : Region :=
  ⟨s.start, takeBytes s.size (dropBytes s.start text)⟩

def stop (r : Region) : Nat := r.start + byteSize r.chars

def span (r : Region) : Span := ⟨r.start, byteSize r.chars⟩

def text (r : Region) : String := String.ofList r.chars

/-- The part of the region in front of `tail`, a tail of its text. -/
def upTo (r : Region) (tail : List Char) : Region :=
  ⟨r.start, r.chars.take (r.chars.length - tail.length)⟩

/-- The part of the region from `tail` on, a tail of its text. -/
def onward (r : Region) (tail : List Char) : Region := ⟨r.stop - byteSize tail, tail⟩

@[simp] theorem onward_chars (r : Region) (tail : List Char) : (r.onward tail).chars = tail := rfl

theorem upTo_append (start : Nat) (front tail : List Char) :
    Region.upTo ⟨start, front ++ tail⟩ tail = ⟨start, front⟩ := by
  simp [upTo]

theorem onward_append (start : Nat) (front tail : List Char) :
    Region.onward ⟨start, front ++ tail⟩ tail = ⟨start + byteSize front, tail⟩ := by
  simp [onward, stop]
  omega

theorem stop_onward {r : Region} {tail : List Char} (h : tail <:+ r.chars) :
    (r.onward tail).stop = r.stop := by
  obtain ⟨front, h⟩ := h
  cases r with
  | mk start chars =>
    subst h
    simp [onward, stop]
    omega

theorem stop_upTo {r : Region} {tail : List Char} (h : tail <:+ r.chars) :
    (r.upTo tail).stop = (r.onward tail).start := by
  obtain ⟨front, h⟩ := h
  cases r with
  | mk start chars =>
    subst h
    simp [upTo_append, onward_append, stop]

end Region
end ShaderText
