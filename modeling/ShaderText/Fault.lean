import ShaderText.Text.Position
import ShaderText.Word

/-! What can be wrong with a document. A fault is a cause at a byte offset; a parse error is the same
cause at a line and column. Only a missing or unterminated block is recoverable: the parent of the
statement may then drop it and go on.
-/
namespace ShaderText

inductive Cause
  /-- The first statement is `found` instead of a shader. -/
  | missingShader (found : String)
  /-- The word is not followed by a block. -/
  | missingBlock (word : String)
  /-- The block after the word is never closed. -/
  | unterminatedBlock (word : String)
  /-- No line after the sentinel starts with its closing word. -/
  | unterminatedProgram (sentinel : Sentinel)
  /-- A tag is not a key, an equals sign and a value. -/
  | malformedTags
  /-- The document holds nothing but spaces and comments. -/
  | endOfText
deriving Repr, DecidableEq

namespace Cause

def message : Cause → String
  | missingShader found => s!"expected 'Shader' at document start (got '{found}')"
  | missingBlock word => s!"missing block after '{word}'"
  | unterminatedBlock word => s!"unterminated block '{word}'"
  | unterminatedProgram s => s!"no matching {s.closing} for {s.word}"
  | malformedTags => "malformed Tags block (expected \"key\" = \"value\" pairs)"
  | endOfText => "unexpected EOF"

def isRecoverable : Cause → Bool
  | missingBlock _ | unterminatedBlock _ => true
  | _ => false

end Cause

structure Fault where
  offset : Nat
  cause : Cause
deriving Repr, DecidableEq

structure ParseError where
  position : Position
  cause : Cause
deriving Repr, DecidableEq

/-- The error that a fault is to a reader of the document. -/
def Fault.locate (f : Fault) (document : List Char) : ParseError :=
  ⟨Position.ofOffset document f.offset, f.cause⟩

def ParseError.message (e : ParseError) : String :=
  s!"{e.position.line}:{e.position.column} {e.cause.message}"

end ShaderText
