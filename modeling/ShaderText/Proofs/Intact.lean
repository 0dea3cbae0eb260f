import ShaderText.Proofs.Alignment
import ShaderText.Proofs.Rows
import ShaderText.Proofs.Values

/-! Trees that survive writing. In an intact tree the names and tags are string bodies, every other
value is a single value, no program line looks like the end of the program, and the braces around the
contents of every block close each other. A tree is realigned when each program is without the
indentation that its lines share. Main statement: every test is decidable.
-/
namespace ShaderText

def Settings.IsIntact {κ : Type} [WordFamily κ] (s : Settings κ) : Prop :=
  ∀ entry ∈ s.entries, isSingleValue entry.2.toList

def Tags.IsIntact (t : Tags) : Prop := ∀ pair ∈ t.toList, IsStringBody pair.1 ∧ IsStringBody pair.2

/-- The text that a block of rows has around its braces when nothing is indented. -/
def flushText (rows : List Row) : List Char := '\n' :: rowsText 0 rows

/-- The word that ends every program that is written. -/
def writtenClosing : List Char := Sentinel.closing .hlslProgram |>.toList

theorem writtenClosing_ne_nil : writtenClosing ≠ [] := by decide

theorem not_isSpace_writtenClosing : ∀ c ∈ writtenClosing, isSpace c = false := by
  have all : writtenClosing.all (fun c => !isSpace c) := by decide
  simpa using all

/-- Whether a program line is one line, and not read as the end of the program. -/
def isProgramLine (line : String) : Bool :=
  !line.toList.contains '\n' && !sameWord (firstWord line.toList) writtenClosing

structure Block.IsIntact (b : Block) : Prop where
  tags : b.tags.IsIntact
  states : b.states.IsIntact
  stencil : b.stencil.IsIntact
  stencilCloses : Closes (flushText b.stencil.rows)
  program : ∀ lines ∈ b.program, ∀ line ∈ lines, isProgramLine line

structure Pass.IsIntact (p : Pass) : Prop where
  name : ∀ name ∈ p.name, IsStringBody name
  block : p.toBlock.IsIntact
  closes : Closes (flushText p.innerRows)

structure SubShader.IsIntact (s : SubShader) : Prop where
  block : s.toBlock.IsIntact
  passes : ∀ p ∈ s.passes, p.IsIntact
  closes : Closes (flushText s.innerRows)

structure Shader.IsIntact (s : Shader) : Prop where
  name : IsStringBody s.name
  block : s.toBlock.IsIntact
  subShaders : ∀ sub ∈ s.subShaders, sub.IsIntact
  closes : Closes (flushText s.innerRows)

instance {κ : Type} [WordFamily κ] (s : Settings κ) : Decidable s.IsIntact :=
  inferInstanceAs (Decidable (∀ entry ∈ s.entries, _))

instance (t : Tags) : Decidable t.IsIntact := inferInstanceAs (Decidable (∀ pair ∈ t.toList, _))

instance (b : Block) : Decidable b.IsIntact :=
  decidable_of_iff (b.tags.IsIntact ∧ b.states.IsIntact ∧ b.stencil.IsIntact ∧
      Closes (flushText b.stencil.rows) ∧ ∀ lines ∈ b.program, ∀ line ∈ lines, isProgramLine line)
    ⟨fun ⟨tags, states, stencil, closes, program⟩ => ⟨tags, states, stencil, closes, program⟩,
      fun ⟨tags, states, stencil, closes, program⟩ => ⟨tags, states, stencil, closes, program⟩⟩

instance (p : Pass) : Decidable p.IsIntact :=
  decidable_of_iff ((∀ name ∈ p.name, IsStringBody name) ∧ p.toBlock.IsIntact ∧
    Closes (flushText p.innerRows))
    ⟨fun ⟨name, block, closes⟩ => ⟨name, block, closes⟩,
      fun ⟨name, block, closes⟩ => ⟨name, block, closes⟩⟩

instance (s : SubShader) : Decidable s.IsIntact :=
  decidable_of_iff (s.toBlock.IsIntact ∧ (∀ p ∈ s.passes, p.IsIntact) ∧ Closes (flushText s.innerRows))
    ⟨fun ⟨block, passes, closes⟩ => ⟨block, passes, closes⟩,
      fun ⟨block, passes, closes⟩ => ⟨block, passes, closes⟩⟩

instance (s : Shader) : Decidable s.IsIntact :=
  decidable_of_iff (IsStringBody s.name ∧ s.toBlock.IsIntact ∧ (∀ sub ∈ s.subShaders, sub.IsIntact) ∧
      Closes (flushText s.innerRows))
    ⟨fun ⟨name, block, subs, closes⟩ => ⟨name, block, subs, closes⟩,
      fun ⟨name, block, subs, closes⟩ => ⟨name, block, subs, closes⟩⟩

def realign (lines : List String) : List String := (align (lines.map String.toList)).map String.ofList

def Block.realigned (b : Block) : Block := { b with program := b.program.map realign }

def Pass.realigned (p : Pass) : Pass := { p with toBlock := p.toBlock.realigned }

def SubShader.realigned (s : SubShader) : SubShader :=
  { toBlock := s.toBlock.realigned, passes := s.passes.map Pass.realigned }

def Shader.realigned (s : Shader) : Shader :=
  { toBlock := s.toBlock.realigned, name := s.name, subShaders := s.subShaders.map SubShader.realigned }

theorem realign_realign (lines : List String) : realign (realign lines) = realign lines := by
  unfold realign
  rw [List.map_map]
  have same : String.toList ∘ String.ofList = id := by
    funext cs
    simp
  rw [same, List.map_id, align_align]

end ShaderText
