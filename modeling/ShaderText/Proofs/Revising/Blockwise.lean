import Mathlib.Algebra.Order.Ring.Nat
import Mathlib.Data.List.Forall2
import ShaderText.Shader.Edit

/-! Changes that go block by block. Such a change keeps the name of a shader, the number and order of its
sub-shaders and passes, and their names. Main statements: a change of all blocks, or of the blocks of the
passes, relates every block to its own image; and a change at the first line that passes a test leaves all
other lines of the program in their places.
-/
namespace ShaderText

section

variable (outer inner : Block → Block → Prop)

structure Pass.Matches (p q : Pass) : Prop where
  name : q.name = p.name
  block : inner p.toBlock q.toBlock

structure SubShader.Matches (s t : SubShader) : Prop where
  block : outer s.toBlock t.toBlock
  passes : List.Forall₂ (Pass.Matches inner) s.passes t.passes

/-- Whether two shaders differ in their blocks only: the block of the shader and those of its sub-shaders
are related by `outer`, those of the passes by `inner`. -/
structure Shader.Matches (s t : Shader) : Prop where
  name : t.name = s.name
  block : outer s.toBlock t.toBlock
  subShaders : List.Forall₂ (SubShader.Matches outer inner) s.subShaders t.subShaders

end

section

variable {outer inner : Block → Block → Prop} {f : Block → Block}

theorem SubShader.matches_mapPasses (s : SubShader) (own : outer s.toBlock s.toBlock)
    (one : ∀ b, inner b (f b)) : s.Matches outer inner (s.mapPasses f) where
  block := own
  passes := List.forall₂_map_right_iff.mpr (List.forall₂_same.mpr fun p _ => ⟨rfl, one p.toBlock⟩)

theorem Shader.matches_mapBlocks (s : Shader) (one : ∀ b, outer b (f b)) :
    s.Matches outer outer (s.mapBlocks f) where
  name := rfl
  block := one s.toBlock
  subShaders := List.forall₂_map_right_iff.mpr <| List.forall₂_same.mpr fun sub _ =>
    ⟨one sub.toBlock, List.forall₂_map_right_iff.mpr (List.forall₂_same.mpr fun p _ => ⟨rfl, one p.toBlock⟩)⟩

theorem Shader.matches_mapPasses (s : Shader) (one : ∀ b, inner b (f b)) :
    s.Matches Eq inner (s.mapSubShaders (SubShader.mapPasses f)) where
  name := rfl
  block := rfl
  subShaders := List.forall₂_map_right_iff.mpr <| List.forall₂_same.mpr fun sub _ =>
    sub.matches_mapPasses rfl one

end

theorem Shader.mapBlocks_mapBlocks (f g : Block → Block) (s : Shader) :
    (s.mapBlocks f).mapBlocks g = s.mapBlocks fun b => g (f b) := by
  simp [Shader.mapBlocks, Shader.mapBlock, Shader.mapSubShaders, SubShader.mapBlocks, SubShader.mapBlock,
    SubShader.mapPasses, Pass.mapBlock, Function.comp_def]

/-- What is counted in all blocks, level by level: in the shader, in its sub-shaders and in their passes. -/
def Shader.total (count : Block → Nat) (s : Shader) : Nat :=
  count s.toBlock +
    (s.subShaders.map fun sub => count sub.toBlock + (sub.passes.map fun p => count p.toBlock).sum).sum

theorem Shader.sum_blocks (count : Block → Nat) (s : Shader) : (s.blocks.map count).sum = s.total count := by
  simp [Shader.blocks, SubShader.blocks, Shader.total, List.flatMap_def, List.sum_flatten,
    Function.comp_def]

/-- What becomes of a block if its first line that passes the test, if there is one, gives way to the
lines that `put` answers for it. -/
inductive Block.ChangedAtFirst (test : String → Bool) (put : String → List String) (b : Block) : Block → Prop
  | found {front back : List String} {line : String} (program : b.program = some (front ++ line :: back))
      (first : ∀ other ∈ front, test other = false) (passes : test line) :
      ChangedAtFirst test put b { b with program := some (front ++ put line ++ back) }
  | absent (absent : ∀ line ∈ b.lines, test line = false) : ChangedAtFirst test put b b

section

variable {b : Block} {test : String → Bool} {front back : List String} {line : String}

theorem Block.first_or_absent (b : Block) (test : String → Bool) :
    (∃ front line back, b.program = some (front ++ line :: back) ∧ (∀ other ∈ front, test other = false) ∧
      test line) ∨ ∀ line ∈ b.lines, test line = false := by
  by_cases absent : ∀ line ∈ b.lines, test line = false
  · exact .inr absent
  · refine .inl ?_
    cases program : b.program with
    | none => exact absurd (by simp [Block.lines, program]) absent
    | some lines =>
      simp only [Block.lines, program, Option.getD_some, not_forall, Bool.not_eq_false] at absent
      obtain ⟨line, member, passes⟩ := absent
      obtain ⟨first, found⟩ := Option.isSome_iff_exists.mp (List.find?_isSome.mpr ⟨line, member, passes⟩)
      obtain ⟨passes, front, back, rfl, clear⟩ := List.find?_eq_some_iff_append.mp found
      exact ⟨front, first, back, rfl, fun other member => by simpa using clear other member, passes⟩

theorem Block.ChangedAtFirst.of_cases {put : String → List String} {c : Block}
    (found : ∀ {front back : List String} {line : String}, b.program = some (front ++ line :: back) →
      (∀ other ∈ front, test other = false) → test line →
      c = { b with program := some (front ++ put line ++ back) })
    (absent : (∀ line ∈ b.lines, test line = false) → c = b) : b.ChangedAtFirst test put c := by
  rcases b.first_or_absent test with ⟨front, line, back, program, first, passes⟩ | clear
  · rw [found program first passes]
    exact .found program first passes
  · rw [absent clear]
    exact .absent clear

theorem Block.lineIndex?_of_first (program : b.program = some (front ++ line :: back))
    (first : ∀ other ∈ front, test other = false) (passes : test line) :
    b.lineIndex? test = some front.length := by
  have none : front.findIdx? test = none := List.findIdx?_eq_none_iff.mpr first
  simp [Block.lineIndex?, program, List.findIdx?_append, none, List.findIdx?_cons, passes]

theorem Block.lineIndex?_of_absent (absent : ∀ line ∈ b.lines, test line = false) :
    b.lineIndex? test = none := by
  cases program : b.program with
  | none => simp [Block.lineIndex?, program]
  | some lines =>
    rw [Block.lineIndex?, program]
    exact List.findIdx?_eq_none_iff.mpr (by simpa [Block.lines, program] using absent)

end

end ShaderText
