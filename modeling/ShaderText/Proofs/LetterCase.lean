import ShaderText.Proofs.Respelling.Tree

/-! Letter case. A document may be written in capitals. Words are recognised in any case, so its tree
then holds the same texts in capitals, block by block and under the same render states and stencil
fields; only tags whose keys become one are lost. Main statement: a document in capitals has the tree of
the document in capitals, or its error at the same line and column.
-/
namespace ShaderText

theorem toNat_toUpper (c : Char) :
    c.toUpper.toNat = if 97 ≤ c.toNat ∧ c.toNat ≤ 122 then c.toNat - 32 else c.toNat := by
  have lower : ('a'.val ≤ c.val ∧ c.val ≤ 'z'.val) ↔ (97 ≤ c.toNat ∧ c.toNat ≤ 122) := by
    simp only [UInt32.le_iff_toNat_le]
    rfl
  unfold Char.toUpper
  by_cases h : 'a'.val ≤ c.val ∧ c.val ≤ 'z'.val
  · have range := lower.mp h
    rw [dif_pos h, if_pos range]
    have sum : (c.val + ('A'.val - 'a'.val)).toNat = (c.toNat + (2 ^ 32 - 32)) % 2 ^ 32 := UInt32.toNat_add ..
    change (c.val + ('A'.val - 'a'.val)).toNat = _
    omega
  · rw [dif_neg h, if_neg (mt lower.mpr h)]

theorem alike_toUpper (c : Char) : Alike c c.toUpper := by
  apply Char.toNat_inj.mp
  rw [toNat_toLower, toNat_toLower, toNat_toUpper]
  by_cases small : 97 ≤ c.toNat ∧ c.toNat ≤ 122
  · rw [if_pos small, if_neg (by omega), if_pos (by omega)]
    omega
  · rw [if_neg small]

def Respelling.capitals : Respelling where
  image c := [c.toUpper]
  image_alike c := .inr ⟨c.toUpper, rfl, alike_toUpper c⟩

theorem Respelling.string_capitals (text : String) : capitals.string text = text.toUpper := by
  apply String.toList_inj.mp
  rw [toList_string, String.toUpper, String.toList_map]
  exact List.flatMap_pure_eq_map ..

/-- The tags with all keys and values in capitals. Of keys that become one, the last value counts. -/
def Tags.toUpper (t : Tags) : Tags :=
  Tags.empty.insertAll (t.toList.map fun tag => (tag.1.toUpper, tag.2.toUpper))

/-- Whether no two keys become one in capitals. -/
def Tags.StayApart (t : Tags) : Prop := ∀ j ∈ t.keys, ∀ k ∈ t.keys, j.toUpper = k.toUpper → j = k

instance (t : Tags) : Decidable t.StayApart := inferInstanceAs (Decidable (∀ j ∈ t.keys, ∀ k ∈ t.keys, _))

def Block.toUpper (b : Block) : Block where
  tags := b.tags.toUpper
  states := b.states.mapValues String.toUpper
  stencil := b.stencil.mapValues String.toUpper
  program := b.program.map fun lines => lines.map String.toUpper

def Pass.toUpper (p : Pass) : Pass := { p.toBlock.toUpper with name := p.name.map String.toUpper }

def SubShader.toUpper (s : SubShader) : SubShader :=
  { s.toBlock.toUpper with passes := s.passes.map Pass.toUpper }

def Shader.toUpper (s : Shader) : Shader :=
  { s.toBlock.toUpper with
    name := s.name.toUpper
    subShaders := s.subShaders.map SubShader.toUpper }

/-- The error that a document in capitals has: what was found instead of a shader is found in capitals. -/
def ParseError.toUpper (e : ParseError) : ParseError where
  position := e.position
  cause :=
    match e.cause with
    | .missingShader found => .missingShader found.toUpper
    | cause => cause

namespace Respelling

theorem string_capitals_eq : capitals.string = String.toUpper := funext string_capitals

theorem tags_capitals (t : Tags) : capitals.tags t = t.toUpper := by
  rw [tags, Tags.toUpper]
  unfold pair
  rw [string_capitals_eq]

theorem separates_capitals {t : Tags} (h : t.StayApart) : capitals.Separates t := by
  intro j hasJ k hasK same
  rw [string_capitals_eq] at same
  exact h j hasJ k hasK same

theorem block_capitals (b : Block) : capitals.block b = b.toUpper := by
  rw [block, Block.toUpper, tags_capitals, string_capitals_eq]

theorem pass_capitals (p : Pass) : capitals.pass p = p.toUpper := by
  rw [pass, Pass.toUpper, block_capitals, string_capitals_eq]

theorem subShader_capitals (s : SubShader) : capitals.subShader s = s.toUpper := by
  rw [subShader, SubShader.toUpper, block_capitals, funext pass_capitals]

theorem shader_capitals (s : Shader) : capitals.shader s = s.toUpper := by
  rw [shader, Shader.toUpper, block_capitals, funext subShader_capitals, string_capitals]

theorem cause_capitals (e : ParseError) : ParseError.mk e.position (capitals.cause e.cause) = e.toUpper := by
  obtain ⟨position, cause⟩ := e
  cases cause with
  | missingShader found => rw [Respelling.cause, string_capitals, ParseError.toUpper]
  | _ => rfl

end Respelling

theorem Tags.toList_toUpper {t : Tags} (h : t.StayApart) :
    t.toUpper.toList = t.toList.map fun tag => (tag.1.toUpper, tag.2.toUpper) := by
  have respelled := Respelling.toList_tags (Respelling.separates_capitals h)
  rw [Respelling.tags_capitals] at respelled
  rw [respelled]
  unfold Respelling.pair
  rw [Respelling.string_capitals_eq]

/-- A document in capitals says the same in capitals, as long as no two tags of a block become one, and
is wrong in the same way at the same place. -/
theorem Shader.parse_toUpper (document : String) :
    (∀ s, parse document = .ok s → (∀ b ∈ s.blocks, b.tags.StayApart) →
      parse document.toUpper = .ok s.toUpper ∧
        ∀ b ∈ s.blocks, b.toUpper.tags.toList = b.tags.toList.map fun tag => (tag.1.toUpper, tag.2.toUpper)) ∧
    (∀ e, parse document = .error e → parse document.toUpper = .error e.toUpper) := by
  rw [← Respelling.string_capitals]
  constructor
  · intro s parsed apart
    refine ⟨?_, fun b member => Tags.toList_toUpper (apart b member)⟩
    rw [← Respelling.shader_capitals]
    apply Respelling.parse_string parsed
    intro b member
    exact Respelling.separates_capitals (apart b member)
  · intro e parsed
    rw [← Respelling.cause_capitals]
    exact Respelling.parse_string_error parsed

theorem parse_toUpper_pass :
    let document := "shader \"Aé\" \x7b tags \x7b k = \"v\" \x7d subShader \x7b pass \x7b zwrite on\ncgProgram\n a;\nendcg\n\x7d \x7d \x7d"
    let held : Block := ⟨.empty, Settings.empty.insert .zWrite "on", .empty, some ["a;"]⟩
    let s : Shader :=
      { Block.empty with
        tags := Tags.empty.insert "k" "v"
        name := "Aé"
        subShaders := [{ Block.empty with passes := [{ held with name := none }] }] }
    Shader.parse document = .ok s ∧ (∀ b ∈ s.blocks, b.tags.StayApart) ∧
      Shader.parse document.toUpper = .ok s.toUpper ∧
      Shader.parse "\nFoo\"" = .error ⟨⟨2, 1⟩, .missingShader "Foo"⟩ ∧
      Shader.parse "\nFoo\"".toUpper = .error ⟨⟨2, 1⟩, .missingShader "FOO"⟩ := by
  intro document held s
  have parsed : Shader.parse document = .ok s := by decide +kernel
  have apart : ∀ b ∈ s.blocks, b.tags.StayApart := by decide +kernel
  have wrong : Shader.parse "\nFoo\"" = .error ⟨⟨2, 1⟩, .missingShader "Foo"⟩ := by decide +kernel
  have capital : ParseError.toUpper ⟨⟨2, 1⟩, .missingShader "Foo"⟩ = ⟨⟨2, 1⟩, .missingShader "FOO"⟩ := by
    decide +kernel
  refine ⟨parsed, apart, (Shader.parse_toUpper document).1 s parsed apart |>.1, wrong, ?_⟩
  rw [← capital]
  exact (Shader.parse_toUpper "\nFoo\"").2 _ wrong

end ShaderText
