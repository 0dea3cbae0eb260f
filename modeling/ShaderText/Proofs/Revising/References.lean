import ShaderText.Proofs.Revising.Blockwise
import ShaderText.Proofs.Revising.ClosedForm

/-! References that are replaced more than once. A substitution looks every value up once, so a text that is
itself a reference waits for the next substitution. Main statement: two substitutions in turn are one, which
sends a key of the first to its text, looked up once in the second; each reports the number of references
to its keys, and changes nothing but their values.
-/
namespace ShaderText

namespace Substitution

/-- Whether a value is a reference to one of the keys. -/
def Binds (σ : Substitution) (value : String) : Prop :=
  ∃ name text, name ≠ "" ∧ value = "[" ++ name ++ "]" ∧ σ name = some text

/-- What a value becomes: the text for the name that it refers to, or the value itself. -/
inductive Sends (σ : Substitution) : String → String → Prop
  | bound {name text : String} (named : name ≠ "") (known : σ name = some text) :
      Sends σ ("[" ++ name ++ "]") text
  | free {value : String} (free : ¬σ.Binds value) : Sends σ value value

/-- A substitution and then another. A text of the first that refers to a key of the second is replaced by
the text for this key; the keys that only the second has keep their texts. -/
def andThen (σ τ : Substitution) : Substitution := fun name =>
  match σ name with
  | none => τ name
  | some text =>
    match reference? text with
    | none => some text
    | some other => some ((τ other).getD text)

variable {σ τ : Substitution} {value : String}

theorem binds_iff : σ.Binds value ↔ (σ.replacement? value).isSome := by
  rw [replacement?, Option.isSome_iff_exists]
  constructor
  · rintro ⟨name, text, named, bracketed, known⟩
    exact ⟨text, Option.bind_eq_some_iff.mpr ⟨name, reference?_eq_some_iff.mpr ⟨named, bracketed⟩, known⟩⟩
  · rintro ⟨text, found⟩
    obtain ⟨name, refers, known⟩ := Option.bind_eq_some_iff.mp found
    obtain ⟨named, bracketed⟩ := reference?_eq_some_iff.mp refers
    exact ⟨name, text, named, bracketed, known⟩

instance (σ : Substitution) (value : String) : Decidable (σ.Binds value) := decidable_of_iff' _ binds_iff

theorem apply_of_not_binds (free : ¬σ.Binds value) : σ.apply value = value := by
  rw [binds_iff, Bool.not_eq_true, Option.isSome_eq_false_iff, Option.isNone_iff_eq_none] at free
  rw [apply, free, Option.getD_none]

theorem sends_apply (σ : Substitution) (value : String) : σ.Sends value (σ.apply value) := by
  by_cases bound : σ.Binds value
  · obtain ⟨name, text, named, rfl, known⟩ := bound
    have refers : reference? ("[" ++ name ++ "]") = some name := reference?_eq_some_iff.mpr ⟨named, rfl⟩
    have found : σ.apply ("[" ++ name ++ "]") = text := by simp [apply, replacement?, refers, known]
    rw [found]
    exact .bound named known
  · rw [apply_of_not_binds bound]
    exact .free bound

theorem apply_andThen (σ τ : Substitution) (value : String) :
    (σ.andThen τ).apply value = τ.apply (σ.apply value) := by
  cases refers : reference? value with
  | none => simp [apply, replacement?, refers]
  | some name =>
    cases known : σ name with
    | none => simp [apply, replacement?, refers, known, andThen]
    | some text => cases next : reference? text <;> simp [apply, replacement?, refers, known, andThen, next]

/-- Whether no text of the substitution refers to one of its keys. -/
def IsSettled (σ : Substitution) : Prop := ∀ name text, σ name = some text → ¬σ.Binds text

theorem IsSettled.not_binds_apply (settled : σ.IsSettled) (value : String) : ¬σ.Binds (σ.apply value) := by
  have sent := sends_apply σ value
  generalize σ.apply value = next at sent
  cases sent with
  | bound _ known => exact settled _ _ known
  | free free => exact free

theorem IsSettled.andThen_self (settled : σ.IsSettled) : σ.andThen σ = σ := by
  funext name
  cases known : σ name with
  | none => simp [andThen, known]
  | some text =>
    cases refers : reference? text with
    | none => simp [andThen, known, refers]
    | some other =>
      have free := settled name text known
      rw [binds_iff, replacement?, refers] at free
      have unknown : σ other = none := by simpa using free
      simp [andThen, known, refers, unknown]

end Substitution

section

variable {κ : Type}

theorem Settings.mapValues_mapValues (f g : String → String) (s : Settings κ) :
    (s.mapValues f).mapValues g = s.mapValues fun value => g (f value) := by
  simp [Settings.mapValues, Function.comp_def]

theorem Settings.entries_mapValues [WordFamily κ] (f : String → String) (s : Settings κ) :
    (s.mapValues f).entries = s.entries.map fun entry => (entry.1, f entry.2) := by
  simp [Settings.entries, Settings.mapValues, List.map_filterMap, Function.comp_def]

theorem Tags.mapValues_mapValues (f g : String → String) (t : Tags) :
    (t.mapValues f).mapValues g = t.mapValues fun value => g (f value) := by
  simp [Tags.mapValues, Function.comp_def]

end

namespace Block

/-- A block with the values that a substitution sends its values to, and everything else as it was. -/
structure Revalued (σ : Substitution) (b c : Block) : Prop where
  tags : List.Forall₂ (fun before after => after.1 = before.1 ∧ σ.Sends before.2 after.2)
    b.tags.toList c.tags.toList
  states : ∀ k, Option.Rel σ.Sends (b.states.get? k) (c.states.get? k)
  stencil : ∀ k, Option.Rel σ.Sends (b.stencil.get? k) (c.stencil.get? k)
  program : c.program = b.program

def countBound (σ : Substitution) (b : Block) : Nat :=
  (b.states.entries.countP fun entry => σ.Binds entry.2) +
    (b.stencil.entries.countP fun entry => σ.Binds entry.2) +
    b.tags.toList.countP fun pair => σ.Binds pair.2

variable (σ τ : Substitution) (b : Block)

theorem revalued_substitute : b.Revalued σ (b.substitute σ) where
  tags := List.forall₂_map_right_iff.mpr (List.forall₂_same.mpr fun _ _ => ⟨rfl, σ.sends_apply _⟩)
  states k := by
    change Option.Rel σ.Sends (b.states.get? k) ((b.states.get? k).map σ.apply)
    cases b.states.get? k with
    | none => exact .none
    | some value => exact .some (σ.sends_apply value)
  stencil k := by
    change Option.Rel σ.Sends (b.stencil.get? k) ((b.stencil.get? k).map σ.apply)
    cases b.stencil.get? k with
    | none => exact .none
    | some value => exact .some (σ.sends_apply value)
  program := rfl

theorem substitute_substitute : (b.substitute σ).substitute τ = b.substitute (σ.andThen τ) := by
  simp only [substitute, Settings.mapValues_mapValues, Tags.mapValues_mapValues, ← Substitution.apply_andThen]

theorem values_substitute : (b.substitute σ).values = b.values.map σ.apply := by
  simp [values, substitute, Settings.entries_mapValues, Tags.mapValues, Function.comp_def]

theorem count_values : σ.count b.values = b.countBound σ := by
  simp [Substitution.count, values, countBound, List.countP_append, List.countP_map, Function.comp_def,
    Substitution.binds_iff, Nat.add_assoc]

end Block

namespace Shader

theorem countReplaced_eq_total (σ : Substitution) (s : Shader) :
    s.countReplaced σ = s.total (Block.countBound σ) := by
  rw [countReplaced, ← sum_blocks, Substitution.count, List.countP_flatMap]
  exact congrArg List.sum (List.map_congr_left fun b _ => b.count_values σ)

theorem blocks_mapBlocks (f : Block → Block) (s : Shader) : (s.mapBlocks f).blocks = s.blocks.map f := by
  simp [blocks, SubShader.blocks, mapBlocks, mapBlock, mapSubShaders, SubShader.mapBlocks, SubShader.mapBlock,
    SubShader.mapPasses, Pass.mapBlock, List.flatMap_map, List.map_flatMap, Function.comp_def]

theorem countReplaced_substitute {σ : Substitution} (settled : σ.IsSettled) (s : Shader) :
    (s.substitute σ).countReplaced σ = 0 := by
  rw [countReplaced, substitute, blocks_mapBlocks, List.flatMap_map, Substitution.count, List.countP_eq_zero]
  intro value member
  obtain ⟨b, _, inBlock⟩ := List.mem_flatMap.mp member
  rw [Block.values_substitute] at inBlock
  obtain ⟨before, _, rfl⟩ := List.mem_map.mp inBlock
  rw [← Substitution.binds_iff]
  exact settled.not_binds_apply before

theorem substitute_substitute (σ τ : Substitution) (s : Shader) :
    (s.substitute σ).substitute τ = s.substitute (σ.andThen τ) := by
  rw [substitute, substitute, mapBlocks_mapBlocks]
  exact congrArg (s.mapBlocks ·) (funext fun b => b.substitute_substitute σ τ)

/-- Two substitutions in turn are one. Each reports how many values it replaces and replaces no others; a
settled one finds nothing to replace when it is made again. -/
theorem substitutions_compose (σ τ : Substitution) (s : Shader) :
    (s.substitute σ).substitute τ = s.substitute (σ.andThen τ) ∧
      s.countReplaced σ = s.total (Block.countBound σ) ∧
      s.Matches (Block.Revalued σ) (Block.Revalued σ) (s.substitute σ) ∧
      (σ.IsSettled → (s.substitute σ).countReplaced σ = 0 ∧ (s.substitute σ).substitute σ = s.substitute σ) := by
  refine ⟨substitute_substitute σ τ s, countReplaced_eq_total σ s,
    s.matches_mapBlocks (Block.revalued_substitute σ), fun settled => ⟨countReplaced_substitute settled s, ?_⟩⟩
  rw [substitute_substitute, settled.andThen_self]

/-- A reference to a reference: the first substitution leaves it to the second. -/
theorem substitutions_compose_feature :
    let σ : Substitution := .ofPairs [("_Mode", "[_Queue]"), ("_Cull", "Off")]
    let τ : Substitution := .ofPairs [("_Queue", "Geometry"), ("_Mode", "Opaque")]
    let s := Revision.featureShader (Tags.empty.insert "Queue" "[_Queue]")
      ((Tags.empty.insert "LightMode" "[_Mode]").insert "Name" "_Mode") [] [Pass.named none]
    σ.IsSettled ∧ s.countReplaced σ = 1 ∧ (s.substitute σ).countReplaced τ = 2 ∧
      (s.substitute σ).substitute τ = Revision.featureShader (Tags.empty.insert "Queue" "Geometry")
        ((Tags.empty.insert "LightMode" "Geometry").insert "Name" "_Mode") [] [Pass.named none] ∧
      (s.substitute σ).substitute σ = s.substitute σ := by
  intro σ τ s
  have settled : σ.IsSettled := by
    intro name text known
    have listed : (name, text) = ("_Cull", "Off") ∨ (name, text) = ("_Mode", "[_Queue]") := by
      by_cases cull : name = "_Cull"
      · subst cull
        exact .inl (congrArg _ (Option.some.inj known).symm)
      · by_cases mode : name = "_Mode"
        · subst mode
          exact .inr (congrArg _ (Option.some.inj known).symm)
        · simp [σ, Substitution.ofPairs, List.lookup_cons, beq_false_of_ne cull, beq_false_of_ne mode] at known
    rcases listed with equal | equal
    · obtain ⟨rfl, rfl⟩ := Prod.mk.inj equal
      decide +kernel
    · obtain ⟨rfl, rfl⟩ := Prod.mk.inj equal
      decide +kernel
  obtain ⟨composed, counted, -, again⟩ := substitutions_compose σ τ s
  refine ⟨settled, by rw [counted]; decide +kernel, ?_, by rw [composed]; decide +kernel, (again settled).2⟩
  rw [(substitutions_compose τ τ (s.substitute σ)).2.1]
  decide +kernel

end Shader
end ShaderText
