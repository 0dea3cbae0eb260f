import Mathlib.Data.List.Induction
import Mathlib.Data.List.Infix
import ShaderText.Proofs.Revising.Files

/-! Revisions without files. Such a revision changes a shader in one sweep: which passes stay, which lines
a program has, which tags and values a block has can each be said at once. Main statement: a revision
without files succeeds and leaves the shader of this closed form, and all that the form does not mention
is as it was.
-/
namespace ShaderText

namespace Revision

/-- The program of a revised pass: the definitions, then the lines that hold none of the stripped parts. -/
def programOf (r : Revision) : Option (List String) → Option (List String)
  | .none => if r.defines = [] then .none else some r.defines
  | some lines =>
    some (r.defines ++ lines.filter fun line => ∀ part ∈ r.strip, ¬part.toList <:+: line.toList)

/-- The text for a value that is a bound name in brackets, and else the value. Of two bindings of a name
the later one counts. -/
def boundText (bindings : List (String × String)) (value : String) : String :=
  ((bindings.reverse.find? fun binding => value == "[" ++ binding.1 ++ "]").map Prod.snd).getD value

def mapValues (f : String → String) (b : Block) : Block :=
  { b with states := b.states.mapValues f, stencil := b.stencil.mapValues f, tags := b.tags.mapValues f }

def revisedPass (r : Revision) (f : String → String) (p : Pass) : Pass :=
  { mapValues f { p.toBlock with program := r.programOf p.program } with name := p.name }

def revisedSubShader (r : Revision) (f : String → String) (sub : SubShader) : SubShader :=
  { mapValues f { sub.toBlock with tags := sub.tags.insertAll r.tags } with
    passes := (sub.passes.filter fun p => ∀ name ∈ r.removePasses, p.name ≠ some name).map (r.revisedPass f) }

/-- The shader that a revision without files leaves, if `f` gives the new values. -/
def revisedWith (r : Revision) (f : String → String) (s : Shader) : Shader :=
  { mapValues f s.toBlock with name := s.name, subShaders := s.subShaders.map (r.revisedSubShader f) }

/-- The bindings that a reference can name. -/
def namedBindings (r : Revision) : List (String × String) := r.bindings.filter fun binding => binding.1 ≠ ""

end Revision

section

variable {α : Type} (xs : List α)

theorem Shader.foldl_mapSubShaders (change : SubShader → α → SubShader) (s : Shader) :
    xs.foldl (fun s x => s.mapSubShaders fun sub => change sub x) s =
      s.mapSubShaders fun sub => xs.foldl change sub := by
  induction xs generalizing s with
  | nil => simp [Shader.mapSubShaders]
  | cons x rest ih =>
    rw [List.foldl_cons, ih]
    simp [Shader.mapSubShaders, Function.comp_def]

theorem SubShader.foldl_mapPasses (change : Block → α → Block) (sub : SubShader) :
    xs.foldl (fun sub x => sub.mapPasses fun b => change b x) sub =
      sub.mapPasses fun b => xs.foldl change b := by
  induction xs generalizing sub with
  | nil =>
    have same : Pass.mapBlock (fun b => b) = id := rfl
    simp [SubShader.mapPasses, same]
  | cons x rest ih =>
    rw [List.foldl_cons, ih]
    simp [SubShader.mapPasses, Pass.mapBlock, Function.comp_def]

end

theorem SubShader.foldl_addTag (tags : List (String × String)) (sub : SubShader) :
    tags.foldl (fun sub tag => sub.addTag tag.1 tag.2) sub =
      { sub with tags := sub.tags.insertAll tags } := by
  induction tags generalizing sub with
  | nil => rfl
  | cons tag rest ih =>
    rw [List.foldl_cons, ih]
    rfl

theorem SubShader.foldl_removePass (names : List String) (sub : SubShader) :
    names.foldl SubShader.removePass sub =
      { sub with passes := sub.passes.filter fun p => ∀ name ∈ names, p.name ≠ some name } := by
  induction names generalizing sub with
  | nil =>
    rw [List.filter_eq_self.mpr fun p _ => by simp]
    rfl
  | cons name rest ih =>
    have kept (p : Pass) : (decide (∀ name ∈ rest, p.name ≠ some name) && p.name != some name) =
        decide (∀ other ∈ name :: rest, p.name ≠ some other) := by
      rw [Bool.eq_iff_iff]
      simp [and_comm]
    rw [List.foldl_cons, ih]
    simp only [SubShader.removePass, List.filter_filter, kept]

theorem Block.foldl_removeLines (parts : List String) (b : Block) :
    parts.foldl Block.removeLines b =
      { b with
        program := b.program.map fun lines =>
          lines.filter fun line => ∀ part ∈ parts, ¬part.toList <:+: line.toList } := by
  induction parts generalizing b with
  | nil =>
    have same (lines : List String) :
        (lines.filter fun line => ∀ part ∈ ([] : List String), ¬part.toList <:+: line.toList) = lines :=
      List.filter_eq_self.mpr fun line _ => by simp
    simp only [same, Option.map_id']
    rfl
  | cons part rest ih =>
    have kept (line : String) :
        (decide (∀ part ∈ rest, ¬part.toList <:+: line.toList) && !holds part.toList line.toList) =
          decide (∀ other ∈ part :: rest, ¬other.toList <:+: line.toList) := by
      rw [Bool.eq_iff_iff]
      simp [← holds_iff, and_comm]
    rw [List.foldl_cons, ih]
    simp only [Block.removeLines, Option.map_map, Function.comp_def, List.filter_filter, kept]

/-- Each definition goes behind those before it, whose number is its index. -/
theorem Block.foldl_insertLine (defines : List String) (b : Block) :
    defines.zipIdx.foldl (fun b entry => b.insertLine (some entry.2) entry.1) b =
      { b with program := if defines = [] then b.program else some (defines ++ b.lines) } := by
  induction defines using List.reverseRecOn with
  | nil => rfl
  | append_singleton front last ih =>
    rw [List.zipIdx_append, List.foldl_append, ih]
    by_cases first : front = []
    · subst first
      simp [Block.insertLine, Block.insertLines, Block.lines]
    · simp [first, Block.insertLine, Block.insertLines, Block.lines]

theorem reference?_eq_some_iff {value name : String} :
    reference? value = some name ↔ name ≠ "" ∧ value = "[" ++ name ++ "]" := by
  have bracketed : value = "[" ++ name ++ "]" ↔ value.toList = '[' :: (name.toList ++ [']']) := by
    rw [← String.toList_inj]
    simp [String.toList_append]
  have named : name ≠ "" ↔ name.toList ≠ [] := by
    rw [ne_eq, ← String.toList_inj]
    rfl
  rw [bracketed, named, reference?]
  constructor
  · intro h
    split at h
    · rename_i rest chars
      split at h
      · rename_i closed
        simp only [Bool.and_eq_true, decide_eq_true_eq] at closed
        obtain ⟨front, rfl⟩ := List.getLast?_eq_some_iff.mp closed.1
        obtain rfl := Option.some.inj h
        have long : 0 < front.length := by simpa using closed.2
        exact ⟨by simpa using List.ne_nil_of_length_pos long, by simp [chars]⟩
      · simp at h
    · simp at h
  · rintro ⟨filled, chars⟩
    have long := List.length_pos_iff.mpr filled
    simp [chars, long]

theorem lookup_reference?_eq_find? (value : String) (entries : List (String × String)) :
    (reference? value).bind (fun name => entries.lookup name) =
      ((entries.filter fun entry => entry.1 ≠ "").find? fun entry =>
        value == "[" ++ entry.1 ++ "]").map Prod.snd := by
  induction entries with
  | nil => cases reference? value <;> rfl
  | cons entry rest ih =>
    obtain ⟨key, text⟩ := entry
    by_cases here : reference? value = some key
    · obtain ⟨named, bracketed⟩ := reference?_eq_some_iff.mp here
      rw [here, bracketed]
      simp [named]
    · have apart : key ≠ "" → value ≠ "[" ++ key ++ "]" :=
        fun named bracketed => here (reference?_eq_some_iff.mpr ⟨named, bracketed⟩)
      have later : (reference? value).bind (fun name => ((key, text) :: rest).lookup name) =
          (reference? value).bind fun name => rest.lookup name := by
        cases named : reference? value with
        | none => rfl
        | some name =>
          have other : name ≠ key := fun equal => here (equal ▸ named)
          simp [List.lookup_cons, beq_false_of_ne other]
      rw [later, ih]
      by_cases named : key = ""
      · simp [named]
      · simp [named, apart named]

theorem Substitution.apply_ofPairs_eq (bindings : List (String × String)) (value : String) :
    (ofPairs bindings).apply value =
      Revision.boundText (bindings.filter fun binding => binding.1 ≠ "") value := by
  rw [apply, replacement?, Revision.boundText, ← List.filter_reverse, ← lookup_reference?_eq_find?]
  rfl

namespace Revision

/-- Lines are dropped before the definitions go in, so no definition is dropped. -/
theorem foldl_program (r : Revision) (b : Block) :
    r.defines.zipIdx.foldl (fun b entry => b.insertLine (some entry.2) entry.1)
      (r.strip.foldl Block.removeLines b) = { b with program := r.programOf b.program } := by
  rw [Block.foldl_removeLines, Block.foldl_insertLine]
  cases program : b.program with
  | none => simp [programOf, Block.lines]
  | some lines => by_cases empty : r.defines = [] <;> simp [programOf, Block.lines, empty]

theorem foldl_openingSteps (r : Revision) (read : Reader) (s : Shader) :
    r.openingSteps.foldl (Step.effect read) s =
      s.mapSubShaders fun sub =>
        { sub with
          passes := (sub.passes.filter fun p => ∀ name ∈ r.removePasses, p.name ≠ some name).map
            (Pass.mapBlock fun b => { b with program := r.programOf b.program }) } := by
  have removed (s : Shader) : (r.removePasses.map Step.removePass).foldl (Step.effect read) s =
      s.mapSubShaders fun sub => r.removePasses.foldl SubShader.removePass sub := by
    rw [List.foldl_map]
    exact Shader.foldl_mapSubShaders r.removePasses SubShader.removePass s
  have stripped (s : Shader) : (r.strip.map Step.strip).foldl (Step.effect read) s =
      s.mapSubShaders fun sub => sub.mapPasses fun b => r.strip.foldl Block.removeLines b := by
    simp only [List.foldl_map, ← SubShader.foldl_mapPasses]
    exact Shader.foldl_mapSubShaders r.strip SubShader.removeLines s
  have defined (s : Shader) : (r.defines.mapIdx Step.define).foldl (Step.effect read) s =
      s.mapSubShaders fun sub => sub.mapPasses fun b =>
        r.defines.zipIdx.foldl (fun b entry => b.insertLine (some entry.2) entry.1) b := by
    simp only [List.mapIdx_eq_zipIdx_map, List.foldl_map, ← SubShader.foldl_mapPasses]
    exact Shader.foldl_mapSubShaders r.defines.zipIdx
      (fun sub entry => sub.insertLine (some entry.2) entry.1) s
  rw [openingSteps, List.foldl_append, List.foldl_append, removed, stripped, defined]
  simp [Shader.mapSubShaders, SubShader.mapPasses, SubShader.foldl_removePass, Pass.mapBlock, foldl_program,
    Function.comp_def]

theorem mapBlocks_mapValues_id (s : Shader) : s.mapBlocks (mapValues id) = s := by
  have block (b : Block) : mapValues id b = b := by
    cases b with
    | mk tags states stencil program => simp [mapValues, Tags.mapValues, Settings.mapValues]
  have pass : Pass.mapBlock (mapValues id) = id := funext fun p => by simp [Pass.mapBlock, block]
  have subShader : SubShader.mapBlocks (mapValues id) = id :=
    funext fun sub => by simp [SubShader.mapBlocks, SubShader.mapBlock, SubShader.mapPasses, block, pass]
  simp [Shader.mapBlocks, Shader.mapBlock, Shader.mapSubShaders, block, subShader]

theorem closingSteps_eq (r : Revision) :
    r.closingSteps = (r.tags.map fun tag => .addTag tag.1 tag.2) ++
      if r.bindings.isEmpty then [] else [.substitute (.ofPairs r.bindings)] := rfl

theorem foldl_closingSteps (r : Revision) (read : Reader) (s : Shader) :
    r.closingSteps.foldl (Step.effect read) s =
      (s.mapSubShaders fun sub => { sub with tags := sub.tags.insertAll r.tags }).mapBlocks
        (mapValues (boundText r.namedBindings)) := by
  have tagged : (r.tags.map fun tag => Step.addTag tag.1 tag.2).foldl (Step.effect read) s =
      s.mapSubShaders fun sub => { sub with tags := sub.tags.insertAll r.tags } := by
    simp only [List.foldl_map, ← SubShader.foldl_addTag]
    exact Shader.foldl_mapSubShaders r.tags (fun sub tag => sub.addTag tag.1 tag.2) s
  have bound : (Substitution.ofPairs r.bindings).apply = boundText r.namedBindings :=
    funext (Substitution.apply_ofPairs_eq r.bindings)
  rw [closingSteps_eq, List.foldl_append, tagged]
  split
  · rename_i empty
    have same : boundText r.namedBindings = id := by
      simp [namedBindings, boundText, List.isEmpty_iff.mp empty, funext_iff]
    rw [same, mapBlocks_mapValues_id]
    rfl
  · rw [← bound]
    rfl

/-- A revision without files succeeds, whatever the shader is, and changes it to its closed form. -/
theorem apply_without_files {r : Revision} (noRules : r.insertBefore = []) (noIncludes : r.includes = [])
    (read : Reader) (s : Shader) :
    r.apply read s = (r.revisedWith (boundText r.namedBindings) s, .none) := by
  have noSteps : r.fileSteps = [] := by simp [fileSteps, noRules, noIncludes]
  have readable : ∀ file ∈ r.files, read.CanRead file := by simp [files, noRules, noIncludes]
  rw [apply_of_canRead readable, steps_eq, noSteps, List.nil_append, List.foldl_append,
    foldl_openingSteps, foldl_closingSteps]
  simp [revisedWith, revisedSubShader, revisedPass, Shader.mapBlocks, Shader.mapBlock, Shader.mapSubShaders,
    SubShader.mapBlocks, SubShader.mapBlock, SubShader.mapPasses, Pass.mapBlock, mapValues, Function.comp_def]

def featureShader (outer inner : Tags) (lines : List String) (others : List Pass) : Shader :=
  let block : Block := { Block.empty with tags := outer, program := some ["#pragma target 3.0"] }
  let pass : Block := { Block.empty with tags := inner, program := some lines }
  { Block.empty with
    name := "T"
    subShaders := [{ block with passes := { pass with name := some "FORWARD" } :: others }] }

theorem apply_without_files_feature :
    let r : Revision :=
      { Revision.none with
        removePasses := ["META"]
        strip := ["#pragma"]
        defines := ["#define A", "#define B"]
        tags := [("Queue", "[_Queue]")]
        bindings := [("_Mode", "Opaque"), ("_Mode", "[_Queue]"), ("_Queue", "Geometry")] }
    (r.insertBefore = [] ∧ r.includes = []) ∧
      r.apply (.ofList [])
          (featureShader .empty (Tags.empty.insert "LightMode" "[_Mode]") ["#pragma x", "f();"]
            [Pass.named (some "META"), Pass.named .none]) =
        (featureShader (Tags.empty.insert "Queue" "Geometry") (Tags.empty.insert "LightMode" "[_Queue]")
          ["#define A", "#define B", "f();"]
          [{ Pass.named .none with program := some ["#define A", "#define B"] }], .none) := by
  refine ⟨⟨rfl, rfl⟩, ?_⟩
  rw [apply_without_files rfl rfl]
  decide +kernel

/-- Brackets with nothing between them are no reference, even if the empty name is bound. -/
theorem apply_without_files_fails :
    ¬∀ (r : Revision) (read : Reader) (s : Shader), r.insertBefore = [] → r.includes = [] →
      r.apply read s = (r.revisedWith (boundText r.bindings) s, .none) := by
  intro closed
  have applied := closed { Revision.none with bindings := [("", "x")] } (.ofList [])
    (featureShader (Tags.empty.insert "Queue" "[]") .empty [] []) rfl rfl
  exact absurd applied (by decide +kernel)

end Revision
end ShaderText
