import Mathlib.Data.List.Nodup
import ShaderText.Shader.Dump
import ShaderText.Proofs.ReadBack
import ShaderText.Proofs.Dumping.Grammar

/-! What a dump says of a shader. Each part of a shader is told by its members: tags by name and order,
render states and stencil fields by their words, and a program that is missing by null. Main statement: both
forms of a dump are JSON for one value and no other, and only one shader has that value.
-/
namespace ShaderText

theorem WordFamily.word_injective {κ : Type} [WordFamily κ] {j k : κ}
    (same : (WordFamily.word j : String) = WordFamily.word k) : j = k :=
  eq_of_sameWord j k (by simp [sameWord, same])

theorem Settings.eq_of_toJson {κ : Type} [WordFamily κ] [DecidableEq κ] {s t : Settings κ}
    (same : s.toJson = t.toJson) : s = t := by
  have entries : s.entries = t.entries := by
    refine List.map_injective_iff.mpr ?_ (Json.object.inj same)
    rintro ⟨j, v⟩ ⟨k, w⟩ equal
    obtain ⟨word, value⟩ := Prod.mk.inj equal
    rw [WordFamily.word_injective word, Json.string.inj value]
  rw [← s.insertAll_entries, entries, t.insertAll_entries]

theorem Tags.eq_of_toJson {t u : Tags} (same : t.toJson = u.toJson) : t = u := by
  have pairs : t.toList = u.toList := by
    refine List.map_injective_iff.mpr ?_ (Json.object.inj same)
    rintro ⟨key, v⟩ ⟨key', w⟩ equal
    obtain ⟨rfl, value⟩ := Prod.mk.inj equal
    rw [Json.string.inj value]
  rw [← t.insertAll_toList, pairs, u.insertAll_toList]

theorem programToJson_injective {p q : Option (List String)} (same : programToJson p = programToJson q) :
    p = q := by
  cases p with
  | none =>
    cases q with
    | none => rfl
    | some lines => contradiction
  | some lines =>
    cases q with
    | none => contradiction
    | some lines' =>
      have texts := List.map_injective_iff.mpr (fun _ _ => Json.string.inj) (Json.array.inj same)
      rw [texts]

theorem Block.eq_of_members {b c : Block} {more more' : List (String × Json)}
    (same : b.members ++ more = c.members ++ more') : b = c ∧ more = more' := by
  simp only [Block.members, List.cons_append, List.nil_append, List.cons.injEq, Prod.mk.injEq, true_and] at same
  obtain ⟨tags, states, stencil, program, rest⟩ := same
  refine ⟨?_, rest⟩
  cases b
  cases c
  rw [Block.mk.injEq]
  exact ⟨Tags.eq_of_toJson tags, Settings.eq_of_toJson states, Settings.eq_of_toJson stencil,
    programToJson_injective program⟩

theorem Pass.toJson_injective : Function.Injective Pass.toJson := by
  rintro ⟨b, name⟩ ⟨c, name'⟩ same
  obtain ⟨rfl, last⟩ := Block.eq_of_members (Json.object.inj same)
  have named := (Prod.mk.inj (List.cons.inj last).1).2
  cases name with
  | none =>
    cases name' with
    | none => rfl
    | some text' => contradiction
  | some text =>
    cases name' with
    | none => contradiction
    | some text' => rw [Json.string.inj named]

theorem SubShader.toJson_injective : Function.Injective SubShader.toJson := by
  rintro ⟨b, passes⟩ ⟨c, passes'⟩ same
  obtain ⟨rfl, last⟩ := Block.eq_of_members (Json.object.inj same)
  have items := Json.array.inj (Prod.mk.inj (List.cons.inj last).1).2
  obtain rfl : passes = passes' := List.map_injective_iff.mpr Pass.toJson_injective items
  rfl

theorem Shader.toJson_injective : Function.Injective Shader.toJson := by
  rintro ⟨b, name, subShaders⟩ ⟨c, name', subShaders'⟩ same
  obtain ⟨rfl, last⟩ := Block.eq_of_members (Json.object.inj same)
  obtain ⟨named, last⟩ := List.cons.inj last
  have items := Json.array.inj (Prod.mk.inj (List.cons.inj last).1).2
  obtain rfl : name = name' := Json.string.inj (Prod.mk.inj named).2
  obtain rfl : subShaders = subShaders' := List.map_injective_iff.mpr SubShader.toJson_injective items
  rfl

open Json (HasDistinctNames)

theorem Settings.hasDistinctNames_toJson {κ : Type} [WordFamily κ] (s : Settings κ) :
    HasDistinctNames s.toJson := by
  refine .object ?_ ?_
  · have words : ((s.entries.map fun entry => (WordFamily.word entry.1, Json.string entry.2)).map Prod.fst) =
        (WordFamily.all : List κ).filterMap fun k => (s.get? k).map fun _ => WordFamily.word k := by
      simp [entries, List.map_filterMap, Function.comp_def]
    rw [words]
    refine List.Nodup.filterMap ?_ WordFamily.nodup_all
    intro j k word here there
    obtain ⟨_, -, rfl⟩ := Option.map_eq_some_iff.mp here
    obtain ⟨_, -, same⟩ := Option.map_eq_some_iff.mp there
    exact WordFamily.word_injective same.symm
  · intro member inside
    obtain ⟨entry, -, rfl⟩ := List.mem_map.mp inside
    exact .string entry.2

theorem Tags.hasDistinctNames_toJson (t : Tags) : HasDistinctNames t.toJson := by
  refine .object ?_ ?_
  · rw [List.map_map]
    exact t.nodup_keys
  · intro member inside
    obtain ⟨pair, -, rfl⟩ := List.mem_map.mp inside
    exact .string pair.2

theorem hasDistinctNames_programToJson (program : Option (List String)) :
    HasDistinctNames (programToJson program) := by
  cases program with
  | none => exact .null
  | some lines =>
    refine .array fun item inside => ?_
    obtain ⟨line, -, rfl⟩ := List.mem_map.mp inside
    exact .string line

theorem Block.hasDistinctNames (b : Block) (names : List String) {more : List (String × Json)}
    (apart : (["tags", "parameters", "stencil", "program"] ++ names).Nodup) (named : more.map Prod.fst = names)
    (inside : ∀ member ∈ more, HasDistinctNames member.2) : HasDistinctNames (.object (b.members ++ more)) := by
  subst named
  refine .object apart ?_
  simp only [Block.members, List.cons_append, List.nil_append, List.forall_mem_cons]
  exact ⟨b.tags.hasDistinctNames_toJson, b.states.hasDistinctNames_toJson, b.stencil.hasDistinctNames_toJson,
    hasDistinctNames_programToJson b.program, inside⟩

theorem Pass.hasDistinctNames_toJson (p : Pass) : HasDistinctNames p.toJson := by
  refine p.toBlock.hasDistinctNames ["name"] (by decide) rfl (List.forall_mem_singleton.mpr ?_)
  cases p.name with
  | none => exact .null
  | some name => exact .string name

theorem SubShader.hasDistinctNames_toJson (s : SubShader) : HasDistinctNames s.toJson := by
  refine s.toBlock.hasDistinctNames ["passes"] (by decide) rfl (List.forall_mem_singleton.mpr (.array ?_))
  exact List.forall_mem_map.mpr fun p _ => p.hasDistinctNames_toJson

theorem Shader.hasDistinctNames_toJson (s : Shader) : HasDistinctNames s.toJson := by
  refine s.toBlock.hasDistinctNames ["name", "sub_shaders"] (by decide) rfl ?_
  refine List.forall_mem_cons.mpr ⟨.string s.name, ?_⟩
  exact List.forall_mem_singleton.mpr (.array (List.forall_mem_map.mpr fun sub _ => sub.hasDistinctNames_toJson))

theorem Shader.isSpelt_dump (s : Shader) (pretty : Bool) : s.toJson.IsSpelt (s.dump pretty).toList := by
  rw [dump, String.toList_ofList]
  cases pretty with
  | false => exact s.toJson.isSpelt_compact
  | true => exact s.toJson.isSpelt_pretty

/-- Both forms of a dump are JSON for one value, no object of which has two members of one name. They differ by
white space outside of strings alone, and a dump is the dump of no other shader. -/
theorem Shader.dump_faithful (s : Shader) :
    (∀ pretty j, Json.IsSpelt j (s.dump pretty).toList ↔ j = s.toJson) ∧ HasDistinctNames s.toJson ∧
      Json.squeezed .outside (s.dump true).toList = (s.dump false).toList ∧
      ∀ pretty t, Shader.dump t pretty = s.dump pretty ↔ t = s := by
  refine ⟨fun pretty j => ⟨fun spelt => spelt.unique (s.isSpelt_dump pretty), ?_⟩, s.hasDistinctNames_toJson, ?_,
    fun pretty t => ⟨fun same => ?_, fun equal => by rw [equal]⟩⟩
  · rintro rfl
    exact s.isSpelt_dump pretty
  · rw [dump, dump, String.toList_ofList, String.toList_ofList]
    exact s.toJson.squeezed_pretty
  · have spelt := t.isSpelt_dump pretty
    rw [same] at spelt
    exact Shader.toJson_injective (spelt.unique (s.isSpelt_dump pretty))

end ShaderText
