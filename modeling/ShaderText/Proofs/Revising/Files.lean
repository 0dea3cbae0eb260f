import ShaderText.Revision

/-! The files of a revision. A step reads at most one file, and what it does to a shader is fixed once
the text of that file is known. Main statement: a revision succeeds exactly when all of its files can be
read; else it ends with the error of the first that cannot, and leaves the shader as the revision that
is cut off before this file does.
-/
namespace ShaderText

/-- Whether the reader answers a text for the file. -/
def Reader.CanRead (read : Reader) (file : Path) : Prop := ∃ text, read file = .ok text

namespace Revision

namespace Step

/-- The file that a step reads. -/
def file? : Step → Option Path
  | insertBefore rule => some rule.file
  | replaceInclude _ file => some file
  | _ => .none

/-- The text that a step works with. It is empty if the step reads no file. -/
def text (read : Reader) (step : Step) : Except SourceError String :=
  match step.file? with
  | .none => .ok ""
  | some file => read file

/-- What a step does to a shader, given the text of its file. -/
def change (text : String) (s : Shader) : Step → Shader
  | removePass name => s.removePass name
  | strip part => s.removeLines part
  | define index line => s.insertLine (some index) line
  | insertBefore rule => s.insertBefore rule.test (trimBreaks text)
  | replaceInclude path _ => s.replaceInclude path (trimBreaks text)
  | addTag key value => s.addTag key value
  | substitute σ => s.substitute σ

theorem apply_eq (read : Reader) (s : Shader) (step : Step) :
    step.apply read s = (step.text read).map fun text => step.change text s := by
  cases step with
  | insertBefore rule =>
    simp only [apply, text, file?]
    cases read rule.file <;> rfl
  | replaceInclude path file =>
    simp only [apply, text, file?]
    cases read file <;> rfl
  | _ => rfl

def IsSupplied (read : Reader) (step : Step) : Prop := ∀ file ∈ step.file?, read.CanRead file

theorem IsSupplied.exists_text {read : Reader} {step : Step} (h : step.IsSupplied read) :
    ∃ text, step.text read = .ok text := by
  unfold text
  cases reads : step.file? with
  | none => exact ⟨"", rfl⟩
  | some file => exact h file reads

/-- What a step does to a shader if its file can be read. -/
def effect (read : Reader) (s : Shader) (step : Step) : Shader :=
  step.change ((step.text read).toOption.getD "") s

theorem IsSupplied.apply_eq {read : Reader} {step : Step} (h : step.IsSupplied read) (s : Shader) :
    step.apply read s = .ok (step.effect read s) := by
  obtain ⟨text, found⟩ := h.exists_text
  rw [Step.apply_eq, effect, found]
  rfl

theorem apply_eq_error {read : Reader} {step : Step} {file : Path} {e : SourceError}
    (reads : step.file? = some file) (failed : read file = .error e) (s : Shader) :
    step.apply read s = .error e := by
  simp only [apply_eq, text, reads, failed]
  rfl

end Step

theorem applySteps_of_isSupplied {read : Reader} {steps : List Step}
    (supplied : ∀ step ∈ steps, step.IsSupplied read) (s : Shader) :
    applySteps read steps s = (steps.foldl (Step.effect read) s, .none) := by
  induction steps generalizing s with
  | nil => rfl
  | cons step rest ih =>
    rw [applySteps, (supplied step List.mem_cons_self).apply_eq]
    exact ih (fun later member => supplied later (List.mem_cons_of_mem _ member)) _

theorem applySteps_of_unreadable {read : Reader} {front back : List Step} {step : Step} {file : Path}
    {e : SourceError} (supplied : ∀ earlier ∈ front, earlier.IsSupplied read)
    (reads : step.file? = some file) (failed : read file = .error e) (s : Shader) :
    applySteps read (front ++ step :: back) s = ((applySteps read front s).1, some e) := by
  rw [applySteps_append, applySteps_of_isSupplied supplied]
  simp only [applySteps, Step.apply_eq_error reads failed]

theorem applySteps_congr {read other : Reader} {steps : List Step}
    (same : ∀ step ∈ steps, step.text other = step.text read) (s : Shader) :
    applySteps other steps s = applySteps read steps s := by
  induction steps generalizing s with
  | nil => rfl
  | cons step rest ih =>
    rw [applySteps, applySteps, Step.apply_eq, Step.apply_eq, same step List.mem_cons_self]
    cases step.text read with
    | error e => rfl
    | ok text => exact ih (fun later member => same later (List.mem_cons_of_mem _ member)) _

/-- The files of a revision, in the order in which they are read. -/
def files (r : Revision) : List Path := r.insertBefore.map InsertionRule.file ++ r.includes.map Prod.snd

def openingSteps (r : Revision) : List Step :=
  r.removePasses.map .removePass ++ r.strip.map .strip ++ r.defines.mapIdx .define

def fileSteps (r : Revision) : List Step :=
  r.insertBefore.map .insertBefore ++ r.includes.map fun (path, file) => .replaceInclude path file

def closingSteps (r : Revision) : List Step :=
  r.tags.map (fun (key, value) => .addTag key value) ++
    if r.bindings.isEmpty then [] else [.substitute (.ofPairs r.bindings)]

theorem steps_eq (r : Revision) : r.steps = r.openingSteps ++ (r.fileSteps ++ r.closingSteps) := by
  simp only [steps, openingSteps, fileSteps, closingSteps, List.append_assoc]

theorem file?_of_mem_openingSteps {r : Revision} {step : Step} (member : step ∈ r.openingSteps) :
    step.file? = .none := by
  simp only [openingSteps, List.mem_append, List.mem_map, List.mem_mapIdx] at member
  rcases member with (⟨_, _, rfl⟩ | ⟨_, _, rfl⟩) | ⟨_, _, rfl⟩ <;> rfl

theorem file?_of_mem_closingSteps {r : Revision} {step : Step} (member : step ∈ r.closingSteps) :
    step.file? = .none := by
  simp only [closingSteps, List.mem_append, List.mem_map] at member
  rcases member with ⟨_, _, rfl⟩ | last
  · rfl
  · split at last
    · simp at last
    · rw [List.mem_singleton.mp last]
      rfl

theorem map_file?_fileSteps (r : Revision) : r.fileSteps.map Step.file? = r.files.map some := by
  simp [fileSteps, files, Step.file?, Function.comp_def]

theorem mem_files {r : Revision} {step : Step} {file : Path} (member : step ∈ r.steps)
    (reads : step.file? = some file) : file ∈ r.files := by
  rw [steps_eq] at member
  rcases List.mem_append.mp member with opening | later
  · exact absurd reads (by simp [file?_of_mem_openingSteps opening])
  · rcases List.mem_append.mp later with filing | closing
    · have listed : some file ∈ r.files.map some := by
        rw [← map_file?_fileSteps, ← reads]
        exact List.mem_map_of_mem filing
      obtain ⟨_, inFiles, equal⟩ := List.mem_map.mp listed
      exact Option.some.inj equal ▸ inFiles
    · exact absurd reads (by simp [file?_of_mem_closingSteps closing])

/-- The revision cut off before the file of an index: all that needs no file and comes in front of the
files, and the changes from the files up to there. -/
def before (r : Revision) (index : Nat) : Revision :=
  { r with
    insertBefore := r.insertBefore.take index
    includes := r.includes.take (index - r.insertBefore.length)
    tags := []
    bindings := [] }

theorem files_before (r : Revision) (index : Nat) : (r.before index).files = r.files.take index := by
  simp [before, files, List.take_append, List.map_take]

theorem steps_before (r : Revision) (index : Nat) :
    (r.before index).steps = r.openingSteps ++ r.fileSteps.take index := by
  simp [before, steps, openingSteps, fileSteps, List.take_append, List.map_take]

theorem isSupplied_steps {r : Revision} {read : Reader} (readable : ∀ file ∈ r.files, read.CanRead file) :
    ∀ step ∈ r.steps, step.IsSupplied read :=
  fun _ member file reads => readable file (mem_files member reads)

theorem apply_of_canRead {r : Revision} {read : Reader} (readable : ∀ file ∈ r.files, read.CanRead file)
    (s : Shader) : r.apply read s = (r.steps.foldl (Step.effect read) s, .none) := by
  rw [apply, applySteps_of_isSupplied (isSupplied_steps readable)]

/-- A file that cannot be read ends the revision where the revision cut off before it ends. -/
theorem apply_of_unreadable {r : Revision} {read : Reader} {index : Nat} {file : Path} {e : SourceError}
    (here : r.files[index]? = some file) (failed : read file = .error e)
    (readable : ∀ earlier ∈ r.files.take index, read.CanRead earlier) (s : Shader) :
    ∃ left, (r.before index).apply read s = (left, .none) ∧ r.apply read s = (left, some e) := by
  have supplied := isSupplied_steps (r := r.before index) (files_before r index ▸ readable)
  rw [steps_before] at supplied
  obtain ⟨step, found, reads⟩ : ∃ step, r.fileSteps[index]? = some step ∧ step.file? = some file := by
    have := congrArg (·[index]?) (map_file?_fileSteps r)
    simpa [here] using this
  have cut : r.steps =
      (r.openingSteps ++ r.fileSteps.take index) ++
        step :: (r.fileSteps.drop (index + 1) ++ r.closingSteps) := by
    obtain ⟨bound, rfl⟩ := List.getElem?_eq_some_iff.mp found
    rw [steps_eq, List.append_assoc, ← List.cons_append, List.getElem_cons_drop,
      ← List.append_assoc (List.take _ _), List.take_append_drop]
  refine ⟨(r.openingSteps ++ r.fileSteps.take index).foldl (Step.effect read) s, ?_, ?_⟩
  · rw [apply, steps_before, applySteps_of_isSupplied supplied]
  · rw [apply, cut, applySteps_of_unreadable supplied reads failed, applySteps_of_isSupplied supplied]

theorem exists_first_unreadable {read : Reader} {files : List Path}
    (some_fails : ¬ ∀ file ∈ files, read.CanRead file) :
    ∃ index file e, files[index]? = some file ∧ read file = .error e ∧
      ∀ earlier ∈ files.take index, read.CanRead earlier := by
  induction files with
  | nil => exact absurd (by simp) some_fails
  | cons first rest ih =>
    cases found : read first with
    | error e => exact ⟨0, first, e, rfl, found, by simp⟩
    | ok text =>
      have first_reads : read.CanRead first := ⟨text, found⟩
      obtain ⟨index, file, e, here, failed, readable⟩ :=
        ih fun all => some_fails (List.forall_mem_cons.mpr ⟨first_reads, all⟩)
      exact ⟨index + 1, file, e, here, failed, List.forall_mem_cons.mpr ⟨first_reads, readable⟩⟩

theorem exists_of_unreadable {r : Revision} {read : Reader}
    (some_fails : ¬ ∀ file ∈ r.files, read.CanRead file) (s : Shader) :
    ∃ index file e left, r.files[index]? = some file ∧ read file = .error e ∧
      (∀ earlier ∈ r.files.take index, read.CanRead earlier) ∧
      (r.before index).apply read s = (left, .none) ∧ r.apply read s = (left, some e) := by
  obtain ⟨index, file, e, here, failed, readable⟩ := exists_first_unreadable some_fails
  obtain ⟨left, cut, whole⟩ := apply_of_unreadable here failed readable s
  exact ⟨index, file, e, left, here, failed, readable, cut, whole⟩

theorem apply_succeeds_iff {r : Revision} {read : Reader} {s : Shader} :
    (r.apply read s).2 = .none ↔ ∀ file ∈ r.files, read.CanRead file := by
  constructor
  · intro succeeds
    refine Classical.byContradiction fun unreadable => ?_
    obtain ⟨_, _, e, _, _, _, _, _, whole⟩ := exists_of_unreadable unreadable s
    simp [whole] at succeeds
  · intro readable
    rw [apply_of_canRead readable]

/-- A revision needs no more of a reader than the texts of its files. -/
theorem apply_eq_of_reads {r : Revision} {read other : Reader} {s left : Shader}
    (same : ∀ file ∈ r.files, ∀ text, read file = .ok text → other file = .ok text)
    (applied : r.apply read s = (left, .none)) : r.apply other s = (left, .none) := by
  have readable : ∀ file ∈ r.files, read.CanRead file := by
    rw [← apply_succeeds_iff (s := s), applied]
  have agree : ∀ step ∈ r.steps, step.text other = step.text read := by
    intro step member
    unfold Step.text
    cases reads : step.file? with
    | none => rfl
    | some file =>
      have listed := mem_files member reads
      obtain ⟨text, found⟩ := readable file listed
      simp only [found, same file listed text found]
  rw [← applied, apply, apply, applySteps_congr agree]

/-- A revision fails only for a file that cannot be read, and then with the error of the first one. -/
theorem apply_ends_at_first_unreadable (r : Revision) (read : Reader) (s : Shader) :
    ((r.apply read s).2 = .none ↔ ∀ file ∈ r.files, read.CanRead file) ∧
      ((¬ ∀ file ∈ r.files, read.CanRead file) →
        ∃ index file e left, r.files[index]? = some file ∧ read file = .error e ∧
          (∀ earlier ∈ r.files.take index, read.CanRead earlier) ∧
          (r.before index).apply read s = (left, .none) ∧ r.apply read s = (left, some e)) :=
  ⟨apply_succeeds_iff, fun unreadable => exists_of_unreadable unreadable s⟩

def includeRevision : Revision :=
  { Revision.none with
    defines := ["#define A"]
    includes := [("a.hlsl", ⟨"gen/a.hlsl"⟩), ("b.hlsl", ⟨"gen/b.hlsl"⟩)]
    tags := [("Queue", "Geometry")] }

def includeReader : Reader := .ofList [(⟨"gen/a.hlsl"⟩, "float a;")]

def programShader (lines : List String) : Shader :=
  let pass : Pass := { Block.empty with name := some "P", program := some lines }
  { Block.empty with name := "T", subShaders := [{ Block.empty with passes := [pass] }] }

theorem apply_ends_at_missing_include :
    let s := programShader ["#include \"a.hlsl\"", "#include \"b.hlsl\""]
    let left := programShader ["#define A", "float a;", "#include \"b.hlsl\""]
    (¬∀ file ∈ includeRevision.files, includeReader.CanRead file) ∧
      ∃ index file e, includeRevision.files[index]? = some file ∧ includeReader file = .error e ∧
        (∀ earlier ∈ includeRevision.files.take index, includeReader.CanRead earlier) ∧
        (includeRevision.before index).apply includeReader s = (left, .none) ∧
        includeRevision.apply includeReader s = (left, some e) := by
  intro s left
  have missing : ¬∀ file ∈ includeRevision.files, includeReader.CanRead file := by
    intro all
    obtain ⟨text, found⟩ := all ⟨"gen/b.hlsl"⟩ (by decide +kernel)
    have absent : (includeReader ⟨"gen/b.hlsl"⟩).toOption = .none := by decide +kernel
    rw [found] at absent
    exact nomatch absent
  obtain ⟨index, file, e, stopped, here, failed, readable, cut, whole⟩ :=
    (apply_ends_at_first_unreadable includeRevision includeReader s).2 missing
  obtain rfl : stopped = left := by
    have reached : (includeRevision.apply includeReader s).1 = left := by decide +kernel
    rwa [whole] at reached
  exact ⟨missing, index, file, e, here, failed, readable, cut, whole⟩

end Revision
end ShaderText
