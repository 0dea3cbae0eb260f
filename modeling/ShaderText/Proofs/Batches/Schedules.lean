import ShaderText.Proofs.Batches.Runs

/-! Batches in any order. The tasks of a batch that write apart from each other and from all that is read
can run in any order. Main statement: whatever the order is, the files end the same, each with the text of
its task, and as many tasks fail as fail on their own.
-/
namespace ShaderText

theorem findSome?_eq_of_perm {α β : Type} {f : α → Option β} {items others : List α}
    (exclusive : items.Pairwise fun a b => f a = none ∨ f b = none) (h : items.Perm others) :
    items.findSome? f = others.findSome? f := by
  induction h with
  | nil => rfl
  | cons item _ ih => simp only [List.findSome?_cons, ih exclusive.of_cons]
  | swap first second rest =>
    have := List.rel_of_pairwise_cons exclusive List.mem_cons_self
    simp only [List.findSome?_cons]
    rcases this with none | none <;> simp [none]
  | trans h _ ih ih' =>
    exact (ih exclusive).trans (ih' (h.pairwise exclusive fun either => either.symm))

namespace Batch

variable {b : Batch} {files : FileSystem}

def reads (b : Batch) : List Path := b.shaders ++ b.revision.files

def runIn (order : List Task) (b : Batch) (files : FileSystem) : Desk × Option RunError :=
  match b.refusal? files with
  | some e => (⟨files, ""⟩, some (.argument e))
  | none =>
    match Task.runAll b.revision order ⟨files, ""⟩ with
    | (desk, []) => (desk, none)
    | (desk, errors) => (desk, some (.failed errors.length))

/-- Whether no two tasks write the same file, and none writes a file that the batch reads. -/
structure IsApart (b : Batch) (files : FileSystem) : Prop where
  outputs : (b.tasks files).Pairwise fun t u => ∀ place ∈ t.file? files, place ∉ u.file? files
  reads : ∀ t ∈ b.tasks files, ∀ place ∈ t.file? files, ∀ p ∈ b.reads, files.file? p ≠ some place

instance (b : Batch) (files : FileSystem) : Decidable (b.IsApart files) :=
  decidable_of_iff
    (((b.tasks files).Pairwise fun t u => ∀ place ∈ t.file? files, place ∉ u.file? files) ∧
      ∀ t ∈ b.tasks files, ∀ place ∈ t.file? files, ∀ p ∈ b.reads, files.file? p ≠ some place)
    ⟨fun ⟨outputs, reads⟩ => ⟨outputs, reads⟩, fun ⟨outputs, reads⟩ => ⟨outputs, reads⟩⟩

def failures (b : Batch) (files : FileSystem) : Nat := (b.tasks files).countP (·.fails b.revision files)

/-- What a batch comes to. None of it depends on the order of the tasks. -/
structure Outcome (b : Batch) (files : FileSystem) (order : List Task) : Prop where
  result : (b.runIn order files).2 =
    if b.failures files = 0 then none else some (.failed (b.failures files))
  /-- Each file holds what the task with its place makes, else what it held before. -/
  contents : ∀ place, (b.runIn order files).1.files.node? place =
    (((b.tasks files).findSome? (·.product? b.revision files place)).map .text).or (files.node? place)
  /-- A task that succeeds leaves its own text. -/
  written : ∀ t ∈ b.tasks files, t.fails b.revision files = false →
    ∃ s, t.revise b.revision files = .ok s ∧
      match t.output with
      | .standard => (b.runIn order files).1.printed = b.revision.render s
      | .file path => (b.runIn order files).1.files.read path = .ok (b.revision.render s)
  /-- A task whose shader cannot be revised changes nothing in its turn. -/
  idle : ∀ front t back, order = front ++ t :: back → (∀ s, t.revise b.revision files ≠ .ok s) →
    (t.run b.revision (Task.runAll b.revision front ⟨files, ""⟩).1).1 =
      (Task.runAll b.revision front ⟨files, ""⟩).1
  /-- The tasks are the same whenever their outputs are chosen. -/
  choices : ∀ front back, order = front ++ back →
    b.tasks (Task.runAll b.revision front ⟨files, ""⟩).1.files = b.tasks files

theorem IsApart.spares (h : b.IsApart files) {t : Task} (listed : t ∈ b.tasks files) :
    t.Spares b.revision files b.reads := by
  refine ⟨?_, h.reads t listed⟩
  obtain ⟨input, given, rfl⟩ := List.mem_map.mp listed
  exact List.cons_subset.mpr ⟨List.mem_append_left _ given, List.subset_append_right _ _⟩

theorem tasks_eq_of_standard {t : Task} (listed : t ∈ b.tasks files) (printing : t.output = .standard) :
    b.tasks files = [t] := by
  obtain ⟨input, given, rfl⟩ := List.mem_map.mp listed
  have single : b.shaders.length = 1 := by
    revert printing
    simp only [Output.choose]
    split <;> simp
  obtain ⟨only, shaders⟩ := List.length_eq_one_iff.mp single
  obtain rfl : input = only := by simpa [shaders] using given
  simp [tasks, shaders]

theorem runIn_eq {order : List Task} (started : b.refusal? files = none) :
    b.runIn order files =
      match Task.runAll b.revision order ⟨files, ""⟩ with
      | (desk, []) => (desk, none)
      | (desk, errors) => (desk, some (.failed errors.length)) := by
  rw [runIn, started]

theorem runIn_fst {order : List Task} (started : b.refusal? files = none) :
    (b.runIn order files).1 = (Task.runAll b.revision order ⟨files, ""⟩).1 := by
  rw [runIn_eq started]
  cases Task.runAll b.revision order ⟨files, ""⟩ with
  | mk desk errors => cases errors <;> rfl

section

variable {order : List Task}

theorem IsApart.looksLike (h : b.IsApart files) (sub : order ⊆ b.tasks files) :
    files.LooksLike (Task.runAll b.revision order ⟨files, ""⟩).1.files b.reads :=
  Task.looksLike_runAll (fun _ listed => h.spares (sub listed)) (.refl files b.reads)

theorem IsApart.exclusive (h : b.IsApart files) (place : Location) :
    (b.tasks files).Pairwise fun t u =>
      t.product? b.revision files place = none ∨ u.product? b.revision files place = none := by
  refine h.outputs.imp fun {t u} apart => ?_
  by_cases here : t.file? files = some place
  · exact .inr (Task.product?_eq_none fun there => apart place here there)
  · exact .inl (Task.product?_eq_none here)

theorem IsApart.result (h : b.IsApart files) (started : b.refusal? files = none)
    (every : order.Perm (b.tasks files)) :
    (b.runIn order files).2 =
      if b.failures files = 0 then none else some (.failed (b.failures files)) := by
  have count : (Task.runAll b.revision order ⟨files, ""⟩).2.length = b.failures files := by
    rw [Task.length_runAll (fun _ listed => h.spares (every.subset listed)) (.refl files b.reads),
      every.countP_eq]
    rfl
  rw [runIn_eq started, ← count]
  cases Task.runAll b.revision order ⟨files, ""⟩ with
  | mk desk errors => cases errors <;> simp

theorem IsApart.contents (h : b.IsApart files) (started : b.refusal? files = none)
    (every : order.Perm (b.tasks files)) (place : Location) :
    (b.runIn order files).1.files.node? place =
      (((b.tasks files).findSome? (·.product? b.revision files place)).map .text).or
        (files.node? place) := by
  rw [runIn_fst started,
    Task.node?_runAll (fun _ listed => h.spares (every.subset listed)) (.refl files b.reads),
    findSome?_eq_of_perm (h.exclusive place) (order.reverse_perm.trans every).symm]

theorem IsApart.node?_of_product (h : b.IsApart files) (started : b.refusal? files = none)
    (every : order.Perm (b.tasks files)) {t : Task} (listed : t ∈ b.tasks files) {place : Location}
    {text : String} (made : t.product? b.revision files place = some text) :
    (b.runIn order files).1.files.node? place = some (.text text) := by
  obtain ⟨front, back, split⟩ := List.append_of_mem listed
  have first : (b.tasks files).Perm (t :: (front ++ back)) := split ▸ List.perm_middle
  rw [h.contents started every, findSome?_eq_of_perm (h.exclusive place) first,
    List.findSome?_cons, made]
  rfl

theorem IsApart.written (h : b.IsApart files) (started : b.refusal? files = none)
    (every : order.Perm (b.tasks files)) {t : Task} (listed : t ∈ b.tasks files)
    (succeeds : t.fails b.revision files = false) :
    ∃ s, t.revise b.revision files = .ok s ∧
      match t.output with
      | .standard => (b.runIn order files).1.printed = b.revision.render s
      | .file path => (b.runIn order files).1.files.read path = .ok (b.revision.render s) := by
  obtain ⟨⟨s, revised⟩, placed⟩ := Task.fails_eq_false_iff.mp succeeds
  refine ⟨s, revised, ?_⟩
  cases output : t.output with
  | standard =>
    have alone := tasks_eq_of_standard listed output
    obtain rfl : order = [t] := List.perm_singleton.mp (alone ▸ every)
    simp [runIn_fst started, Task.runAll, Task.run, revised, output]
  | file path =>
    obtain ⟨place, here⟩ := Option.isSome_iff_exists.mp (placed.resolve_left (by simp [output]))
    have named : files.file? path = some place := by simpa [Task.file?, output] using here
    refine FileSystem.read_eq_ok_iff.mpr ⟨place, ?_, ?_⟩
    · rw [runIn_fst started, (h.looksLike every.subset).file?_eq, named]
    · exact h.node?_of_product started every listed
        (Task.product?_eq_some_iff.mpr ⟨here, s, revised, rfl⟩)

theorem IsApart.idle (h : b.IsApart files) (every : order.Perm (b.tasks files)) {front back : List Task}
    {t : Task} (split : order = front ++ t :: back) (unrevised : ∀ s, t.revise b.revision files ≠ .ok s) :
    (t.run b.revision (Task.runAll b.revision front ⟨files, ""⟩).1).1 =
      (Task.runAll b.revision front ⟨files, ""⟩).1 := by
  have listed : t ∈ b.tasks files := every.subset (by simp [split])
  have earlier : front ⊆ b.tasks files := fun u member => every.subset (by simp [split, member])
  have like := h.looksLike earlier
  cases revised : t.revise b.revision (Task.runAll b.revision front ⟨files, ""⟩).1.files with
  | error e => rw [Task.run_eq_of_revise_error revised]
  | ok s =>
    have alone := Task.revise_of_looksLike (like.mono (h.spares listed).reads).symm revised
    exact absurd alone (unrevised s)

end

end Batch
end ShaderText
