import ShaderText.Batch
import ShaderText.Proofs.Batches.Places
import ShaderText.Proofs.Revising.Files

/-! Runs of tasks. What a task does depends on the folders and on the files that it reads; it makes no
folder and changes one file at most. Main statements: tasks that write to no file that is read do not
notice each other, so in turn each fails or succeeds as it does on its own, and a file ends with the text
of the last task that writes it.
-/
namespace ShaderText

namespace FileSystem

theorem reader_eq_ok_iff {fs : FileSystem} {p : Path} {text : String} :
    fs.reader p = .ok text ↔ fs.read p = .ok text := by
  unfold reader
  cases fs.read p with
  | ok content => simp
  | error e => cases e <;> simp

/-- Whether nothing has changed in a file system that a reader of the paths could notice. -/
structure LooksLike (before after : FileSystem) (paths : List Path) : Prop
    extends before.SameFolders after where
  reads : ∀ p ∈ paths, ∀ text, after.read p = .ok text ↔ before.read p = .ok text

namespace LooksLike

variable {before after : FileSystem} {paths : List Path}

theorem refl (fs : FileSystem) (paths : List Path) : fs.LooksLike fs paths :=
  ⟨.refl fs, fun _ _ _ => Iff.rfl⟩

theorem symm (h : before.LooksLike after paths) : after.LooksLike before paths :=
  ⟨h.toSameFolders.symm, fun p listed text => (h.reads p listed text).symm⟩

theorem mono (h : before.LooksLike after paths) {fewer : List Path} (sub : fewer ⊆ paths) :
    before.LooksLike after fewer :=
  ⟨h.toSameFolders, fun p listed => h.reads p (sub listed)⟩

theorem write (h : before.LooksLike after paths) {p : Path} {text : String} {last : FileSystem}
    (written : after.write p text = .ok last) (spared : ∀ q ∈ paths, before.file? q ≠ before.file? p) :
    before.LooksLike last paths := by
  have folders := sameFolders_of_write written
  refine ⟨h.toSameFolders.trans folders, fun q listed content => ?_⟩
  rw [← h.reads q listed, folders.read_eq_ok_iff]
  intro place named
  obtain ⟨target, found⟩ := exists_target_of_write written
  have elsewhere : place ≠ target := by
    rintro rfl
    apply spared q listed
    rw [← h.file?_eq, ← h.file?_eq, named, file?_eq_some_iff.mpr found]
  rw [node?_of_write found written, if_neg elsewhere]

end LooksLike
end FileSystem

namespace Task

variable {revision : Revision}

def reads (revision : Revision) (t : Task) : List Path := t.input :: revision.files

def file? (files : FileSystem) (t : Task) : Option Location :=
  match t.output with
  | .standard => none
  | .file path => files.file? path

/-- The text that a task puts at a place. -/
def product? (revision : Revision) (files : FileSystem) (t : Task) (place : Location) : Option String :=
  match t.revise revision files with
  | .error _ => none
  | .ok s => if t.file? files = some place then some (revision.render s) else none

def fails (revision : Revision) (files : FileSystem) (t : Task) : Bool :=
  (t.run revision ⟨files, ""⟩).2.isSome

theorem revise_eq_ok_iff {files : FileSystem} {t : Task} {s : Shader} :
    t.revise revision files = .ok s ↔
      ∃ loaded, Shader.load files.reader t.input = .ok loaded ∧
        revision.apply files.reader loaded = (s, none) := by
  unfold revise
  cases Shader.load files.reader t.input with
  | error e => simp
  | ok loaded =>
    cases applied : revision.apply files.reader loaded with
    | mk left error? => cases error? <;> simp [applied]

/-- What a run of a task can come to: the desk after it, and the error if it failed. -/
inductive Ends (revision : Revision) (desk : Desk) (t : Task) : Desk × Option RunError → Prop
  | unrevised {e : RunError} (revised : t.revise revision desk.files = .error e) :
    Ends revision desk t (desk, some e)
  | printed {s : Shader} (revised : t.revise revision desk.files = .ok s) (output : t.output = .standard) :
    Ends revision desk t ({ desk with printed := desk.printed ++ revision.render s }, none)
  | unplaced {s : Shader} {path : Path} {cause : SystemError}
    (revised : t.revise revision desk.files = .ok s) (output : t.output = .file path)
    (named : desk.files.target path = .error cause) :
    Ends revision desk t (desk, some (.write path cause))
  | written {s : Shader} {path : Path} {place : Location} {after : FileSystem}
    (revised : t.revise revision desk.files = .ok s) (output : t.output = .file path)
    (named : desk.files.target path = .ok place)
    (wrote : desk.files.write path (revision.render s) = .ok after) :
    Ends revision desk t ({ desk with files := after }, none)

theorem ends_run (revision : Revision) (desk : Desk) (t : Task) :
    t.Ends revision desk (t.run revision desk) := by
  unfold run
  cases revised : t.revise revision desk.files with
  | error e => exact .unrevised revised
  | ok s =>
    cases output : t.output with
    | standard => exact .printed revised output
    | file path =>
      cases wrote : desk.files.write path (revision.render s) with
      | ok after =>
        obtain ⟨place, named⟩ := FileSystem.exists_target_of_write wrote
        simp only [wrote]
        exact .written revised output named wrote
      | error cause =>
        simp only [wrote]
        exact .unplaced revised output (FileSystem.target_eq_error_of_write wrote)

/-- A task succeeds if its shader can be revised and there is a place for its result. -/
theorem run_succeeds_iff {desk : Desk} {t : Task} :
    (t.run revision desk).2 = none ↔
      (∃ s, t.revise revision desk.files = .ok s) ∧
        (t.output = .standard ∨ (t.file? desk.files).isSome) := by
  have ends := t.ends_run revision desk
  generalize t.run revision desk = ran at ends
  cases ends with
  | unrevised revised => simp [revised]
  | printed revised output => simp [revised, output]
  | unplaced revised output named => simp [revised, output, file?, FileSystem.file?, named, Except.toOption]
  | written revised output named => simp [revised, output, file?, FileSystem.file?, named, Except.toOption]

theorem fails_eq_false_iff {files : FileSystem} {t : Task} :
    t.fails revision files = false ↔
      (∃ s, t.revise revision files = .ok s) ∧ (t.output = .standard ∨ (t.file? files).isSome) := by
  rw [fails, Option.isSome_eq_false_iff, Option.isNone_iff_eq_none, run_succeeds_iff]

theorem isSome_run (desk : Desk) (t : Task) :
    (t.run revision desk).2.isSome = t.fails revision desk.files := by
  have alike : (t.run revision desk).2 = none ↔ (t.run revision ⟨desk.files, ""⟩).2 = none := by
    rw [run_succeeds_iff, run_succeeds_iff]
  rw [fails, Bool.eq_iff_iff, Option.isSome_iff_ne_none, Option.isSome_iff_ne_none]
  exact not_congr alike

/-- A task changes the file at its own place, if it gets there, and no other. -/
theorem node?_run (desk : Desk) (t : Task) (place : Location) :
    (t.run revision desk).1.files.node? place =
      ((t.product? revision desk.files place).map .text).or (desk.files.node? place) := by
  have ends := t.ends_run revision desk
  generalize t.run revision desk = ran at ends
  cases ends with
  | unrevised revised => simp [product?, revised]
  | printed revised output => simp [product?, revised, file?, output]
  | unplaced revised output named =>
    simp [product?, revised, file?, output, FileSystem.file?, named, Except.toOption]
  | @written s path target after revised output named wrote =>
    rw [FileSystem.node?_of_write named wrote]
    simp only [product?, revised, file?, output, FileSystem.file?_eq_some_iff.mpr named, Option.some.injEq,
      eq_comm (a := target)]
    split <;> rfl

section

variable {before after : FileSystem} {t : Task}

theorem revise_of_looksLike (h : before.LooksLike after (t.reads revision)) {s : Shader}
    (revised : t.revise revision before = .ok s) : t.revise revision after = .ok s := by
  have carried {p : Path} (listed : p ∈ t.reads revision) {text : String}
      (found : before.reader p = .ok text) : after.reader p = .ok text := by
    rw [FileSystem.reader_eq_ok_iff] at found ⊢
    exact (h.reads p listed text).mpr found
  obtain ⟨loaded, load, applied⟩ := revise_eq_ok_iff.mp revised
  obtain ⟨text, found, parsed⟩ := Shader.load_eq_ok_iff.mp load
  refine revise_eq_ok_iff.mpr ⟨loaded, Shader.load_eq_ok_iff.mpr ⟨text, ?_, parsed⟩, ?_⟩
  · exact carried List.mem_cons_self found
  · exact Revision.apply_eq_of_reads (fun file listed _ => carried (List.mem_cons_of_mem _ listed)) applied

theorem revise_eq_ok_iff_of_looksLike (h : before.LooksLike after (t.reads revision)) {s : Shader} :
    t.revise revision after = .ok s ↔ t.revise revision before = .ok s :=
  ⟨revise_of_looksLike h.symm, revise_of_looksLike h⟩

theorem file?_eq_of_sameFolders (h : before.SameFolders after) : t.file? after = t.file? before := by
  unfold file?
  split
  · rfl
  · exact h.file?_eq _

theorem fails_eq_of_looksLike (h : before.LooksLike after (t.reads revision)) :
    t.fails revision after = t.fails revision before := by
  have alike : t.fails revision after = false ↔ t.fails revision before = false := by
    rw [fails_eq_false_iff, fails_eq_false_iff, file?_eq_of_sameFolders h.toSameFolders]
    simp only [revise_eq_ok_iff_of_looksLike h]
  rw [Bool.eq_iff_iff, ← Bool.not_eq_false, ← Bool.not_eq_false]
  exact not_congr alike

theorem product?_eq_some_iff {files : FileSystem} {place : Location} {text : String} :
    t.product? revision files place = some text ↔
      t.file? files = some place ∧ ∃ s, t.revise revision files = .ok s ∧ revision.render s = text := by
  unfold product?
  cases t.revise revision files <;> simp

theorem product?_eq_none {files : FileSystem} {place : Location} (h : t.file? files ≠ some place) :
    t.product? revision files place = none :=
  Option.eq_none_iff_forall_ne_some.mpr fun _ made => h (product?_eq_some_iff.mp made).1

theorem product?_eq_of_looksLike (h : before.LooksLike after (t.reads revision)) (place : Location) :
    t.product? revision after place = t.product? revision before place := by
  ext text
  simp only [product?_eq_some_iff, file?_eq_of_sameFolders h.toSameFolders,
    revise_eq_ok_iff_of_looksLike h]

end

/-- Whether a task reads none but these paths, and writes to none of them. -/
structure Spares (revision : Revision) (files : FileSystem) (paths : List Path) (t : Task) : Prop where
  reads : t.reads revision ⊆ paths
  writes : ∀ place ∈ t.file? files, ∀ p ∈ paths, files.file? p ≠ some place

theorem Spares.looksLike {files : FileSystem} {paths : List Path} {t : Task} {desk : Desk}
    (h : t.Spares revision files paths) (like : files.LooksLike desk.files paths) :
    files.LooksLike (t.run revision desk).1.files paths := by
  have ends := t.ends_run revision desk
  generalize t.run revision desk = ran at ends
  cases ends with
  | @written s path place after _ output named wrote =>
    have here : files.file? path = some place := by
      rw [← like.file?_eq, FileSystem.file?_eq_some_iff, named]
    have own : t.file? files = some place := by simp [file?, output, here]
    refine like.write wrote fun q listed => ?_
    rw [here]
    exact h.writes place own q listed
  | _ => exact like

section

variable {files : FileSystem} {paths : List Path} {order : List Task} {desk : Desk}

theorem looksLike_runAll (spares : ∀ t ∈ order, t.Spares revision files paths)
    (like : files.LooksLike desk.files paths) :
    files.LooksLike (runAll revision order desk).1.files paths := by
  induction order generalizing desk with
  | nil => exact like
  | cons t rest ih =>
    obtain ⟨first, others⟩ := List.forall_mem_cons.mp spares
    exact ih others (first.looksLike like)

/-- Each task fails if it does on its own. -/
theorem length_runAll (spares : ∀ t ∈ order, t.Spares revision files paths)
    (like : files.LooksLike desk.files paths) :
    (runAll revision order desk).2.length = order.countP (fails revision files) := by
  induction order generalizing desk with
  | nil => rfl
  | cons t rest ih =>
    obtain ⟨first, others⟩ := List.forall_mem_cons.mp spares
    have alone : (t.run revision desk).2.isSome = t.fails revision files := by
      rw [isSome_run, fails_eq_of_looksLike (like.mono first.reads)]
    simp only [runAll, List.length_append, ih others (first.looksLike like), List.countP_cons, ← alone]
    cases (t.run revision desk).2 <;> simp [Nat.add_comm]

/-- A file ends with the text of the last task that writes it. -/
theorem node?_runAll (spares : ∀ t ∈ order, t.Spares revision files paths)
    (like : files.LooksLike desk.files paths) (place : Location) :
    (runAll revision order desk).1.files.node? place =
      ((order.reverse.findSome? (·.product? revision files place)).map .text).or
        (desk.files.node? place) := by
  induction order generalizing desk with
  | nil => rfl
  | cons t rest ih =>
    obtain ⟨first, others⟩ := List.forall_mem_cons.mp spares
    rw [runAll, ih others (first.looksLike like), node?_run,
      product?_eq_of_looksLike (like.mono first.reads), List.reverse_cons, List.findSome?_append]
    cases rest.reverse.findSome? (·.product? revision files place) <;> simp

end
end Task
end ShaderText
