import ShaderText.FileSystem

/-! The places that paths lead to. Reading and writing both follow a path through folders, so they depend
on which places are folders and on what the last place holds. Main statements: a write makes and takes no
folder, so afterwards all paths lead where they led before; and it changes no file but its own, which can
be read then.
-/
namespace ShaderText.FileSystem

/-- Where a path leads to. Each of its steps starts in a folder. -/
def location? (fs : FileSystem) (p : Path) : Option Location :=
  if p.steps = [] then none else (fs.follow fs.home p.steps).toOption

theorem location?_eq_some_iff {fs : FileSystem} {p : Path} {place : Location} :
    fs.location? p = some place ↔ p.steps ≠ [] ∧ fs.follow fs.home p.steps = .ok place := by
  unfold location?
  cases fs.follow fs.home p.steps <;> simp [Except.toOption]

theorem follow_append (fs : FileSystem) (place : Location) (first second : List Path.Part) :
    fs.follow place (first ++ second) =
      match fs.follow place first with
      | .error e => .error e
      | .ok next => fs.follow next second := by
  induction first generalizing place with
  | nil => rfl
  | cons part rest ih =>
    simp only [List.cons_append, follow]
    split
    · rfl
    · exact ih _
    · rfl

theorem follow_concat_eq_ok_iff {fs : FileSystem} {start place : Location} {front : List Path.Part}
    {last : Path.Part} :
    fs.follow start (front ++ [last]) = .ok place ↔
      ∃ folder, fs.follow start front = .ok folder ∧ fs.node? folder = some .folder ∧
        place = step folder last := by
  rw [follow_append]
  cases fs.follow start front with
  | error e => simp
  | ok folder =>
    simp only [follow, Except.ok.injEq, exists_eq_left']
    split
    · simp_all
    · rename_i here
      simp [here, eq_comm]
    · simp_all

/-- Whether all the folders around a place are there. -/
def IsEnclosed (fs : FileSystem) (place : Location) : Prop :=
  ∀ outer, outer <:+ place → outer ≠ place → fs.node? outer = some .folder

theorem isEnclosed_home (fs : FileSystem) : fs.IsEnclosed fs.home :=
  fun outer around _ => by simp [node?, List.isSuffixOf_iff_suffix.mpr around]

theorem node?_root (fs : FileSystem) : fs.node? [] = some .folder := by simp [node?]

theorem IsEnclosed.tail {fs : FileSystem} {place : Location} (h : fs.IsEnclosed place) :
    fs.IsEnclosed place.tail := by
  intro outer around apart
  refine h outer (around.trans (List.tail_suffix place)) ?_
  rintro rfl
  have bound := around.length_le
  cases outer with
  | nil => exact apart rfl
  | cons inner rest => exact absurd bound (Nat.not_succ_le_self _)

theorem IsEnclosed.step {fs : FileSystem} {folder : Location} (h : fs.IsEnclosed folder)
    (entered : fs.node? folder = some .folder) (part : Path.Part) : fs.IsEnclosed (step folder part) := by
  cases part with
  | root => exact fun outer around apart => absurd (List.suffix_nil.mp around) apart
  | here => exact h
  | up => exact h.tail
  | name text =>
    intro outer around apart
    rcases List.suffix_cons_iff.mp around with whole | inner
    · exact absurd whole apart
    · by_cases same : outer = folder
      · exact same ▸ entered
      · exact h outer inner same

theorem isEnclosed_of_follow {fs : FileSystem} {parts : List Path.Part} {start place : Location}
    (h : fs.IsEnclosed start) (followed : fs.follow start parts = .ok place) : fs.IsEnclosed place := by
  induction parts generalizing start with
  | nil => exact Except.ok.inj followed ▸ h
  | cons part rest ih =>
    rw [follow] at followed
    split at followed
    · exact nomatch followed
    · rename_i entered
      exact ih (h.step entered part) followed
    · exact nomatch followed

theorem exists_name_of_location? {fs : FileSystem} {p : Path} {place : Location}
    (leads : fs.location? p = some place)
    (free : fs.node? place ≠ some .folder) :
    ∃ front name folder, p.steps = front ++ [.name name] ∧ fs.follow fs.home front = .ok folder ∧
      fs.node? folder = some .folder ∧ place = name :: folder := by
  obtain ⟨nonempty, whole⟩ := location?_eq_some_iff.mp leads
  obtain ⟨front, last, split⟩ := (List.eq_nil_or_concat p.steps).resolve_left nonempty
  rw [List.concat_eq_append] at split
  obtain ⟨folder, followed, entered, rfl⟩ := follow_concat_eq_ok_iff.mp (split ▸ whole)
  cases last with
  | name name => exact ⟨front, name, folder, split, followed, entered, rfl⟩
  | root => exact absurd (node?_root fs) free
  | here => exact absurd entered free
  | up =>
    cases folder with
    | nil => exact absurd entered free
    | cons inner outer =>
      have enclosed := isEnclosed_of_follow fs.isEnclosed_home followed
      exact absurd (enclosed outer (List.suffix_cons inner outer) (by simp)) free

theorem target_eq_ok_iff_of_steps_eq {fs : FileSystem} {p : Path} {place : Location}
    {front : List Path.Part} {last : Path.Part} (split : p.steps = front ++ [last]) :
    fs.target p = .ok place ↔
      ∃ folder name, fs.follow fs.home front = .ok folder ∧ fs.node? folder = some .folder ∧
        last = .name name ∧ place = name :: folder ∧ p.endsOpen = false ∧
        fs.node? place ≠ some .folder := by
  unfold target
  simp only [split, List.getLast?_concat, List.dropLast_concat]
  cases fs.follow fs.home front with
  | error e => simp
  | ok folder =>
    simp only [Except.ok.injEq]
    cases held : fs.node? folder with
    | none => simp [held]
    | some node =>
      cases node with
      | folder =>
        cases last with
        | name name =>
          simp only [Path.Part.name.injEq]
          grind
        | _ => simp
      | _ => simp [held]

/-- A path names a file if no folder stands where it leads. -/
theorem target_eq_ok_iff {fs : FileSystem} {p : Path} {place : Location} :
    fs.target p = .ok place ↔
      fs.location? p = some place ∧ p.endsOpen = false ∧ fs.node? place ≠ some .folder := by
  constructor
  · intro named
    obtain empty | ⟨front, last, split⟩ := List.eq_nil_or_concat p.steps
    · simp [target, empty] at named
    · rw [List.concat_eq_append] at split
      obtain ⟨folder, name, followed, entered, rfl, rfl, closed, free⟩ :=
        (target_eq_ok_iff_of_steps_eq split).mp named
      refine ⟨location?_eq_some_iff.mpr ⟨by simp [split], ?_⟩, closed, free⟩
      rw [split, follow_concat_eq_ok_iff]
      exact ⟨folder, followed, entered, rfl⟩
  · rintro ⟨leads, closed, free⟩
    obtain ⟨front, name, folder, split, followed, entered, rfl⟩ := exists_name_of_location? leads free
    exact (target_eq_ok_iff_of_steps_eq split).mpr
      ⟨folder, name, followed, entered, rfl, rfl, closed, free⟩

/-- The place of the file that a path names, whether or not the file is there. -/
def file? (fs : FileSystem) (p : Path) : Option Location := (fs.target p).toOption

theorem file?_eq_some_iff {fs : FileSystem} {p : Path} {place : Location} :
    fs.file? p = some place ↔ fs.target p = .ok place := by
  unfold file?
  cases fs.target p <;> simp [Except.toOption]

theorem read_eq_ok_iff {fs : FileSystem} {p : Path} {text : String} :
    fs.read p = .ok text ↔ ∃ place, fs.file? p = some place ∧ fs.node? place = some (.text text) := by
  simp only [file?_eq_some_iff, target_eq_ok_iff, location?_eq_some_iff]
  unfold read
  by_cases empty : p.steps = []
  · simp [empty]
  · simp only [empty, List.isEmpty_iff, if_false, ne_eq, not_false_eq_true, true_and]
    cases fs.follow fs.home p.steps with
    | error e => simp
    | ok place =>
      simp only [Except.ok.injEq, exists_eq_left', and_assoc]
      cases held : fs.node? place with
      | none => simp
      | some node => cases node <;> cases p.endsOpen <;> simp

/-- Whether two file systems have the same folders, and paths start in the same one. -/
structure SameFolders (before after : FileSystem) : Prop where
  home : after.home = before.home
  folders : ∀ place, after.node? place = some .folder ↔ before.node? place = some .folder

namespace SameFolders

variable {before after : FileSystem}

theorem refl (fs : FileSystem) : fs.SameFolders fs := ⟨rfl, fun _ => Iff.rfl⟩

theorem symm (h : before.SameFolders after) : after.SameFolders before :=
  ⟨h.home.symm, fun place => (h.folders place).symm⟩

theorem trans {last : FileSystem} (h : before.SameFolders after) (h' : after.SameFolders last) :
    before.SameFolders last :=
  ⟨h'.home.trans h.home, fun place => (h'.folders place).trans (h.folders place)⟩

theorem follow_eq_ok_iff (h : before.SameFolders after) {start place : Location} {parts : List Path.Part} :
    after.follow start parts = .ok place ↔ before.follow start parts = .ok place := by
  induction parts generalizing start with
  | nil => rfl
  | cons part rest ih =>
    have enter (fs : FileSystem) : fs.follow start (part :: rest) = .ok place ↔
        fs.node? start = some .folder ∧ fs.follow (step start part) rest = .ok place := by
      rw [follow]
      split <;> simp_all
    rw [enter, enter, h.folders, ih]

theorem location?_eq (h : before.SameFolders after) (p : Path) :
    after.location? p = before.location? p := by
  ext place
  simp only [location?_eq_some_iff, h.home, h.follow_eq_ok_iff]

theorem file?_eq (h : before.SameFolders after) (p : Path) : after.file? p = before.file? p := by
  ext place
  simp only [file?_eq_some_iff, target_eq_ok_iff, h.location?_eq, ne_eq, h.folders]

/-- A file can be read as before if nothing has changed where it stands. -/
theorem read_eq_ok_iff (h : before.SameFolders after) {p : Path} {text : String}
    (kept : ∀ place, before.file? p = some place → after.node? place = before.node? place) :
    after.read p = .ok text ↔ before.read p = .ok text := by
  rw [FileSystem.read_eq_ok_iff, FileSystem.read_eq_ok_iff, h.file?_eq]
  exact exists_congr fun place => and_congr_right fun named => by rw [kept place named]

end SameFolders

section

variable {fs after : FileSystem} {p : Path} {place : Location} {text : String}

theorem exists_target_of_write (written : fs.write p text = .ok after) :
    ∃ place, fs.target p = .ok place := by
  cases named : fs.target p with
  | error e => simp [write, named] at written
  | ok place => exact ⟨place, rfl⟩

theorem target_eq_error_of_write {cause : SystemError} (failed : fs.write p text = .error cause) :
    fs.target p = .error cause := by
  cases named : fs.target p with
  | error e => simpa [write, named] using failed
  | ok place => simp [write, named] at failed

theorem node?_of_write (named : fs.target p = .ok place) (written : fs.write p text = .ok after)
    (other : Location) : after.node? other = if other = place then some (.text text) else fs.node? other := by
  have free := (target_eq_ok_iff.mp named).2.2
  obtain rfl : fs.put place (.text text) = after := by simpa [write, named] using written
  rw [node?_put]
  by_cases outer : other.isSuffixOf fs.home = true
  · have folder : fs.node? other = some .folder := by simp [node?, outer]
    have apart : other ≠ place := fun equal => free (equal ▸ folder)
    simp [outer, apart, folder]
  · simp [outer]

theorem sameFolders_of_write (written : fs.write p text = .ok after) : fs.SameFolders after := by
  obtain ⟨place, named⟩ := exists_target_of_write written
  refine ⟨?_, fun other => ?_⟩
  · obtain rfl : fs.put place (.text text) = after := by simpa [write, named] using written
    rfl
  · have free := (target_eq_ok_iff.mp named).2.2
    rw [node?_of_write named written]
    split
    · rename_i here
      simp [here, free]
    · rfl

theorem read_of_write (written : fs.write p text = .ok after) : after.read p = .ok text := by
  obtain ⟨place, named⟩ := exists_target_of_write written
  refine read_eq_ok_iff.mpr ⟨place, ?_, ?_⟩
  · rw [(sameFolders_of_write written).file?_eq, file?_eq_some_iff, named]
  · rw [node?_of_write named written, if_pos rfl]

end

end ShaderText.FileSystem
