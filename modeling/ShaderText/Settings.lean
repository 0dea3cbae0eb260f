import ShaderText.Word

/-! Settings: at most one text for each word of a family. They have no order of their own and are
listed in the order of the family. Main statement: settings are equal when they hold the same texts.
-/
namespace ShaderText

/-- At most one text for each member of a family. -/
@[ext] structure Settings (κ : Type) where
  get? : κ → Option String

namespace Settings

variable {κ : Type}

def empty : Settings κ := ⟨fun _ => none⟩

def insert [DecidableEq κ] (s : Settings κ) (key : κ) (value : String) : Settings κ :=
  ⟨fun k => if k = key then some value else s.get? k⟩

def insertAll [DecidableEq κ] (s : Settings κ) (pairs : List (κ × String)) : Settings κ :=
  pairs.foldl (fun s pair => s.insert pair.1 pair.2) s

def exchange [DecidableEq κ] (s : Settings κ) (key : κ) (value : String) : Option String × Settings κ :=
  (s.get? key, s.insert key value)

def mapValues (f : String → String) (s : Settings κ) : Settings κ := ⟨fun k => (s.get? k).map f⟩

@[simp] theorem get?_insert [DecidableEq κ] (s : Settings κ) (key other : κ) (value : String) :
    (s.insert key value).get? other = if other = key then some value else s.get? other := rfl

variable [WordFamily κ]

def entries (s : Settings κ) : List (κ × String) :=
  (WordFamily.all : List κ).filterMap fun k => (s.get? k).map fun value => (k, value)

def isEmpty (s : Settings κ) : Bool := s.entries.isEmpty

theorem eq_iff {s t : Settings κ} :
    s = t ↔ (WordFamily.all : List κ).all fun k => s.get? k == t.get? k := by
  constructor
  · rintro rfl
    simp
  · intro same
    ext1
    funext k
    simpa using List.all_eq_true.mp same k (WordFamily.mem_all k)

instance : DecidableEq (Settings κ) := fun _ _ => decidable_of_iff' _ eq_iff

theorem mem_entries {s : Settings κ} {k : κ} {value : String} :
    (k, value) ∈ s.entries ↔ s.get? k = some value := by
  simp only [entries, List.mem_filterMap, Option.map_eq_some_iff]
  constructor
  · rintro ⟨j, _, v, held, equal⟩
    obtain ⟨rfl, rfl⟩ := Prod.mk.inj equal
    exact held
  · intro held
    exact ⟨k, WordFamily.mem_all k, value, held, rfl⟩

end Settings
end ShaderText
