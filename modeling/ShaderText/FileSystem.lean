import ShaderText.Path

/-! A file system as a value: the folder that relative paths start from, and what stands at each
location. Paths are followed one step at a time and each step needs a folder, so a path can fail even
where its steps cancel out. Main statements: putting a node at a location changes that location and no
other.
-/
namespace ShaderText

inductive SystemError
  | missing
  | notFolder
  | isFolder
  | notText
  | other (message : String)
deriving Repr, DecidableEq

def SystemError.message : SystemError → String
  | missing => "No such file or directory (os error 2)"
  | notFolder => "Not a directory (os error 20)"
  | isFolder => "Is a directory (os error 21)"
  | notText => "stream did not contain valid UTF-8"
  | other message => message

/-- The names from the innermost to the outermost folder. -/
abbrev Location := List (List Char)

inductive Node
  | folder
  | text (content : String)
  /-- A file whose bytes are no UTF-8 text. -/
  | binary
deriving Repr, DecidableEq

structure FileSystem where
  home : Location
  nodes : List (Location × Node)
deriving Repr

namespace FileSystem

/-- What stands at a location. The folders around the home folder are always there. -/
def node? (fs : FileSystem) (place : Location) : Option Node :=
  if place.isSuffixOf fs.home then some .folder else fs.nodes.lookup place

def put (fs : FileSystem) (place : Location) (node : Node) : FileSystem :=
  { fs with nodes := (place, node) :: fs.nodes.filter fun entry => entry.1 != place }

/-- The location one step from a folder. -/
def step (place : Location) : Path.Part → Location
  | .root => []
  | .here => place
  | .up => place.tail
  | .name text => text :: place

/-- The location that the steps lead to. Every step but the first to the root starts in a folder. -/
def follow (fs : FileSystem) (place : Location) : List Path.Part → Except SystemError Location
  | [] => .ok place
  | part :: rest =>
    match fs.node? place with
    | none => .error .missing
    | some .folder => fs.follow (step place part) rest
    | some _ => .error .notFolder

def read (fs : FileSystem) (p : Path) : Except SystemError String :=
  if p.steps.isEmpty then .error .missing
  else
    match fs.follow fs.home p.steps with
    | .error e => .error e
    | .ok place =>
      match fs.node? place with
      | none => .error .missing
      | some .folder => .error .isFolder
      | some (.text content) => if p.endsOpen then .error .notFolder else .ok content
      | some .binary => if p.endsOpen then .error .notFolder else .error .notText

def isFolder (fs : FileSystem) (p : Path) : Bool :=
  !p.steps.isEmpty &&
    match fs.follow fs.home p.steps with
    | .error _ => false
    | .ok place => fs.node? place == some .folder

/-- The location of the file that writing to a path creates or replaces. -/
def target (fs : FileSystem) (p : Path) : Except SystemError Location :=
  match p.steps.getLast? with
  | none => .error .missing
  | some last =>
    match fs.follow fs.home p.steps.dropLast with
    | .error e => .error e
    | .ok folder =>
      match fs.node? folder with
      | none => .error .missing
      | some .folder =>
        match last with
        | .name text =>
          if p.endsOpen || fs.node? (text :: folder) == some .folder then .error .isFolder
          else .ok (text :: folder)
        | _ => .error .isFolder
      | some _ => .error .notFolder

def write (fs : FileSystem) (p : Path) (content : String) : Except SystemError FileSystem :=
  match fs.target p with
  | .error e => .error e
  | .ok place => .ok (fs.put place (.text content))

def makeFolders (fs : FileSystem) (place : Location) : List Path.Part → FileSystem
  | [] => fs
  | part :: rest =>
    let next := step place part
    (if (fs.node? next).isSome then fs else fs.put next .folder).makeFolders next rest

def addFolder (fs : FileSystem) (p : Path) : FileSystem := fs.makeFolders fs.home p.steps

def addFile (fs : FileSystem) (p : Path) (node : Node) : FileSystem :=
  let place := p.steps.foldl step fs.home
  (fs.makeFolders fs.home p.steps.dropLast).put place node

private theorem lookup_filter_ne {place other : Location} (apart : other ≠ place)
    (nodes : List (Location × Node)) :
    (nodes.filter fun entry => entry.1 != place).lookup other = nodes.lookup other := by
  induction nodes with
  | nil => rfl
  | cons entry rest ih =>
    obtain ⟨key, held⟩ := entry
    by_cases here : key = place
    · have different : (other == place) = false := beq_false_of_ne apart
      simp [here, List.lookup_cons, different, ih]
    · by_cases equal : other = key
      · subst equal
        simp [here]
      · simp [here, List.lookup_cons, beq_false_of_ne equal, ih]

theorem node?_put (fs : FileSystem) (place other : Location) (node : Node) :
    (fs.put place node).node? other =
      if other.isSuffixOf fs.home then some .folder
      else if other = place then some node else fs.node? other := by
  by_cases outer : other.isSuffixOf fs.home = true
  · simp [node?, put, outer]
  · by_cases same : other = place
    · subst same
      simp only [node?, put, if_neg outer, List.lookup_cons_self, if_true]
    · simp only [node?, put, if_neg outer, if_neg same, List.lookup_cons, beq_false_of_ne same]
      exact lookup_filter_ne same fs.nodes

def pathText (names : List (List Char)) : String := "/".intercalate (names.map String.ofList)

/-- A location as a path from the home folder, if it lies there. -/
def homePath? (fs : FileSystem) (place : Location) : Option String :=
  if fs.home.isSuffixOf place then some (pathText (place.take (place.length - fs.home.length)).reverse)
  else none

def rootPath (place : Location) : String := "/" ++ pathText place.reverse

def changesSince (after before : FileSystem) : List (Location × String) :=
  after.nodes.filterMap fun (place, node) =>
    match node with
    | .text content => if before.node? place = some node then none else some (place, content)
    | _ => none

end FileSystem
end ShaderText
