import ShaderText.Revision
import ShaderText.Pattern.Parse

/-! Revisions as a command line writes them. Each argument is a name and a value around an equals
sign. What a pattern is, and which lines it is found in, is left to a reader of patterns. Main
statement: the parts of a pair, put together again, are the argument.
-/
namespace ShaderText

inductive ArgumentFault
  | notPair
  | notRule
  | notPattern
  | notDefinition
  | noInput
  | notFolder
deriving Repr, DecidableEq

def ArgumentFault.message : ArgumentFault → String
  | notPair => "expected NAME=VALUE"
  | notRule => "expected PATTERN=FILE"
  | notPattern => "invalid regular expression"
  | notDefinition => "expected NAME[=VALUE]"
  | noInput => "no input shader"
  | notFolder => "several shaders need an output directory"

structure ArgumentError where
  argument : String
  fault : ArgumentFault
deriving Repr, DecidableEq

def ArgumentError.message (e : ArgumentError) : String := s!"invalid argument '{e.argument}': {e.fault.message}"

/-- The test of the lines that a pattern is found in, if the text is a pattern. -/
abbrev PatternReader := String → Option (String → Bool)

def Pattern.reader : PatternReader := fun source => (Pattern.parse source).toOption.map Pattern.isFoundIn

namespace Argument

def isEquals (c : Char) : Bool := c == '='

def splitFirst? (cs : List Char) : Option (List Char × List Char) :=
  match cs.dropWhile fun c => !isEquals c with
  | [] => none
  | _ :: value => some (cs.takeWhile fun c => !isEquals c, value)

def splitLast? (cs : List Char) : Option (List Char × List Char) :=
  (splitFirst? cs.reverse).map fun (value, name) => (name.reverse, value.reverse)

/-- A name and a value. Only the value may be empty. -/
def pair (argument : String) : Except ArgumentError (String × String) :=
  match splitFirst? argument.toList with
  | some (c :: name, value) => .ok (String.ofList (c :: name), String.ofList value)
  | _ => .error ⟨argument, .notPair⟩

/-- A pattern and a file. Only the pattern may be empty. -/
def ruleBy (patterns : PatternReader) (argument : String) : Except ArgumentError InsertionRule :=
  match splitLast? argument.toList with
  | some (source, c :: file) =>
    let source := String.ofList source
    match patterns source with
    | some test => .ok ⟨source, test, ⟨String.ofList (c :: file)⟩⟩
    | none => .error ⟨argument, .notPattern⟩
  | _ => .error ⟨argument, .notRule⟩

def rule (argument : String) : Except ArgumentError InsertionRule := ruleBy Pattern.reader argument

def definition (argument : String) : Except ArgumentError String :=
  let (name, value) := (splitFirst? argument.toList).getD (argument.toList, [])
  if name.isEmpty || name.any isBlank then .error ⟨argument, .notDefinition⟩
  else if value.isEmpty then .ok ("#define " ++ String.ofList name)
  else .ok ("#define " ++ String.ofList name ++ " " ++ String.ofList value)

theorem eq_of_splitFirst? {cs name value : List Char} (h : splitFirst? cs = some (name, value)) :
    cs = name ++ '=' :: value ∧ '=' ∉ name := by
  unfold splitFirst? at h
  split at h
  · simp at h
  · rename_i c rest found
    obtain ⟨rfl, rfl⟩ := Prod.mk.inj (Option.some.inj h)
    constructor
    · have sign : c = '=' := by
        have := List.head_dropWhile_not (p := fun c => !isEquals c) (l := cs) (by rw [found]; simp)
        simp only [found, List.head_cons] at this
        simpa [isEquals] using this
      conv => lhs; rw [← List.takeWhile_append_dropWhile (p := fun c => !isEquals c) (l := cs)]
      rw [found, sign]
    · intro member
      have := List.all_eq_true.mp (List.all_takeWhile (p := fun c => !isEquals c) (l := cs)) _ member
      simp [isEquals] at this

end Argument

/-- The arguments of a revision, each list in the order of the command line. -/
structure RevisionArguments where
  removePass : List String
  strip : List String
  define : List String
  insertBefore : List String
  replaceInclude : List String
  tag : List String
  substitute : List String
  noName : Bool
deriving Repr

/-- The revision that the arguments describe, or the first argument that is wrong. -/
def RevisionArguments.toRevisionBy (patterns : PatternReader) (a : RevisionArguments) :
    Except ArgumentError Revision := do
  let defines ← a.define.mapM Argument.definition
  let insertBefore ← a.insertBefore.mapM (Argument.ruleBy patterns)
  let includes ← a.replaceInclude.mapM Argument.pair
  let tags ← a.tag.mapM Argument.pair
  let bindings ← a.substitute.mapM Argument.pair
  return {
    removePasses := a.removePass
    strip := a.strip
    defines
    insertBefore
    includes := includes.map fun (path, file) => (path, ⟨file⟩)
    tags
    bindings
    withName := !a.noName }

def RevisionArguments.toRevision (a : RevisionArguments) : Except ArgumentError Revision :=
  a.toRevisionBy Pattern.reader

end ShaderText
