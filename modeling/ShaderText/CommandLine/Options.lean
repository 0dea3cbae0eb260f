/-! Options on a command line. A level of a command line has options, and either subcommands or
operands. An option is written by its long name or by one letter; a value follows in the same argument
or as the next one. After two dashes alone everything is an operand. Main statement: reading a level
takes its arguments from the front.
-/
namespace ShaderText.CommandLine

inductive OptionName
  | help
  | version
  | verbose
  | threads
  | output
  | removePass
  | strip
  | define
  | insertBefore
  | replaceInclude
  | tag
  | substitute
  | noName
  | compact
deriving Repr, DecidableEq

structure OptionRule where
  name : OptionName
  long : String
  letter? : Option Char
  takesValue : Bool
  isRepeatable : Bool
deriving Repr

/-- What a level knows: its options, the words of its subcommands, and the number of operands that it
takes at most, if there is a limit. -/
structure Level where
  options : List OptionRule
  subcommands : List String
  limit? : Option Nat
deriving Repr

/-- Why the reading of a command line ends before anything is run. -/
inductive Stop
  | usage
  | help
  | version
deriving Repr, DecidableEq

structure Given where
  name : OptionName
  value : String
deriving Repr, DecidableEq

/-- A level that is being read: what was given so far, the operands, the option that waits for its
value, whether an option was left without one, and whether only operands follow. -/
structure Reading where
  given : List Given
  operands : List String
  waiting? : Option OptionName
  isFaulty : Bool
  onlyOperands : Bool
deriving Repr

namespace Reading

def start : Reading := ⟨[], [], none, false, false⟩

def give (r : Reading) (name : OptionName) (value : String) : Reading :=
  { r with given := r.given ++ [⟨name, value⟩] }

/-- The reading when the next argument is an option. One that still waits for a value misses it. -/
def leaveWaiting (r : Reading) : Reading :=
  { r with isFaulty := r.isFaulty || r.waiting?.isSome, waiting? := none }

def operand (level : Level) (r : Reading) (argument : String) : Except Stop Reading :=
  if level.limit?.all (r.operands.length < ·) then .ok { r with operands := r.operands ++ [argument] }
  else .error .usage

def option (r : Reading) (rule : OptionRule) (value? : Option String) : Except Stop Reading :=
  match rule.takesValue, value? with
  | true, some value => .ok (r.give rule.name value)
  | true, none => .ok { r with waiting? := some rule.name }
  | false, some _ => .error .usage
  | false, none =>
    match rule.name with
    | .help => .error .help
    | .version => .error .version
    | name => .ok (r.give name "")

/-- The reading after an argument that starts with two dashes, given without them. -/
def long (level : Level) (r : Reading) (text : List Char) : Except Stop Reading :=
  let name := String.ofList (text.takeWhile (· != '='))
  let value? :=
    match text.dropWhile (· != '=') with
    | [] => none
    | _ :: value => some (String.ofList value)
  match level.options.find? fun rule => rule.long == name with
  | none => .error .usage
  | some rule => r.leaveWaiting.option rule value?

/-- The reading after the letters behind one dash. The first letter whose option takes a value takes
the letters after it, less an equals sign in front. -/
def letters (level : Level) (r : Reading) : List Char → Except Stop Reading
  | [] => .ok r
  | c :: rest =>
    match level.options.find? fun rule => rule.letter? == some c with
    | none => .error .usage
    | some rule =>
      if rule.takesValue then
        match rest with
        | [] => r.option rule none
        | '=' :: value => r.option rule (some (String.ofList value))
        | value => r.option rule (some (String.ofList value))
      else do letters level (← r.option rule none) rest

def read (level : Level) (r : Reading) (argument : String) : Except Stop Reading :=
  if r.onlyOperands then r.operand level argument
  else
    match argument.toList with
    | ['-', '-'] => .ok { r with onlyOperands := true }
    | '-' :: '-' :: text => r.long level text
    | '-' :: c :: rest => r.leaveWaiting.letters level (c :: rest)
    | _ =>
      match r.waiting? with
      | some name => .ok { (r.give name argument) with waiting? := none }
      | none => r.operand level argument

def isSubcommand (level : Level) (r : Reading) (argument : String) : Bool :=
  !r.onlyOperands && r.waiting?.isNone && level.subcommands.contains argument

/-- Reads a level up to a subcommand or the end: the reading, and the arguments that are left. -/
def readLevel (level : Level) (r : Reading) : List String → Except Stop (Reading × List String)
  | [] => .ok (r, [])
  | argument :: rest =>
    if r.isSubcommand level argument then .ok (r, argument :: rest)
    else do readLevel level (← r.read level argument) rest

def values (r : Reading) (name : OptionName) : List String :=
  (r.given.filter fun g => g.name == name).map Given.value

def count (r : Reading) (name : OptionName) : Nat := (r.values name).length

/-- Whether every option has its value and none was given too often. -/
def isComplete (level : Level) (r : Reading) : Bool :=
  !r.isFaulty && r.waiting?.isNone &&
    level.options.all fun rule => rule.isRepeatable || r.count rule.name ≤ 1

theorem readLevel_suffix {level : Level} {r r' : Reading} {arguments rest : List String}
    (h : readLevel level r arguments = .ok (r', rest)) : rest <:+ arguments := by
  induction arguments generalizing r with
  | nil =>
    obtain ⟨_, rfl⟩ := Prod.mk.inj (Except.ok.inj h)
    exact List.suffix_refl _
  | cons argument arguments ih =>
    unfold readLevel at h
    split at h
    · obtain ⟨_, rfl⟩ := Prod.mk.inj (Except.ok.inj h)
      exact List.suffix_refl _
    · cases next : r.read level argument with
      | error stop => simp [next, bind, Except.bind] at h
      | ok r'' =>
        simp only [next, bind, Except.bind] at h
        exact (ih h).trans (List.suffix_cons _ _)

end Reading
end ShaderText.CommandLine
