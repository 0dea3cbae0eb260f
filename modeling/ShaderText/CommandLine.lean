import ShaderText.CommandLine.Options
import ShaderText.Log.Batch
import ShaderText.Shader.Dump

/-! The command line of the program. It lays shaders out anew, revises them, or prints one of them as
JSON. The outcome is a value: the exit code, what is printed, the log and the files afterwards.
-/
namespace ShaderText.CommandLine

open Log

def helpRule : OptionRule := ⟨.help, "help", some 'h', false, true⟩

def outputRule : OptionRule := ⟨.output, "output", some 'o', true, false⟩

/-- An option of a revision: it takes a value and may be given more than once. -/
def revisionRule (name : OptionName) (long : String) (letter? : Option Char) : OptionRule :=
  ⟨name, long, letter?, true, true⟩

def programLevel : Level where
  options :=
    [helpRule, ⟨.version, "version", some 'V', false, true⟩, ⟨.verbose, "verbose", some 'v', false, true⟩,
      ⟨.threads, "threads", some 'n', true, false⟩]
  subcommands := ["format", "rewrite", "dump", "help"]
  limit? := some 0

def formatLevel : Level := ⟨[helpRule, outputRule], [], none⟩

def reviseLevel : Level where
  options :=
    [helpRule, outputRule, revisionRule .removePass "remove-pass" none, revisionRule .strip "strip" none,
      revisionRule .define "define" (some 'D'), revisionRule .insertBefore "insert-before" none,
      revisionRule .replaceInclude "include" (some 'I'), revisionRule .tag "tag" (some 't'),
      revisionRule .substitute "var" none, ⟨.noName, "no-name", none, false, false⟩]
  subcommands := []
  limit? := none

def dumpLevel : Level := ⟨[helpRule, ⟨.compact, "compact", some 'c', false, false⟩], [], some 1⟩

inductive Command
  | format (output? : Option Path) (shaders : List Path)
  | revise (output? : Option Path) (shaders : List Path) (arguments : RevisionArguments)
  | dump (isPretty : Bool) (shader : Path)
deriving Repr

structure Invocation where
  verbosity : Nat
  threads : Nat
  command : Command
deriving Repr

/-- A number of threads: decimal digits, after at most one plus sign, below 2^64. Another text asks for
one thread. -/
def threadsOf (text : String) : Nat :=
  let digits :=
    match text.toList with
    | '+' :: rest => rest
    | cs => cs
  let value := digits.foldl (fun n c => 10 * n + (c.toNat - '0'.toNat)) 0
  if digits.isEmpty || !digits.all Char.isDigit || UInt64.size ≤ value then 1 else value

/-- The reading of a subcommand, which must be complete and have an operand. -/
def readSubcommand (level : Level) (arguments : List String) : Except Stop Reading := do
  let (r, _) ← Reading.start.readLevel level arguments
  if r.isComplete level && !r.operands.isEmpty then .ok r else .error .usage

def outputOf? (r : Reading) : Option Path := (r.values .output).head?.map fun text => ⟨text⟩

def shadersOf (r : Reading) : List Path := r.operands.map fun text => ⟨text⟩

def revisionOf (r : Reading) : RevisionArguments where
  removePass := r.values .removePass
  strip := r.values .strip
  define := r.values .define
  insertBefore := r.values .insertBefore
  replaceInclude := r.values .replaceInclude
  tag := r.values .tag
  substitute := r.values .substitute
  noName := r.count .noName != 0

def Command.read (word : String) (arguments : List String) : Except Stop Command := do
  match word with
  | "format" =>
    let r ← readSubcommand formatLevel arguments
    .ok (.format (outputOf? r) (shadersOf r))
  | "rewrite" =>
    let r ← readSubcommand reviseLevel arguments
    .ok (.revise (outputOf? r) (shadersOf r) (revisionOf r))
  | "dump" =>
    let r ← readSubcommand dumpLevel arguments
    .ok (.dump (r.count .compact == 0) ⟨r.operands.head?.getD ""⟩)
  | "help" =>
    if arguments.all programLevel.subcommands.contains then .error .help else .error .usage
  | _ => .error .usage

def Invocation.read (arguments : List String) : Except Stop Invocation := do
  let (r, rest) ← Reading.start.readLevel programLevel arguments
  match rest with
  | [] => .error .usage
  | word :: rest =>
    let command ← Command.read word rest
    if r.isComplete programLevel then
      .ok ⟨r.count .verbose, ((r.values .threads).head?.map threadsOf).getD 1, command⟩
    else .error .usage

structure Outcome where
  exitCode : Nat
  printed : String
  log : List Message
  files : FileSystem
deriving Repr

def Outcome.ofError (printed : String) (log : List Message) (files : FileSystem) : Option String → Outcome
  | none => ⟨0, printed, log, files⟩
  | some message => ⟨1, printed, log ++ [⟨.error, .command, message⟩], files⟩

def runBatch (b : Batch) (files : FileSystem) : Outcome :=
  let (desk, error?) := b.run files
  .ofError desk.printed (b.log files) desk.files (error?.map RunError.message)

/-- The files that a command may read, and the output path it was given. -/
def Command.paths : Command → List Path
  | format output? shaders => output?.toList ++ shaders
  | revise output? shaders arguments =>
    let files :=
      match arguments.toRevision with
      | .error _ => []
      | .ok revision => revision.insertBefore.map InsertionRule.file ++ revision.includes.map Prod.snd
    output?.toList ++ shaders ++ files
  | dump _ shader => [shader]

/-- The files that a command may write. -/
def Command.targets (files : FileSystem) : Command → List Path
  | format output? shaders | revise output? shaders _ =>
    (Batch.tasks files ⟨1, output?, shaders, .none⟩).filterMap fun t =>
      match t.output with
      | .standard => none
      | .file path => some path
  | dump _ _ => []

def Command.run (threads : Nat) (files : FileSystem) : Command → Outcome
  | format output? shaders => runBatch ⟨threads, output?, shaders, .none⟩ files
  | revise output? shaders arguments =>
    match arguments.toRevision with
    | .error e => .ofError "" [] files (some e.message)
    | .ok revision => runBatch ⟨threads, output?, shaders, revision⟩ files
  | dump isPretty shader =>
    let log := Shader.loadLog files.reader shader
    match Shader.load files.reader shader with
    | .error e => .ofError "" log files (some e.message)
    | .ok s => .ofError (s.dump isPretty ++ "\n") log files none

def greeting : Message := ⟨.info, .command, "Initializing BlockProject 3D ShaderLab Rewriter..."⟩

def usage : String :=
  "Usage: shaderw [-v]... [-n THREADS] format [-o OUTPUT] SHADER...\n" ++
  "       shaderw [-v]... [-n THREADS] rewrite [-o OUTPUT] [OPTION]... SHADER...\n" ++
  "       shaderw [-v]... dump [-c] SHADER\n"

/-- The outcome of a command line, with the messages that it asks to see. -/
def run (arguments : List String) (files : FileSystem) : Outcome :=
  match Invocation.read arguments with
  | .error .usage => ⟨2, "", [], files⟩
  | .error .help => ⟨0, usage, [], files⟩
  | .error .version => ⟨0, "shaderw 0.1.0\n", [], files⟩
  | .ok invocation =>
    let outcome := invocation.command.run invocation.threads files
    { outcome with log := shown (some (Level.ofVerbosity invocation.verbosity)) (greeting :: outcome.log) }

end ShaderText.CommandLine
