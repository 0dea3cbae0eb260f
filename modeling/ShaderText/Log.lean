/-! Log messages as values. A message has a level and comes from a part of the program; a log shows the
messages that are at least as severe as its limit. Main statement: a lower limit shows a part of what
a higher one shows.
-/
namespace ShaderText

namespace Log

inductive Level
  | error
  | warn
  | info
  | debug
  | trace
deriving Repr, DecidableEq

namespace Level

def rank : Level → Nat
  | error => 1
  | warn => 2
  | info => 3
  | debug => 4
  | trace => 5

def word : Level → String
  | error => "ERROR"
  | warn => "WARN"
  | info => "INFO"
  | debug => "DEBUG"
  | trace => "TRACE"

/-- The limit that a number of requests for more messages sets. -/
def ofVerbosity : Nat → Level
  | 0 => error
  | 1 => warn
  | 2 => info
  | 3 => debug
  | _ => trace

end Level

inductive Part
  | command
  | revision
  | loading
  | reading
  | scanning
  | code
  | tree
deriving Repr, DecidableEq

def Part.word : Part → String
  | command => "main"
  | revision => "rewrite"
  | loading => "utils"
  | reading => "parser::core"
  | scanning => "scanner::core"
  | code => "program"
  | tree => "tree"

structure Message where
  level : Level
  part : Part
  text : String
deriving Repr, DecidableEq

def Message.line (m : Message) : String := s!"{m.level.word} {m.part.word}: {m.text}"

def shown (limit : Option Level) (messages : List Message) : List Message :=
  messages.filter fun m => limit.any fun level => m.level.rank ≤ level.rank

theorem mem_shown_of_le {low high : Level} (le : low.rank ≤ high.rank) {m : Message}
    {messages : List Message} (h : m ∈ shown (some low) messages) : m ∈ shown (some high) messages := by
  simp only [shown, List.mem_filter, Option.any_some, decide_eq_true_eq] at *
  exact ⟨h.1, by omega⟩

end Log
end ShaderText
