import ShaderText.Pattern

/-! The tokens of a pattern's text. A token is an atom, a repetition, or one of the marks that put
patterns together. Every scan answers what it read and the text that is left, which is never longer
than the text given.
-/
namespace ShaderText

inductive PatternError
  | unopenedGroup
  | unclosedGroup
  | nothingToRepeat
  | badCount
  | unclosedClass
  | badRange
  | badEscape
  | badFlags
  | badName
deriving Repr, DecidableEq

def Scan (α : Type) : Type :=
  (cs : List Char) → Except PatternError (α × { rest : List Char // rest.length ≤ cs.length })

namespace Scan

instance : Monad Scan where
  pure a := fun cs => .ok (a, ⟨cs, Nat.le_refl _⟩)
  bind first next := fun cs =>
    match first cs with
    | .error e => .error e
    | .ok (a, ⟨rest, le⟩) =>
      match next a rest with
      | .error e => .error e
      | .ok (b, ⟨last, le'⟩) => .ok (b, ⟨last, Nat.le_trans le' le⟩)

def fail {α : Type} (e : PatternError) : Scan α := fun _ => .error e

def peek : Scan (Option Char) := fun cs => .ok (cs.head?, ⟨cs, Nat.le_refl _⟩)

def peekSecond : Scan (Option Char) := fun cs => .ok (cs.tail.head?, ⟨cs, Nat.le_refl _⟩)

def take (e : PatternError) : Scan Char
  | [] => .error e
  | c :: cs => .ok (c, ⟨cs, by simp⟩)

/-- Passes over the next character if it is `c`, and tells whether it was. -/
def skip? (c : Char) : Scan Bool
  | [] => .ok (false, ⟨[], Nat.le_refl _⟩)
  | d :: cs => if d = c then .ok (true, ⟨cs, by simp⟩) else .ok (false, ⟨d :: cs, Nat.le_refl _⟩)

def takeWhile (test : Char → Bool) : Scan (List Char) := fun cs =>
  .ok (cs.takeWhile test, ⟨cs.dropWhile test, (List.dropWhile_suffix test).length_le⟩)

def takeMany (e : PatternError) : Nat → Scan (List Char)
  | 0 => pure []
  | n + 1 => do
    let c ← take e
    let rest ← takeMany e n
    pure (c :: rest)

end Scan

inductive Escape
  | char (c : Char)
  | set (set : CharSet)
  | anchor (a : Anchor)

def hexValue? (c : Char) : Option Nat :=
  if c.isDigit then some (c.toNat - '0'.toNat)
  else if 'a' ≤ c ∧ c ≤ 'f' then some (c.toNat - 'a'.toNat + 10)
  else if 'A' ≤ c ∧ c ≤ 'F' then some (c.toNat - 'A'.toNat + 10)
  else none

def charOfHex? (digits : List Char) : Option Char :=
  if digits.isEmpty then none
  else
    let value := digits.foldl (fun n? c => n?.bind fun n => (hexValue? c).map fun d => 16 * n + d) (some 0)
    value.bind fun n => if n.isValidChar then some (Char.ofNat n) else none

/-- A character by its code point: in braces, or as a fixed number of digits. -/
def Escape.scanHex (digits : Nat) : Scan Escape := do
  let text ←
    if ← Scan.skip? '{' then
      let text ← Scan.takeWhile (· != '}')
      let _ ← Scan.take .badEscape
      pure text
    else Scan.takeMany .badEscape digits
  match charOfHex? text with
  | some c => pure (.char c)
  | none => Scan.fail .badEscape

def propertySet? (name : List Char) : Option CharSet :=
  let name := String.ofList (name.map Char.toLower)
  if name = "l" ∨ name = "letter" then some .letter
  else if name = "nd" ∨ name = "decimal_number" then some .digit
  else if name = "white_space" then some .blank
  else none

/-- A set by the name of a property: one letter, or a name in braces that may be negated. -/
def Escape.scanProperty (negated : Bool) : Scan Escape := do
  let (negated, name) ←
    if ← Scan.skip? '{' then
      let inverse ← Scan.skip? '^'
      let name ← Scan.takeWhile (· != '}')
      let _ ← Scan.take .badEscape
      pure (negated != inverse, name)
    else
      let c ← Scan.take .badEscape
      pure (negated, [c])
  match propertySet? name with
  | some found => pure (.set (if negated then .compl found else found))
  | none => Scan.fail .badEscape

/-- Whether a backslash makes a character stand for itself. -/
def isEscapable (c : Char) : Bool := c.toNat < 0x80 && !c.isAlphanum && c != '<' && c != '>'

def Escape.scan : Scan Escape := do
  let c ← Scan.take .badEscape
  match c with
  | 'd' => pure (.set .digit)
  | 'D' => pure (.set (.compl .digit))
  | 's' => pure (.set .blank)
  | 'S' => pure (.set (.compl .blank))
  | 'w' => pure (.set .word)
  | 'W' => pure (.set (.compl .word))
  | 'p' => scanProperty false
  | 'P' => scanProperty true
  | 'b' => pure (.anchor .wordEdge)
  | 'B' => pure (.anchor .noWordEdge)
  | 'A' => pure (.anchor .textStart)
  | 'z' => pure (.anchor .textEnd)
  | 'n' => pure (.char '\n')
  | 'r' => pure (.char '\r')
  | 't' => pure (.char '\t')
  | 'a' => pure (.char '\x07')
  | 'f' => pure (.char '\x0c')
  | 'v' => pure (.char '\x0b')
  | 'x' => scanHex 2
  | 'u' => scanHex 4
  | 'U' => scanHex 8
  | c => if isEscapable c then pure (.char c) else Scan.fail .badEscape

def namedSet? (name : List Char) : Option CharSet :=
  match String.ofList name with
  | "alnum" => some (.ofRanges [('0', '9'), ('A', 'Z'), ('a', 'z')])
  | "alpha" => some (.ofRanges [('A', 'Z'), ('a', 'z')])
  | "ascii" => some (.range '\x00' '\x7f')
  | "blank" => some (.ofRanges [('\t', '\t'), (' ', ' ')])
  | "cntrl" => some (.ofRanges [('\x00', '\x1f'), ('\x7f', '\x7f')])
  | "digit" => some (.range '0' '9')
  | "graph" => some (.range '!' '~')
  | "lower" => some (.range 'a' 'z')
  | "print" => some (.range ' ' '~')
  | "punct" => some (.ofRanges [('!', '/'), (':', '@'), ('[', '\x60'), ('\x7b', '~')])
  | "space" => some (.ofRanges [('\t', '\r'), (' ', ' ')])
  | "upper" => some (.range 'A' 'Z')
  | "word" => some (.ofRanges [('0', '9'), ('A', 'Z'), ('_', '_'), ('a', 'z')])
  | "xdigit" => some (.ofRanges [('0', '9'), ('A', 'F'), ('a', 'f')])
  | _ => none

/-- A set by its name between `[:` and `:]`, if one starts here after its bracket. -/
def scanNamedSet : Scan (Option CharSet)
  | ':' :: inside =>
    match _h : inside.dropWhile (· != ':') with
    | ':' :: ']' :: rest =>
      let negated := inside.head? == some '^'
      let name := (inside.takeWhile (· != ':')).drop (if negated then 1 else 0)
      match namedSet? name with
      | some set =>
        .ok (some (if negated then .compl set else set), ⟨rest, by
          have := (List.dropWhile_suffix (· != ':') (l := inside)).length_le
          rw [_h] at this
          simp at this ⊢
          omega⟩)
      | none => .ok (none, ⟨':' :: inside, Nat.le_refl _⟩)
    | _ => .ok (none, ⟨':' :: inside, Nat.le_refl _⟩)
  | cs => .ok (none, ⟨cs, Nat.le_refl _⟩)

/-- The character or set of a class that starts with `c`. -/
def scanClassAtom (c : Char) : Scan Escape := do
  if c = '\\' then
    match ← Escape.scan with
    | .anchor _ => Scan.fail .badEscape
    | found => pure found
  else pure (.char c)

/-- The item of a class that starts with `c`: a character, a set, or a range of characters. -/
def scanClassItem (c : Char) : Scan CharSet := do
  let first ← scanClassAtom c
  let next ← Scan.peek
  let second ← Scan.peekSecond
  if next == some '-' && second != some ']' && second != some '-' then
    let _ ← Scan.take .unclosedClass
    let d ← Scan.take .unclosedClass
    match first, ← scanClassAtom d with
    | .char a, .char b => if a ≤ b then pure (.range a b) else Scan.fail .badRange
    | _, _ => Scan.fail .badRange
  else
    match first with
    | .char c => pure (.single c)
    | .set found => pure found
    | .anchor _ => Scan.fail .badEscape

inductive ClassOperator
  | inter
  | diff
  | symmDiff

def ClassOperator.apply : ClassOperator → CharSet → CharSet → CharSet
  | inter, a, b => .inter a b
  | diff, a, b => .diff a b
  | symmDiff, a, b => .symmDiff a b

/-- A class that is being read: whether it is negated, what stands before its last operator, and the
items after that. -/
structure OpenClass where
  negated : Bool
  before? : Option (CharSet × ClassOperator)
  items : CharSet

namespace OpenClass

def add (k : OpenClass) (set : CharSet) : OpenClass := { k with items := .union k.items set }

def joined (k : OpenClass) : CharSet :=
  match k.before? with
  | none => k.items
  | some (left, operator) => operator.apply left k.items

def operate (k : OpenClass) (operator : ClassOperator) : OpenClass :=
  { k with before? := some (k.joined, operator), items := .none }

def close (k : OpenClass) : CharSet := if k.negated then .compl k.joined else k.joined

end OpenClass

/-- The front of a class after its bracket: the sign of negation, dashes, and a closing bracket that
stands for itself. -/
def scanClassFront : Scan OpenClass := do
  let negated ← Scan.skip? '^'
  let dashes ← Scan.takeWhile (· == '-')
  let items := if dashes.isEmpty then CharSet.none else .union .none (.single '-')
  if dashes.isEmpty then
    if ← Scan.skip? ']' then return ⟨negated, none, .union items (.single ']')⟩
  return ⟨negated, none, items⟩

def classOperator? (c : Char) : Option ClassOperator :=
  if c = '&' then some .inter else if c = '-' then some .diff else if c = '~' then some .symmDiff else none

inductive ClassStep
  | enter (nested : OpenClass)
  | leave
  | add (set : CharSet)
  | operate (operator : ClassOperator)

def scanClassStep (c : Char) : Scan ClassStep := do
  if c = '[' then
    match ← scanNamedSet with
    | some set => pure (.add set)
    | none => return .enter (← scanClassFront)
  else if c = ']' then pure .leave
  else
    match classOperator? c, (← Scan.peek) == some c with
    | some operator, true => do
      let _ ← Scan.skip? c
      pure (.operate operator)
    | _, _ => return .add (← scanClassItem c)

/-- The rest of a class that is nested in the classes `outer`, innermost first. -/
def scanClass (current : OpenClass) (outer : List OpenClass) (cs : List Char) :
    Except PatternError (CharSet × { rest : List Char // rest.length ≤ cs.length }) :=
  match cs with
  | [] => .error .unclosedClass
  | c :: cs =>
    match scanClassStep c cs with
    | .error e => .error e
    | .ok (step, ⟨rest, le⟩) =>
      let next : Except CharSet (OpenClass × List OpenClass) :=
        match step, outer with
        | .enter nested, _ => .ok (nested, current :: outer)
        | .add set, _ => .ok (current.add set, outer)
        | .operate operator, _ => .ok (current.operate operator, outer)
        | .leave, parent :: outer => .ok (parent.add current.close, outer)
        | .leave, [] => .error current.close
      match next with
      | .error found => .ok (found, ⟨rest, Nat.le_succ_of_le le⟩)
      | .ok (current, outer) =>
        match scanClass current outer rest with
        | .error e => .error e
        | .ok (found, ⟨last, le'⟩) => .ok (found, ⟨last, by simp; omega⟩)
termination_by cs.length
decreasing_by
  simp
  omega

/-- The switches of a pattern: whether case counts, whether a line feed ends a line, and whether the
dot takes a line feed. -/
structure Flags where
  ignoreCase : Bool
  multiLine : Bool
  dotAll : Bool

abbrev FlagChange := List (Char × Bool)

def Flags.change (flags : Flags) (changes : FlagChange) : Flags :=
  changes.foldl (fun flags (name, value) =>
    match name with
    | 'i' => { flags with ignoreCase := value }
    | 'm' => { flags with multiLine := value }
    | 's' => { flags with dotAll := value }
    | _ => flags) flags

inductive Token
  | set (set : CharSet)
  | dot
  | lineStart
  | lineEnd
  | anchor (a : Anchor)
  | repeated (least : Nat) (most : Option Nat)
  | alternative
  | openGroup (changes : FlagChange) (name : Option (List Char))
  | closeGroup
  | setFlags (changes : FlagChange)

/-- A decimal number between blanks, below 2^32. -/
def scanCount : Scan Nat := do
  let _ ← Scan.takeWhile isBlank
  let digits ← Scan.takeWhile Char.isDigit
  let _ ← Scan.takeWhile isBlank
  let value := digits.foldl (fun n c => 10 * n + (c.toNat - '0'.toNat)) 0
  if digits.isEmpty || UInt32.size ≤ value then Scan.fail .badCount else pure value

/-- A repetition may be followed by a question mark that does not change what is found. -/
def scanRepeated (least : Nat) (most : Option Nat) : Scan Token := do
  let _ ← Scan.skip? '?'
  pure (.repeated least most)

/-- The counts of a repetition after its opening brace. -/
def scanCounts : Scan Token := do
  let least ← scanCount
  if ← Scan.skip? ',' then
    if ← Scan.skip? '}' then scanRepeated least none
    else
      let most ← scanCount
      let closed ← Scan.skip? '}'
      if closed && least ≤ most then scanRepeated least (some most) else Scan.fail .badCount
  else if ← Scan.skip? '}' then scanRepeated least (some least)
  else Scan.fail .badCount

def isNameStart (c : Char) : Bool := c == '_' || isLetter c

def isNameRest (c : Char) : Bool :=
  isNameStart c || isDecimal c || c == '.' || c == '[' || c == ']'

def scanNamedGroup : Scan Token := do
  let name ← Scan.takeWhile (· != '>')
  let closed ← Scan.skip? '>'
  match name with
  | c :: rest =>
    if closed && isNameStart c && rest.all isNameRest then pure (.openGroup [] (some name))
    else Scan.fail .badName
  | [] => Scan.fail .badName

/-- The changes that a text of switches asks for: those after a dash are turned off. -/
def flagChanges? (text : List Char) : Option FlagChange :=
  let on := text.takeWhile (· != '-')
  let off := text.dropWhile (· != '-')
  let names := on ++ off.drop 1
  let known := names.all fun c => "imsUuR".toList.contains c
  if known && names.eraseDups.length == names.length && off.length != 1 then
    some (on.map (·, true) ++ (off.drop 1).map (·, false))
  else none

/-- A group with switches, or switches alone, after the question mark. -/
def scanFlags : Scan Token := do
  let names ← Scan.takeWhile fun c => c != ':' && c != ')'
  let last ← Scan.take .unclosedGroup
  match flagChanges? names with
  | none => Scan.fail .badFlags
  | some changes =>
    if last = ':' then pure (.openGroup changes none)
    else if changes.isEmpty then Scan.fail .nothingToRepeat
    else pure (.setFlags changes)

def scanGroup : Scan Token := do
  if ← Scan.skip? '?' then
    let next ← Scan.peek
    let second ← Scan.peekSecond
    if next == some 'P' && second == some '<' then
      let _ ← Scan.skip? 'P'
      let _ ← Scan.skip? '<'
      scanNamedGroup
    else if next == some '<' && second != some '=' && second != some '!' then
      let _ ← Scan.skip? '<'
      scanNamedGroup
    else scanFlags
  else pure (.openGroup [] none)

def scanToken (c : Char) : Scan Token := do
  match c with
  | '.' => pure .dot
  | '^' => pure .lineStart
  | '$' => pure .lineEnd
  | '|' => pure .alternative
  | '(' => scanGroup
  | ')' => pure .closeGroup
  | '?' => scanRepeated 0 (some 1)
  | '*' => scanRepeated 0 none
  | '+' => scanRepeated 1 none
  | '{' => scanCounts
  | '[' =>
    let front ← scanClassFront
    let found ← scanClass front []
    pure (.set found)
  | '\\' =>
    match ← Escape.scan with
    | .char c => pure (.set (.single c))
    | .set found => pure (.set found)
    | .anchor a => pure (.anchor a)
  | c => pure (.set (.single c))

def Token.ofText (cs : List Char) : Except PatternError (List Token) :=
  match cs with
  | [] => .ok []
  | c :: cs =>
    match scanToken c cs with
    | .error e => .error e
    | .ok (token, ⟨rest, _le⟩) => (ofText rest).map (token :: ·)
termination_by cs.length
decreasing_by
  simp
  omega

end ShaderText
