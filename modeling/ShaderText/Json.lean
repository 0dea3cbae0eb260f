/-! JSON values and their two written forms: compact, with no space at all, and pretty, with two spaces
for each level. The members of an object keep their order. Both forms are made of the same tokens; the
pretty form only adds spaces and line feeds between them.
-/
namespace ShaderText

inductive Json
  | null
  | string (value : String)
  | array (items : List Json)
  | object (members : List (String × Json))

namespace Json

/-- The four lower-case hexadecimal digits of a control character. -/
def controlDigits (c : Char) : List Char :=
  ['0', '0', Nat.digitChar (c.toNat / 16), Nat.digitChar (c.toNat % 16)]

/-- One character of a string. Quotes, backslashes and controls are escaped. -/
def escape (c : Char) : List Char :=
  match c with
  | '"' => ['\\', '"']
  | '\\' => ['\\', '\\']
  | '\n' => ['\\', 'n']
  | '\r' => ['\\', 'r']
  | '\t' => ['\\', 't']
  | '\x08' => ['\\', 'b']
  | '\x0c' => ['\\', 'f']
  | c => if c.toNat < 0x20 then ['\\', 'u'] ++ controlDigits c else [c]

def writeString (s : String) : List Char := '"' :: s.toList.flatMap escape ++ ['"']

def separate (separator : List Char) : List (List Char) → List Char
  | [] => []
  | [item] => item
  | item :: rest => item ++ separator ++ separate separator rest

mutual

def compact : Json → List Char
  | .null => ['n', 'u', 'l', 'l']
  | .string s => writeString s
  | .array items => '[' :: separate [','] (compactItems items) ++ [']']
  | .object members => '{' :: separate [','] (compactMembers members) ++ ['}']

def compactItems : List Json → List (List Char)
  | [] => []
  | item :: rest => compact item :: compactItems rest

def compactMembers : List (String × Json) → List (List Char)
  | [] => []
  | (key, value) :: rest => (writeString key ++ ':' :: compact value) :: compactMembers rest

end

def lineBreak (depth : Nat) : List Char := '\n' :: List.replicate (2 * depth) ' '

def bracket (opening closing : Char) (depth : Nat) (items : List (List Char)) : List Char :=
  if items.isEmpty then [opening, closing]
  else
    opening :: lineBreak (depth + 1) ++ separate (',' :: lineBreak (depth + 1)) items ++
      lineBreak depth ++ [closing]

mutual

/-- The pretty form of a value that stands at a level. -/
def prettyAt (depth : Nat) : Json → List Char
  | .null => ['n', 'u', 'l', 'l']
  | .string s => writeString s
  | .array items => bracket '[' ']' depth (prettyItems (depth + 1) items)
  | .object members => bracket '{' '}' depth (prettyMembers (depth + 1) members)

def prettyItems (depth : Nat) : List Json → List (List Char)
  | [] => []
  | item :: rest => prettyAt depth item :: prettyItems depth rest

def prettyMembers (depth : Nat) : List (String × Json) → List (List Char)
  | [] => []
  | (key, value) :: rest =>
    (writeString key ++ ':' :: ' ' :: prettyAt depth value) :: prettyMembers depth rest

end

def pretty (j : Json) : List Char := prettyAt 0 j

end Json
end ShaderText
