/-! References. A value in brackets, as in `[Name]`, stands for the value that a user interface binds
to the name. A substitution gives some names a text; a text it puts in is not looked up again.
-/
namespace ShaderText

/-- The name that a value refers to, if it is one name in brackets. -/
def reference? (value : String) : Option String :=
  match value.toList with
  | '[' :: rest =>
    if rest.getLast? = some ']' && rest.length > 1 then some (String.ofList rest.dropLast) else none
  | _ => none

/-- A text for some of the names. -/
abbrev Substitution := String → Option String

namespace Substitution

/-- The substitution that a list of pairs gives. Of two pairs for one name the later one counts. -/
def ofPairs (pairs : List (String × String)) : Substitution := fun name => pairs.reverse.lookup name

def replacement? (σ : Substitution) (value : String) : Option String := (reference? value).bind σ

def apply (σ : Substitution) (value : String) : String := (σ.replacement? value).getD value

def count (σ : Substitution) (values : List String) : Nat :=
  values.countP fun value => (σ.replacement? value).isSome

end Substitution
end ShaderText
