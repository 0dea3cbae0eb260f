import ShaderText.Pattern.Token

/-! The pattern that a text writes. Tokens are put together from left to right over a stack of open
groups. Switches hold up to the end of the group they are set in, and a group cannot be closed before
it is opened.
-/
namespace ShaderText

namespace CharSet

/-- The set for a search that ignores case. The blanks, the digits and the characters of words already
hold all that differs from them in case. -/
def ignoringCase : CharSet → CharSet
  | none => none
  | range first last => anyCase (range first last)
  | letter => anyCase letter
  | union a b => union a.ignoringCase b.ignoringCase
  | inter a b => inter a.ignoringCase b.ignoringCase
  | compl a => compl a.ignoringCase
  | a => a

end CharSet

namespace Pattern

/-- A group that is still open: the switches in force in it, its complete alternatives, last one first,
the items of the alternative that is being read, last one first, and whether the last item can be
repeated. -/
structure OpenGroup where
  flags : Flags
  alternatives : List Pattern
  items : List Pattern
  isRepeatable : Bool

namespace OpenGroup

def start (flags : Flags) : OpenGroup := ⟨flags, [], [], false⟩

def push (g : OpenGroup) (p : Pattern) : OpenGroup := { g with items := p :: g.items, isRepeatable := true }

def sequence (g : OpenGroup) : Pattern := ofList g.items.reverse

def nextAlternative (g : OpenGroup) : OpenGroup :=
  { g with alternatives := g.sequence :: g.alternatives, items := [], isRepeatable := false }

def finish (g : OpenGroup) : Pattern := g.alternatives.foldl (fun last first => alt first last) g.sequence

end OpenGroup

/-- The open groups, innermost first, and the names that groups have. -/
structure Progress where
  current : OpenGroup
  outer : List OpenGroup
  names : List (List Char)

namespace Progress

def modify (f : OpenGroup → OpenGroup) (p : Progress) : Progress := { p with current := f p.current }

def pushSet (p : Progress) (set : CharSet) : Progress :=
  p.modify (·.push (.one (if p.current.flags.ignoreCase then set.ignoringCase else set)))

def read (p : Progress) : Token → Except PatternError Progress
  | .set found => .ok (p.pushSet found)
  | .dot =>
    .ok (p.modify (·.push (.one (if p.current.flags.dotAll then .any else .compl (.single '\n')))))
  | .lineStart => .ok (p.modify (·.push (.anchor (if p.current.flags.multiLine then .lineStart else .textStart))))
  | .lineEnd => .ok (p.modify (·.push (.anchor (if p.current.flags.multiLine then .lineEnd else .textEnd))))
  | .anchor a => .ok (p.modify (·.push (.anchor a)))
  | .alternative => .ok (p.modify (·.nextAlternative))
  | .repeated least most =>
    match p.current.isRepeatable, p.current.items with
    | true, last :: items =>
      .ok (p.modify fun g => { g with items := last.repeated least most :: items })
    | _, _ => .error .nothingToRepeat
  | .setFlags changes =>
    .ok (p.modify fun g => { g with flags := g.flags.change changes, isRepeatable := false })
  | .openGroup changes name? =>
    let opened : Progress :=
      { p with current := .start (p.current.flags.change changes), outer := p.current :: p.outer }
    match name? with
    | none => .ok opened
    | some name => if p.names.contains name then .error .badName else .ok { opened with names := name :: p.names }
  | .closeGroup =>
    match p.outer with
    | [] => .error .unopenedGroup
    | parent :: outer => .ok { p with current := parent.push p.current.finish, outer }

end Progress

def parse (text : String) : Except PatternError Pattern := do
  let tokens ← Token.ofText text.toList
  let plain : Flags := ⟨false, false, false⟩
  let last ← tokens.foldlM Progress.read ⟨.start plain, [], []⟩
  if last.outer.isEmpty then .ok last.current.finish else .error .unclosedGroup

end Pattern
end ShaderText
