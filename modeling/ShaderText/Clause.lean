import ShaderText.Statement
import ShaderText.Fault
import ShaderText.Program

/-! A clause is what a statement of a block says: a program, tags, stencil fields, a render state, or
nothing that is kept. Reading a clause also tells where the next statement starts, which need not be
right after the value. A fault that ends the reading is part of the clause, together with what was
read before it. Main statement: reading goes on at a tail of what the statement leaves.
-/
namespace ShaderText

structure StencilEntry where
  statement : Statement
  /-- The field and its value, unless the entry is dropped. -/
  field? : Option (StencilField × String)
deriving Repr, DecidableEq

inductive Clause
  /-- A comment. -/
  | remark
  | program (sentinel : Sentinel) (lines : List String)
  /-- A program that has no closing line. -/
  | endlessProgram (fault : Fault)
  /-- The tags that were read, and the fault that ended them early. -/
  | tags (pairs : List (String × String)) (fault? : Option Fault)
  | stencil (entries : List StencilEntry)
  /-- A stencil without a closed block. -/
  | droppedStencil (fault : Fault)
  | state (state : RenderState) (value : String)
  /-- A statement without a meaning, and the arguments dropped with it. -/
  | unknown (arguments : List String)
deriving Repr, DecidableEq

def Clause.fault? : Clause → Option Fault
  | .endlessProgram fault => some fault
  | .tags _ fault? => fault?
  | _ => none

def Region.skipTrivia (r : Region) : Region := r.onward (afterTrivia r.chars)

/-- The text between the braces of a block value. -/
def Statement.interior (s : Statement) (word : String) : Except Fault Region :=
  if s.kind = .block then
    let inside := s.value.chars.tail
    if inside.getLast? = some '}' then .ok ⟨s.value.start + 1, inside.dropLast⟩
    else .error ⟨s.value.start, .unterminatedBlock word⟩
  else .error ⟨s.name.start, .missingBlock word⟩

/-- A bare key or value of a tag goes on up to a space or an equals sign. -/
def isTagChar (c : Char) : Bool := !(isSpace c || c == '=')

/-- The key or value that starts here, without its quotes, and the text after it. -/
def tagToken? (cs : List Char) : Option (List Char × List Char) :=
  match cs with
  | '"' :: inside =>
    match afterQuote? inside with
    | none => none
    | some rest => some (inside.take (inside.length - rest.length - 1), rest)
  | _ =>
    let rest := cs.dropWhile isTagChar
    if rest.length < cs.length then some (cs.takeWhile isTagChar, rest) else none

/-- The key, the equals sign and the value that start here, and the region after them. -/
def Region.tag (r : Region) : Except Fault ((String × String) × Region) :=
  match tagToken? r.chars with
  | none => .error ⟨r.start, .malformedTags⟩
  | some (key, rest) =>
    let sign := (r.onward rest).skipTrivia
    match sign.chars with
    | '=' :: rest =>
      let place := (sign.onward rest).skipTrivia
      match tagToken? place.chars with
      | none => .error ⟨place.start, .malformedTags⟩
      | some (value, rest) => .ok ((String.ofList key, String.ofList value), place.onward rest)
    | _ => .error ⟨sign.start, .malformedTags⟩

theorem tagToken?_suffix {cs token rest : List Char} (h : tagToken? cs = some (token, rest)) :
    rest <:+ cs ∧ rest.length < cs.length := by
  unfold tagToken? at h
  split at h
  · rename_i inside
    split at h
    · simp at h
    · rename_i rest' closed
      obtain ⟨_, rfl⟩ := Prod.mk.inj (Option.some.inj h)
      obtain ⟨suffix, shorter⟩ := afterQuote?_suffix closed
      refine ⟨suffix.trans (List.suffix_cons _ _), ?_⟩
      simp
      omega
  · dsimp only at h
    split at h
    · rename_i shorter
      obtain ⟨_, rfl⟩ := Prod.mk.inj (Option.some.inj h)
      exact ⟨List.dropWhile_suffix _, shorter⟩
    · simp at h

theorem Region.tag_suffix {r rest : Region} {pair : String × String} (h : r.tag = .ok (pair, rest)) :
    rest.chars <:+ r.chars ∧ rest.chars.length < r.chars.length := by
  unfold tag at h
  split at h
  · simp at h
  · rename_i key afterKey readKey
    dsimp only at h
    split at h
    · rename_i afterSign sign
      split at h
      · simp at h
      · rename_i value afterValue readValue
        obtain ⟨_, rfl⟩ := Prod.mk.inj (Except.ok.inj h)
        have first := tagToken?_suffix readKey
        have last := tagToken?_suffix readValue
        have middle : '=' :: afterSign <:+ afterKey := by
          have := afterTrivia_suffix afterKey
          rw [← sign]
          exact this
        have value : afterValue <:+ afterSign := last.1.trans (afterTrivia_suffix afterSign)
        have inside := ((value.trans (List.suffix_cons _ _)).trans middle).trans first.1
        refine ⟨inside, ?_⟩
        have := ((value.trans (List.suffix_cons _ _)).trans middle).length_le
        have := first.2
        show afterValue.length < r.chars.length
        omega
    · simp at h

def Region.tags (r : Region) : List (String × String) × Option Fault :=
  let place := r.skipTrivia
  if place.chars.isEmpty then ([], none)
  else
    match _h : place.tag with
    | .error fault => ([], some fault)
    | .ok (pair, rest) =>
      let (pairs, fault?) := rest.tags
      (pair :: pairs, fault?)
termination_by r.chars.length
decreasing_by
  have := (Region.tag_suffix _h).2
  have := (afterTrivia_suffix r.chars).length_le
  simp only [place, skipTrivia, onward_chars] at *
  omega

/-- The tags of a statement whose name says that it holds tags. -/
def Statement.tags (s : Statement) : List (String × String) × Option Fault :=
  if s.kind = .block then
    let inside := s.value.chars.tail
    Region.tags ⟨s.value.start + 1, if inside.getLast? = some '}' then inside.dropLast else inside⟩
  else ([], some ⟨s.name.start, .malformedTags⟩)

def Statement.stencilField? (s : Statement) : Option (StencilField × String) :=
  match ShaderText.stencilField? s.name.chars with
  | some field => if s.kind = .empty then none else some (field, s.value.text)
  | none => none

def Region.stencilEntries (r : Region) : List StencilEntry :=
  (r.statements.filter (·.kind ≠ .comment)).map fun s => ⟨s, s.stencilField?⟩

/-- A bare argument goes on up to a space, an opening brace or a quote. -/
def isArgumentChar (c : Char) : Bool := !(isSpace c || c == '{' || c == '"')

/-- The argument that follows on the same line, and the text after it. A comment, a keyword and a
render state are no arguments. -/
def argument? (cs : List Char) : Option (List Char × List Char) :=
  let here := cs.dropWhile isMargin
  let word := here.takeWhile isArgumentChar
  if word.isEmpty || (afterComment? here).isSome || (keyword? word).isSome || (renderState? word).isSome
  then none
  else some (word, here.dropWhile isArgumentChar)

theorem argument?_suffix {cs word rest : List Char} (h : argument? cs = some (word, rest)) :
    rest <:+ cs ∧ rest.length < cs.length := by
  unfold argument? at h
  dsimp only at h
  split at h
  · simp at h
  · rename_i ok
    obtain ⟨rfl, rfl⟩ := Prod.mk.inj (Option.some.inj h)
    have margin : cs.dropWhile isMargin <:+ cs := List.dropWhile_suffix _
    have inside : (cs.dropWhile isMargin).dropWhile isArgumentChar <:+ cs.dropWhile isMargin :=
      List.dropWhile_suffix _
    refine ⟨inside.trans margin, ?_⟩
    have nonempty : (cs.dropWhile isMargin).takeWhile isArgumentChar ≠ [] := by
      intro empty
      simp [empty] at ok
    have := List.length_pos_iff.mpr nonempty
    have := congrArg List.length
      (List.takeWhile_append_dropWhile (p := isArgumentChar) (l := cs.dropWhile isMargin))
    have := margin.length_le
    simp only [List.length_append] at *
    omega

/-- All arguments that follow on the same line, and the text after the last. -/
def arguments (cs : List Char) : List (List Char) × List Char :=
  match _h : argument? cs with
  | none => ([], cs)
  | some (word, rest) =>
    let (words, rest) := arguments rest
    (word :: words, rest)
termination_by cs.length
decreasing_by exact (argument?_suffix _h).2

theorem arguments_suffix (cs : List Char) : (arguments cs).2 <:+ cs := by
  fun_induction arguments cs with
  | case1 => exact List.suffix_refl _
  | case2 cs word rest h words rest' read ih =>
    rw [read] at ih
    exact ih.trans (argument?_suffix h).1

/-- A statement that is dropped. After a bare value its arguments go with it. -/
def Clause.readUnknown (s : Statement) : Clause × Region :=
  if s.kind = .bare then
    let (words, rest) := arguments s.rest.chars
    (.unknown (words.map String.ofList), s.rest.onward rest)
  else (.unknown [], s.rest)

/-- What a statement says, and the region where the next one is looked for. -/
def Clause.read (s : Statement) : Clause × Region :=
  if s.kind = .comment then (.remark, s.rest)
  else
    match keyword? s.name.chars with
    | some (.program sentinel) =>
      match Program.first? sentinel s.rest with
      | none => (.endlessProgram ⟨s.name.start, .unterminatedProgram sentinel⟩, s.rest)
      | some found => (.program sentinel (programLines found.body.chars), found.rest)
    | some .tags =>
      let (pairs, fault?) := s.tags
      (.tags pairs fault?, s.rest)
    | some .stencil =>
      match s.interior Keyword.stencil.word with
      | .error fault => (.droppedStencil fault, s.rest)
      | .ok inside => (.stencil inside.stencilEntries, s.rest)
    | _ =>
      match renderState? s.name.chars with
      | some known => if s.kind = .empty then readUnknown s else (.state known s.value.text, s.rest)
      | none => readUnknown s

theorem Clause.readUnknown_suffix (s : Statement) : (readUnknown s).2.chars <:+ s.rest.chars := by
  unfold readUnknown
  split
  · exact arguments_suffix _
  · exact List.suffix_refl _

theorem Clause.read_suffix (s : Statement) : (read s).2.chars <:+ s.rest.chars := by
  unfold read
  split
  · exact List.suffix_refl _
  · split
    · split
      · exact List.suffix_refl _
      · rename_i found
        exact Program.rest_suffix found
    · exact List.suffix_refl _
    · split <;> exact List.suffix_refl _
    · split
      · split
        · exact readUnknown_suffix s
        · exact List.suffix_refl _
      · exact readUnknown_suffix s

end ShaderText
