import ShaderText.Shader.Parse
import ShaderText.Proofs.Bytewise.Body
import ShaderText.Proofs.Bytewise.Program

/-! Clauses by bytes: the arguments of a statement without a meaning, the fields of a stencil, and what
one statement changes in a block. Main statement: by bytes a statement changes a block as its clause
does, and the reading goes on where the clause says.
-/
namespace ShaderText.Bytewise

def isArgumentByte (b : UInt8) : Bool := !(isSpaceByte b || b == code '{' || b == code '"')

theorem agrees_isArgumentChar : Agrees isArgumentByte isArgumentChar :=
  ((agrees_isSpace.or (agrees_code (by decide))).or (agrees_code (by decide))).not

variable (document : String)

/-- Past the arguments on the same line. -/
def skipArguments? (pos stop : Nat) : Option Nat := do
  let start ← skipWhile? document isMarginByte pos stop
  if start < stop then
    let b ← byte? document start
    if b = code '\n' ∨ b = code '{' ∨ b = code '"' then return pos
    else
      let rest ← slice? document.toList start stop
      if ['/', '/'] <+: rest ∨ ['/', '*'] <+: rest then return pos
      else
        let next ← skipWhile? document isArgumentByte start stop
        let word ← slice? document.toList start next
        if (keyword? word).isSome ∨ (renderState? word).isSome then return pos
        else if pos < next ∧ next ≤ stop then skipArguments? next stop else none
  else return pos
termination_by stop - pos

/-- A statement that is dropped, with its arguments. -/
def drop? (stop : Nat) : Step Block := fun b e _ => do
  if e.kind = .bare then return .ok (b, ← skipArguments? document e.stop stop) else return .ok (b, e.stop)

variable {document}

theorem isSome_afterComment?_iff {cs : List Char} :
    (afterComment? cs).isSome = true ↔ ['/', '/'] <+: cs ∨ ['/', '*'] <+: cs := by
  constructor
  · intro comment
    unfold afterComment? at comment
    split at comment
    · exact .inl (by simp)
    · exact .inr (by simp)
    · simp at comment
  · rintro (⟨rest, rfl⟩ | ⟨rest, rfl⟩) <;> rfl

theorem skipArguments?_step {cs : List Char} {pos stop : Nat} (h : Spans document.toList pos cs stop) :
    skipArguments? document pos stop =
      match argument? cs with
      | none => some pos
      | some (_, rest) => skipArguments? document (stop - byteSize rest) stop := by
  have begun := h.onward (List.dropWhile_suffix isMargin)
  rw [skipArguments?, skipWhile?_eq agrees_isMargin h]
  simp only [Option.bind_eq_bind, Option.bind_some]
  cases here : cs.dropWhile isMargin with
  | nil =>
    have none : argument? cs = none := by simp [argument?, here]
    rw [if_neg (by simp), none]
    rfl
  | cons c rest =>
    rw [here] at begun
    have bound := begun.lt_onward List.nil_suffix (by simp)
    obtain ⟨b, member, read⟩ := begun.byte?_eq c.utf8Size_pos
    have sign (s : Char) (ascii : s.toNat ≤ 127) : b = code s ↔ c = s := eq_code_iff member ascii
    have word := (begun.takeWhile isArgumentChar).slice?_eq
    rw [Nat.add_zero] at read
    rw [byteSize_nil, Nat.sub_zero] at bound
    rw [if_pos bound]
    simp only [read, Option.bind_some, begun.slice?_eq, skipWhile?_eq agrees_isArgumentChar begun, word,
      sign '\n' (by decide), sign '{' (by decide), sign '"' (by decide), ← isSome_afterComment?_iff]
    have notMargin : isMargin c = false := by
      have head := List.head_dropWhile_not (p := isMargin) (l := cs) (by rw [here]; simp)
      simpa [here] using head
    -- a space that does not end the line was passed over, so only a line feed can be left of the spaces
    have stops : isArgumentChar c = false ↔ c = '\n' ∨ c = '{' ∨ c = '"' := by
      have space : isSpace c = true ↔ c = '\n' := by
        constructor
        · intro isSpace
          simpa [isMargin, isSpace, isInLine] using notMargin
        · rintro rfl
          decide
      rw [isArgumentChar, Bool.not_eq_eq_eq_not, Bool.not_false, Bool.or_eq_true, Bool.or_eq_true, space, beq_iff_eq,
        beq_iff_eq, or_assoc]
    rw [argument?]
    simp only [here, ← stops]
    by_cases argument : isArgumentChar c = true
    · have filled : ((c :: rest).takeWhile isArgumentChar).isEmpty = false := by
        rw [List.takeWhile_cons_of_pos argument]
        rfl
      have goesOn : pos < stop - byteSize ((c :: rest).dropWhile isArgumentChar) ∧
          stop - byteSize ((c :: rest).dropWhile isArgumentChar) ≤ stop := by
        have inside : (c :: rest).dropWhile isArgumentChar <:+ rest := by
          rw [List.dropWhile_cons_of_pos argument]
          exact List.dropWhile_suffix _
        have within : c :: rest <:+ cs := here ▸ List.dropWhile_suffix _
        have size := inside.length_le
        have size' := within.length_le
        rw [List.length_cons] at size'
        exact ⟨h.lt_onward ((inside.trans (List.suffix_cons c rest)).trans within) (by omega), Nat.sub_le _ _⟩
      rw [if_neg (by simp [argument]), filled, Bool.false_or]
      generalize (c :: rest).takeWhile isArgumentChar = word
      generalize (c :: rest).dropWhile isArgumentChar = next at goesOn
      cases (afterComment? (c :: rest)).isSome <;> cases (keyword? word).isSome <;>
        cases (renderState? word).isSome <;> simp [goesOn]
    · have empty : ((c :: rest).takeWhile isArgumentChar).isEmpty = true := by
        rw [List.takeWhile_cons_of_neg argument]
        rfl
      rw [if_pos (by simpa using argument)]
      simp [empty]

theorem skipArguments?_eq {cs : List Char} {pos stop : Nat} (h : Spans document.toList pos cs stop) :
    skipArguments? document pos stop = some (stop - byteSize (arguments cs).2) := by
  fun_induction arguments cs generalizing pos with
  | case1 cs none => rw [skipArguments?_step h, none, h.stop_eq, Nat.add_sub_cancel]
  | case2 cs word rest found words rest' read ih =>
    rw [read] at ih
    rw [skipArguments?_step h, found]
    exact ih (h.onward (argument?_suffix found).1)

theorem drop?_eq {s : Statement} {r : Region} (found : Statement.first? r = some s)
    (h : r.LiesIn document.toList) (b : Block) (name : List Char) :
    drop? document r.stop b (.ofStatement s) name = some (.ok (b, (Clause.readUnknown s).2.start)) := by
  have lies := liesIn_first? h found
  have skips := skipArguments?_eq lies.rest
  rw [lies.stop_eq] at skips
  have kind : (Extent.ofStatement s).kind = s.kind := rfl
  rw [drop?, Clause.readUnknown, lies.next, skips, kind]
  split
  · show some (Except.ok (b, r.stop - _)) = some (.ok (b, s.rest.stop - _))
    rw [lies.stop_eq]
  · rfl

variable (document)

def takeField? : Step (Settings StencilField) := fun held e name =>
  match stencilField? name with
  | some field =>
    if e.kind = .empty then some (.ok (held, e.stop))
    else do return .ok (held.insert field (.ofList (← slice? document.toList e.value.start e.value.stop)), e.stop)
  | none => some (.ok (held, e.stop))

variable {document}

/-- The fields of a stencil as a body, whose items are those fields that are kept. -/
def fieldBody : Body (Option (StencilField × String)) where
  read s := (if s.kind = .comment then none else s.stencilField?, s.rest)
  read_suffix _ := List.suffix_refl _
  fault? _ := none

def addField (held : Settings StencilField) (field? : Option (StencilField × String)) : Settings StencilField :=
  held.insertAll field?.toList

theorem foldl_fieldBody (r : Region) (held : Settings StencilField) :
    (fieldBody.entries r).foldl (fun held entry => addField held entry.item) held =
      held.insertAll (r.stencilEntries.filterMap (·.field?)) := by
  unfold Region.stencilEntries
  fun_induction Region.statements r generalizing held with
  | case1 r =>
    rename_i ends
    rw [Body.entries]
    split
    · rfl
    · simp_all
  | case2 r s =>
    rename_i starts ih
    rw [filterMap_field?_cons, Settings.insertAll_append, ← ih, Body.entries]
    split
    · simp_all
    · rename_i s' starts'
      rw [starts] at starts'
      obtain rfl := Option.some.inj starts'
      rfl

theorem serves_takeField? (stop : Nat) : Serves document stop (takeField? document) fieldBody addField where
  takes {r s} held found h ends known := by
    have lies := liesIn_first? h found
    have value : slice? document.toList s.value.span.start s.value.span.stop = some s.value.chars :=
      slice?_of_liesIn lies.value
    simp only [takeField?, fieldBody, if_neg known, Statement.stencilField?, lies.next]
    cases stencilField? s.name.chars with
    | none => rfl
    | some field =>
      by_cases empty : s.kind = .empty
      · simp only [Extent.ofStatement, empty, if_true]
        rfl
      · simp only [Extent.ofStatement, empty, if_false, value]
        rfl
  comment held isComment := ⟨rfl, by simp [fieldBody, isComment, addField, Settings.insertAll], rfl⟩
  onward s := (onward_chars s.rest).symm

variable (document)

def takeState? (stop : Nat) : Step Block := fun b e name => do
  match renderState? name with
  | some state =>
    if e.kind = .empty then drop? document stop b e name
    else
      let value ← slice? document.toList e.value.start e.value.stop
      return .ok ({ b with states := b.states.insert state (.ofList value) }, e.stop)
  | none => drop? document stop b e name

def takeClause? (stop : Nat) : Step Block := fun b e name => do
  match keyword? name with
  | some (.program sentinel) =>
    match ← scanProgram? document sentinel e.value.start stop with
    | none => fail? document e.name.start (.unterminatedProgram sentinel)
    | some (body, next) => return .ok ({ b with program := some (← programLines? body) }, next)
  | some .tags =>
    match ← takeTags? document b.tags e with
    | .error error => return .error error
    | .ok tags => return .ok ({ b with tags }, e.stop)
  | some .stencil =>
    match ← interior? document Keyword.stencil.word e with
    | .error _ => return .ok (b, e.stop)
    | .ok (start, stop) =>
      match ← readBody? document (takeField? document) b.stencil start stop with
      | .error error => return .error error
      | .ok stencil => return .ok ({ b with stencil }, e.stop)
  | _ => takeState? document stop b e name

variable {document}

theorem takeState?_eq {s : Statement} {r : Region} (found : Statement.first? r = some s)
    (h : r.LiesIn document.toList) (b : Block) {said : Clause × Region}
    (reads : said = match renderState? s.name.chars with
      | some known => if s.kind = .empty then Clause.readUnknown s else (.state known s.value.text, s.rest)
      | none => Clause.readUnknown s) :
    takeState? document r.stop b (.ofStatement s) s.name.chars =
      some (settle document said.1.fault? (b.add said.1, said.2.start)) := by
  have lies := liesIn_first? h found
  have value : slice? document.toList (Extent.ofStatement s).value.start (Extent.ofStatement s).value.stop =
      some s.value.chars := slice?_of_liesIn lies.value
  have kind : (Extent.ofStatement s).kind = s.kind := rfl
  have unknown : (Clause.readUnknown s).1.fault? = none ∧ b.add (Clause.readUnknown s).1 = b := by
    unfold Clause.readUnknown
    split <;> exact ⟨rfl, rfl⟩
  have dropped : drop? document r.stop b (.ofStatement s) s.name.chars =
      some (settle document (Clause.readUnknown s).1.fault?
        (b.add (Clause.readUnknown s).1, (Clause.readUnknown s).2.start)) := by
    rw [drop?_eq found h, unknown.1, unknown.2]
    rfl
  rw [reads, takeState?]
  cases renderState? s.name.chars with
  | none => exact dropped
  | some state =>
    by_cases empty : s.kind = .empty
    · simp only [kind, empty, if_true]
      exact dropped
    · simp only [kind, empty, if_false, value, lies.next]
      rfl

theorem remainder_of_program {c : Char} {cs : List Char} {sentinel : Sentinel}
    (known : (Remainder.ofName (c :: cs) (cs.dropWhile isNameChar)).kind ≠ .comment)
    (word : keyword? ((c :: cs).take ((c :: cs).length - (cs.dropWhile isNameChar).length)) = some (.program sentinel)) :
    Remainder.ofName (c :: cs) (cs.dropWhile isNameChar) =
      ⟨.program sentinel, cs.dropWhile isNameChar, cs.dropWhile isNameChar⟩ := by
  have isSentinel : sentinel? ((c :: cs).take ((c :: cs).length - (cs.dropWhile isNameChar).length)) = some sentinel := by
    rw [sentinel?, word]
  unfold Remainder.ofName at known ⊢
  split
  · rename_i comment
    rw [comment] at known
    exact absurd rfl known
  · rw [isSentinel]

theorem start_of_program {s : Statement} {r : Region} (found : Statement.first? r = some s)
    (known : s.kind ≠ .comment) {sentinel : Sentinel} (word : keyword? s.name.chars = some (.program sentinel)) :
    s.value.start = s.rest.start ∧ s.rest.start = s.name.stop := by
  obtain ⟨c, cs, begins⟩ := Statement.exists_cons_of_first? found
  rw [Statement.first?_of_afterSpaces begins] at found
  obtain rfl := Option.some.inj found
  have name : cs.dropWhile isNameChar <:+ c :: cs := (List.dropWhile_suffix _).trans (List.suffix_cons c cs)
  simp only [remainder_of_program known word]
  exact ⟨rfl, (Region.stop_upTo name).symm⟩

theorem takeClause?_eq {s : Statement} {r : Region} (found : Statement.first? r = some s)
    (h : r.LiesIn document.toList) (known : s.kind ≠ .comment) (b : Block) :
    takeClause? document r.stop b (.ofStatement s) s.name.chars =
      some (settle document (Clause.read s).1.fault? (b.add (Clause.read s).1, (Clause.read s).2.start)) := by
  have lies := liesIn_first? h found
  rw [takeClause?, Clause.read, if_neg known]
  cases word : keyword? s.name.chars with
  | none => exact takeState?_eq found h b rfl
  | some keyword =>
    cases keyword with
    | program sentinel =>
      have scanned := scanProgram?_eq lies.rest sentinel
      rw [lies.stop_eq, ← (start_of_program found known word).1] at scanned
      change scanProgram? document sentinel (Extent.ofStatement s).value.start r.stop = _ at scanned
      simp only [scanned, Option.bind_eq_bind, Option.bind_some]
      cases Program.first? sentinel s.rest with
      | none => exact fail?_eq _ lies.name
      | some program =>
        simp only [Option.map_some, programLines?_eq, Option.bind_some]
        rfl
    | tags =>
      simp only [takeTags?_eq found h, Option.bind_eq_bind, Option.bind_some, lies.next]
      cases tags : s.tags.2 <;> rfl
    | stencil =>
      simp only [interior?_eq found h, Option.bind_eq_bind, Option.bind_some, lies.next]
      cases interior : s.interior Keyword.stencil.word with
      | error fault => rfl
      | ok inside =>
        have fields := readBody?_eq (serves_takeField? inside.stop) (liesIn_interior found h interior) rfl b.stencil
        have noFault : fieldBody.faultOf? (fieldBody.entries inside) = none :=
          List.findSome?_eq_none_iff.mpr fun _ _ => rfl
        rw [noFault, foldl_fieldBody] at fields
        simp only [mapError_ok, Except.map, fields, Option.bind_some]
        rfl
    | shader | subShader | pass | name | properties => exact takeState?_eq found h b rfl

end ShaderText.Bytewise
