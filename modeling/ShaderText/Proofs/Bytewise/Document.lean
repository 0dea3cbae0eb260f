import ShaderText.Proofs.Faults
import ShaderText.Proofs.Bytewise.Clause

/-! Documents by bytes. Passes, sub-shaders and the shader are read by the loop over statements, each
with a step of its own, and the document by its first statement. Main statement: for every document the
reader of bytes has an answer, so no index leaves the document, every slice is one of whole characters
and every loop moves on to its end; and the answer is the tree or the error of the document.
-/
namespace ShaderText.Bytewise

variable (document : String)

/-- The text that a value gives: without quotes around it. -/
def unquote? (v : Span) : Option String := do
  let value ← slice? document.toList v.start v.stop
  if 1 < byteSize value then
    let first ← byte? document v.start
    let last ← byte? document (v.stop - 1)
    if first = code '"' ∧ last = code '"' then
      return .ofList (← slice? document.toList (v.start + 1) (v.stop - 1))
    else return .ofList value
  else return .ofList value

/-- A step that changes the block of what is held. -/
def Step.inBlock {β : Type} (get : β → Block) (put : β → Block → β) (take : Step Block) : Step β :=
  fun held e name => do
    match ← take (get held) e name with
    | .error error => return .error error
    | .ok (block, next) => return .ok (put held block, next)

/-- Reads the block of a statement, starting with what is `empty`. -/
def readBlock? {β : Type} (word : String) (take : Nat → Step β) (empty : β) (e : Extent) :
    Option (Except ParseError β) := do
  match ← interior? document word e with
  | .error error => return .error error
  | .ok (start, stop) => readBody? document (take stop) empty start stop

/-- A step that keeps the block of a statement, or drops it when there is no closed block. -/
def takeChild? {β γ : Type} (word : String) (take : Nat → Step γ) (empty : γ) (keep : β → γ → β) : Step β :=
  fun held e _ => do
    match ← readBlock? document word take empty e with
    | .ok child => return .ok (keep held child, e.stop)
    | .error error => if error.cause.isRecoverable then return .ok (held, e.stop) else return .error error

def takePass? (stop : Nat) : Step Pass := fun p e name =>
  if keyword? name = some .name then do return .ok ({ p with name := some (← unquote? document e.value) }, e.stop)
  else (takeClause? document stop).inBlock Pass.toBlock (fun p b => { p with toBlock := b }) p e name

def takeSubShader? (stop : Nat) : Step SubShader := fun s e name =>
  if keyword? name = some .pass then
    takeChild? document Keyword.pass.word (takePass? document) (.named none)
      (fun s p => { s with passes := s.passes ++ [p] }) s e name
  else (takeClause? document stop).inBlock SubShader.toBlock (fun s b => { s with toBlock := b }) s e name

def takeShader? (stop : Nat) : Step Shader := fun s e name =>
  if keyword? name = some .properties then some (.ok (s, e.stop))
  else if keyword? name = some .subShader then
    takeChild? document Keyword.subShader.word (takeSubShader? document) .empty
      (fun s child => { s with subShaders := s.subShaders ++ [child] }) s e name
  else (takeClause? document stop).inBlock Shader.toBlock (fun s b => { s with toBlock := b }) s e name

variable {document}

theorem unquote?_eq {s : Statement} (h : s.value.LiesIn document.toList) :
    unquote? document s.value.span = some s.nameValue := by
  have value : slice? document.toList s.value.span.start s.value.span.stop = some s.value.chars :=
    slice?_of_liesIn h
  rw [unquote?, value, Option.bind_eq_bind, Option.bind_some]
  cases begins : s.value.chars with
  | nil => simp [Statement.nameValue, begins, Region.text]
  | cons c cs =>
    have here : Spans document.toList s.value.span.start (c :: cs) s.value.span.stop := begins ▸ h
    obtain ⟨first, member, readFirst⟩ := here.byte?_eq c.utf8Size_pos
    have isFirst : first = code '"' ↔ c = '"' := eq_code_iff member (by decide)
    rw [Nat.add_zero] at readFirst
    obtain ⟨last, readLast, -⟩ := Spans.exists_last (s := '"') (by decide) here (List.cons_ne_nil c cs)
    simp only [readFirst, readLast, Option.bind_eq_bind, Option.bind_some, isFirst]
    by_cases quoted : c = '"'
    · subst quoted
      obtain ⟨last', read, closes, inside, stop⟩ :=
        @exists_inside document '"' '"' ⟨by decide, by decide⟩ s.value h (by rw [begins]; rfl)
      obtain rfl : last' = last := Option.some.inj (read.symm.trans readLast)
      have name : s.nameValue = if cs.getLast? = some '"' then .ofList cs.dropLast else .ofList ('"' :: cs) := by
        rw [Statement.nameValue, begins, Region.text, begins]
        rfl
      rw [begins, List.tail_cons] at closes inside stop
      rw [name]
      by_cases closed : cs.getLast? = some '"'
      · obtain ⟨isLast, long⟩ := closes.mpr closed
        obtain ⟨front, end_⟩ := liesIn_dropLast (by decide) inside closed
        have slice := slice?_of_liesIn front
        rw [end_, stop] at slice
        change slice? document.toList (s.value.span.start + 1) (s.value.span.stop - 1) = some cs.dropLast at slice
        rw [if_pos long, if_pos ⟨rfl, isLast⟩, if_pos closed, slice]
        rfl
      · rw [if_neg closed]
        split
        · rename_i long
          rw [if_neg fun signs => closed (closes.mp ⟨signs.2, long⟩)]
          rfl
        · rfl
    · have name : s.nameValue = .ofList (c :: cs) := by
        unfold Statement.nameValue
        split
        · rename_i rest begins'
          rw [begins] at begins'
          exact absurd (List.cons.inj begins').1 quoted
        · rw [Region.text, begins]
      have unquoted : ¬(c = '"' ∧ last = code '"') := fun signs => quoted signs.1
      rw [name, if_neg unquoted, ite_self]
      rfl

theorem inBlock_eq {β : Type} {get : β → Block} {put : β → Block → β} {take : Step Block} {held : β} {e : Extent}
    {name : List Char} {fault? : Option Fault} {block : Block} {next : Nat}
    (takes : take (get held) e name = some (settle document fault? (block, next))) :
    take.inBlock get put held e name = some (settle document fault? (put held block, next)) := by
  rw [Step.inBlock, takes]
  cases fault? <;> rfl

theorem readBlock?_eq {α β : Type} {take : Nat → Step β} {body : Body α} {add : β → α → β}
    (serves : ∀ stop, Serves document stop (take stop) body add) {s : Statement} {r : Region}
    (found : Statement.first? r = some s) (h : r.LiesIn document.toList) (word : String) (empty : β) :
    readBlock? document word take empty (.ofStatement s) =
      some (match s.interior word with
        | .error fault => .error (fault.locate document.toList)
        | .ok inside => settle document (body.faultOf? (body.entries inside))
            ((body.entries inside).foldl (fun held entry => add held entry.item) empty)) := by
  rw [readBlock?, interior?_eq found h]
  cases interior : s.interior word with
  | error fault => rfl
  | ok inside => exact readBody?_eq (serves inside.stop) (liesIn_interior found h interior) rfl empty

theorem takeChild?_eq {α β γ : Type} {take : Nat → Step γ} {body : Body α} {add : γ → α → γ}
    (serves : ∀ stop, Serves document stop (take stop) body add) (inner : body.IsInner) {s : Statement} {r : Region}
    (found : Statement.first? r = some s) (h : r.LiesIn document.toList) (word : String) (empty : γ)
    (keep : β → γ → β) (held : β) (name : List Char) :
    takeChild? document word take empty keep held (.ofStatement s) name =
      some (match s.interior word with
        | .error _ => .ok (held, s.rest.start)
        | .ok inside => settle document (body.faultOf? (body.entries inside))
            (keep held ((body.entries inside).foldl (fun held entry => add held entry.item) empty), s.rest.start)) := by
  have lies := liesIn_first? h found
  rw [takeChild?, readBlock?_eq serves found h, lies.next]
  cases interior : s.interior word with
  | error fault =>
    have dropped := Statement.isRecoverable_of_interior interior
    simp only [Option.bind_eq_bind, Option.bind_some, Fault.locate, dropped, if_true]
    rfl
  | ok inside =>
    cases wrong : body.faultOf? (body.entries inside) with
    | none =>
      simp only [wrong]
      rfl
    | some fault =>
      have kept := (inner.faultOf? wrong).isRecoverable
      simp only [wrong, Option.bind_eq_bind, Option.bind_some, settle, Fault.locate, kept, Bool.false_eq_true, if_false]
      rfl

theorem next_of_clause (s : Statement) : (Clause.read s).2 = s.rest.onward (Clause.read s).2.chars := by
  have unknown : (Clause.readUnknown s).2 = s.rest.onward (Clause.readUnknown s).2.chars := by
    unfold Clause.readUnknown
    split
    · rfl
    · exact (onward_chars s.rest).symm
  unfold Clause.read
  split
  · exact (onward_chars s.rest).symm
  · split
    · rename_i sentinel _
      cases found : Program.first? sentinel s.rest with
      | none => exact (onward_chars s.rest).symm
      | some program =>
        unfold Program.first? at found
        split at found
        · simp at found
        · exact Option.some.inj found ▸ rfl
    · exact (onward_chars s.rest).symm
    · split <;> exact (onward_chars s.rest).symm
    · split
      · split
        · exact unknown
        · exact (onward_chars s.rest).symm
      · exact unknown

theorem clause_of_comment {s : Statement} (comment : s.kind = .comment) : Clause.read s = (.remark, s.rest) := by
  rw [Clause.read, if_pos comment]

theorem serves_takePass? (stop : Nat) : Serves document stop (takePass? document stop) passBody Pass.add where
  takes {r s} held found h ends known := by
    have lies := liesIn_first? h found
    show takePass? document stop held (.ofStatement s) s.name.chars =
      some (settle document (PassItem.read s).1.fault? (held.add (PassItem.read s).1, (PassItem.read s).2.start))
    rw [takePass?, PassItem.read]
    by_cases named : keyword? s.name.chars = some .name
    · rw [if_pos named, if_pos ⟨known, named⟩, lies.next]
      have value : unquote? document (Extent.ofStatement s).value = some s.nameValue := unquote?_eq lies.value
      rw [value]
      rfl
    · rw [if_neg named, if_neg fun both => named both.2]
      exact inBlock_eq (ends ▸ takeClause?_eq found h known held.toBlock)
  comment {s} held comment := by
    show (PassItem.read s).1.fault? = none ∧ held.add (PassItem.read s).1 = held ∧ (PassItem.read s).2 = s.rest
    rw [PassItem.read, if_neg fun both => both.1 comment, clause_of_comment comment]
    exact ⟨rfl, rfl, rfl⟩
  onward s := by
    show (PassItem.read s).2 = s.rest.onward (PassItem.read s).2.chars
    unfold PassItem.read
    split
    · exact (onward_chars s.rest).symm
    · exact next_of_clause s

theorem serves_takeSubShader? (stop : Nat) :
    Serves document stop (takeSubShader? document stop) subShaderBody SubShader.add where
  takes {r s} held found h ends known := by
    show takeSubShader? document stop held (.ofStatement s) s.name.chars =
      some (settle document (SubShaderItem.read s).1.fault?
        (held.add (SubShaderItem.read s).1, (SubShaderItem.read s).2.start))
    rw [takeSubShader?, SubShaderItem.read]
    by_cases isPass : keyword? s.name.chars = some .pass
    · rw [if_pos isPass, if_pos ⟨known, isPass⟩, takeChild?_eq serves_takePass? isInner_passBody found h]
      cases s.interior Keyword.pass.word <;> rfl
    · rw [if_neg isPass, if_neg fun both => isPass both.2]
      exact inBlock_eq (ends ▸ takeClause?_eq found h known held.toBlock)
  comment {s} held comment := by
    show (SubShaderItem.read s).1.fault? = none ∧ held.add (SubShaderItem.read s).1 = held ∧
      (SubShaderItem.read s).2 = s.rest
    rw [SubShaderItem.read, if_neg fun both => both.1 comment, clause_of_comment comment]
    exact ⟨rfl, rfl, rfl⟩
  onward s := by
    show (SubShaderItem.read s).2 = s.rest.onward (SubShaderItem.read s).2.chars
    unfold SubShaderItem.read
    split
    · split <;> exact (onward_chars s.rest).symm
    · exact next_of_clause s

theorem serves_takeShader? (stop : Nat) : Serves document stop (takeShader? document stop) shaderBody Shader.add where
  takes {r s} held found h ends known := by
    show takeShader? document stop held (.ofStatement s) s.name.chars =
      some (settle document (ShaderItem.read s).1.fault?
        (held.add (ShaderItem.read s).1, (ShaderItem.read s).2.start))
    have lies := liesIn_first? h found
    rw [takeShader?, ShaderItem.read]
    by_cases properties : keyword? s.name.chars = some .properties
    · rw [if_pos properties, if_pos ⟨known, properties⟩, lies.next]
      rfl
    · have other : ¬(s.kind ≠ .comment ∧ keyword? s.name.chars = some .properties) := fun both => properties both.2
      rw [if_neg properties, if_neg other]
      by_cases child : keyword? s.name.chars = some .subShader
      · rw [if_pos child, if_pos ⟨known, child⟩, takeChild?_eq serves_takeSubShader? isInner_subShaderBody found h]
        cases s.interior Keyword.subShader.word <;> rfl
      · rw [if_neg child, if_neg fun both => child both.2]
        exact inBlock_eq (ends ▸ takeClause?_eq found h known held.toBlock)
  comment {s} held comment := by
    show (ShaderItem.read s).1.fault? = none ∧ held.add (ShaderItem.read s).1 = held ∧ (ShaderItem.read s).2 = s.rest
    rw [ShaderItem.read, if_neg fun both => both.1 comment, if_neg fun both => both.1 comment,
      clause_of_comment comment]
    exact ⟨rfl, rfl, rfl⟩
  onward s := by
    show (ShaderItem.read s).2 = s.rest.onward (ShaderItem.read s).2.chars
    unfold ShaderItem.read
    split
    · exact (onward_chars s.rest).symm
    · split
      · split <;> exact (onward_chars s.rest).symm
      · exact next_of_clause s

variable (document)

/-- The first statement between two places that is no comment. -/
def header? (pos stop : Nat) : Option (Option Extent) := do
  match ← scanStatement? document pos stop with
  | none => return none
  | some e =>
    if e.kind = .comment then
      if pos < e.stop ∧ e.stop ≤ stop then header? e.stop stop else none
    else return some e
termination_by stop - pos

/-- The name of a shader, and where its block is looked for. -/
def scanHeader? (stop : Nat) (e : Extent) : Option (String × Nat) := do
  if e.kind = .block then return ("", e.value.start)
  else return (← unquote? document e.value, ← skipTrivia? document e.stop stop)

/-- The ends of the text between the braces of a block that starts at a place. -/
def shaderInterior? (place stop : Nat) : Option (Except ParseError (Nat × Nat)) := do
  if ← holdsSign? document '{' place stop then
    match ← scanBlock? document 0 place stop with
    | none => fail? document place (.unterminatedBlock Keyword.shader.word)
    | some next => return .ok (place + 1, next - 1)
  else fail? document place (.missingBlock Keyword.shader.word)

/-- Reads a document by its bytes. -/
def parse? : Option (Except ParseError Shader) := do
  let size := byteSize document.toList
  match ← header? document 0 size with
  | none => fail? document size .endOfText
  | some e =>
    let word ← slice? document.toList e.name.start e.name.stop
    if keyword? word = some .shader then
      let (name, place) ← scanHeader? document size e
      match ← shaderInterior? document place size with
      | .error error => return .error error
      | .ok (start, stop) => readBody? document (takeShader? document stop) (.named name) start stop
    else fail? document e.name.start (.missingShader (.ofList word))

variable {document}

theorem header?_eq {r : Region} (h : r.LiesIn document.toList) :
    header? document r.start r.stop = some (r.header?.map .ofStatement) := by
  fun_induction Region.header? r with
  | case1 r none =>
    rw [header?, scanStatement?_eq h, none]
    rfl
  | case2 r s found comment ih =>
    have lies := liesIn_first? h found
    have bounds : r.start < (Extent.ofStatement s).stop ∧ (Extent.ofStatement s).stop ≤ r.stop := by
      rw [lies.next, ← lies.stop_eq]
      exact ⟨lies.start_lt, Nat.le_add_right _ _⟩
    have kind : (Extent.ofStatement s).kind = .comment := comment
    have later := ih lies.rest
    rw [lies.stop_eq, ← lies.next] at later
    rw [header?, scanStatement?_eq h, found, Option.map_some, Option.bind_eq_bind, Option.bind_some]
    simp only [kind, if_true, if_pos bounds]
    exact later
  | case3 r s found other =>
    have kind : (Extent.ofStatement s).kind ≠ .comment := other
    rw [header?, scanStatement?_eq h, found, Option.map_some, Option.bind_eq_bind, Option.bind_some]
    simp only [kind, if_false]
    rfl

theorem exists_region_of_header? {r : Region} {s : Statement} (h : r.LiesIn document.toList)
    (found : r.header? = some s) :
    ∃ place, place.LiesIn document.toList ∧ place.stop = r.stop ∧ Statement.first? place = some s := by
  fun_induction Region.header? r with
  | case1 => simp at found
  | case2 r first starts comment ih =>
    have lies := liesIn_first? h starts
    obtain ⟨place, inside, stop, begins⟩ := ih lies.rest found
    exact ⟨place, inside, stop.trans lies.stop_eq, begins⟩
  | case3 r first starts other => exact ⟨r, h, rfl, Option.some.inj found ▸ starts⟩

theorem shaderInterior?_eq {header : Statement} {more : List Char} {stop : Nat}
    (h : (Outline.blockPlace header).LiesIn document.toList)
    (longer : Spans document.toList (Outline.blockPlace header).start ((Outline.blockPlace header).chars ++ more) stop)
    (whole : afterBlock? (Outline.blockPlace header).chars = none → more = []) :
    shaderInterior? document (Outline.blockPlace header).start stop =
        some (((Outline.shaderInterior header).mapError (·.locate document.toList)).map fun inside =>
          (inside.start, inside.stop)) ∧
      ∀ inside, Outline.shaderInterior header = .ok inside → inside.LiesIn document.toList := by
  have brace := holdsSign?_eq (s := '{') (by decide) longer
  have scanned : scanBlock? document 0 _ stop = _ := scanBlock?_eq longer
  rw [shaderInterior?, brace, scanned, fail?_eq _ h, fail?_eq _ h]
  cases place : Outline.blockPlace header with
  | mk start chars =>
    rw [place] at h longer whole
    by_cases opens : chars.head? = some '{'
    · obtain ⟨inside, rfl⟩ := List.head?_eq_some_iff.mp opens
      cases closes : afterBlock? ('{' :: inside) with
      | none =>
        obtain rfl := whole closes
        have never : afterClosing? 0 .code ('{' :: inside) = none := closes
        rw [Outline.shaderInterior_of_open place closes, List.append_nil]
        simp [never, Except.map]
      | some rest =>
        have further := afterClosing?_append_tail more closes
        obtain ⟨front, rfl⟩ := eq_append_of_afterClosing? (by rw [← afterBlock?_cons, closes])
        have lies : Spans document.toList (start + 1) front (start + 1 + byteSize front) := (Spans.tail h).split.1
        have stop_eq := longer.stop_eq
        have units : ('{').utf8Size = 1 ∧ ('}').utf8Size = 1 := ⟨rfl, rfl⟩
        simp only [byteSize_append, byteSize_cons, units] at stop_eq
        have end_ : stop - byteSize (rest ++ more) - 1 = start + 1 + byteSize front := by
          rw [byteSize_append]
          omega
        have found : afterClosing? 0 .code ('{' :: (front ++ '}' :: rest ++ more)) = some (rest ++ more) :=
          further
        rw [Outline.shaderInterior_of_closed place closes]
        refine ⟨?_, fun inside same => Except.ok.inj same ▸ lies⟩
        simp only [found, List.cons_append, List.head?_cons, decide_true, Option.bind_eq_bind, Option.bind_some,
          Option.map_some, end_, if_true]
        rfl
    · have missing : (Outline.blockPlace header).chars.head? ≠ some '{' := by rwa [place]
      have missing' : (chars ++ more).head? ≠ some '{' := by
        cases chars with
        | nil =>
          rw [whole rfl]
          simp
        | cons c cs => exact opens
      rw [Outline.shaderInterior_of_missing missing, place, decide_eq_false missing']
      exact ⟨rfl, fun inside same => by simp at same⟩

theorem rest_of_unclosed {r : Region} {s : Statement} (found : Statement.first? r = some s) (block : s.kind = .block)
    (never : afterBlock? s.value.chars = none) : s.rest.chars = [] := by
  obtain ⟨c, cs, begins⟩ := Statement.exists_cons_of_first? found
  rw [Statement.first?_of_afterSpaces begins] at found
  obtain rfl := Option.some.inj found
  exact Remainder.rest_of_unclosed block never

theorem scanHeader?_eq {header : Statement} {r : Region} (found : Statement.first? r = some header)
    (h : r.LiesIn document.toList) :
    scanHeader? document r.stop (.ofStatement header) =
      some (Outline.nameOf header, (Outline.blockPlace header).start) := by
  have lies := liesIn_first? h found
  have kind : (Extent.ofStatement header).kind = header.kind := rfl
  rw [scanHeader?, Outline.nameOf, Outline.blockPlace, kind]
  by_cases block : header.kind = .block
  · rw [if_pos block, if_pos block, if_pos block]
    rfl
  · have skips := skipTrivia?_region lies.rest
    have value : unquote? document (Extent.ofStatement header).value = some header.nameValue := unquote?_eq lies.value
    rw [lies.stop_eq, ← lies.next] at skips
    rw [if_neg block, if_neg block, if_neg block, value, skips]
    rfl

/-- The block of a shader is looked for in a region, which may end in front of the end of the document. -/
theorem spans_blockPlace {header : Statement} {r : Region} (found : Statement.first? r = some header)
    (h : r.LiesIn document.toList) :
    (Outline.blockPlace header).LiesIn document.toList ∧
      ∃ more, Spans document.toList (Outline.blockPlace header).start ((Outline.blockPlace header).chars ++ more) r.stop ∧
        (afterBlock? (Outline.blockPlace header).chars = none → more = []) := by
  have lies := liesIn_first? h found
  rw [Outline.blockPlace]
  by_cases block : header.kind = .block
  · have rest : Spans document.toList header.value.stop header.rest.chars r.stop := by
      rw [lies.value_stop, ← lies.stop_eq]
      exact lies.rest
    rw [if_pos block]
    exact ⟨lies.value, header.rest.chars, Spans.append lies.value rest, rest_of_unclosed found block⟩
  · obtain ⟨place, stop⟩ := liesIn_skipTrivia lies.rest
    rw [if_neg block]
    refine ⟨place, [], ?_, fun _ => rfl⟩
    rw [List.append_nil, ← lies.stop_eq, ← stop]
    exact place

/-- A document is always read to its end: no byte is looked for outside of it, every slice is one of whole
characters, and every loop moves on in front of its end. What is read is the tree or the error of the
document. -/
theorem parse?_eq_parse (document : String) : parse? document = some (Shader.parse document) := by
  have whole := liesIn_whole document.toList
  have first := header?_eq whole
  have size : (Region.whole document.toList).stop = byteSize document.toList := Nat.zero_add _
  rw [size] at first
  change header? document 0 _ = _ at first
  rw [parse?, Shader.parse, Outline.ofText]
  simp only [first, Option.bind_eq_bind, Option.bind_some]
  cases header : (Region.whole document.toList).header? with
  | none =>
    have end_ : Spans document.toList (byteSize document.toList) [] (byteSize document.toList) :=
      (spans_whole document.toList).onward List.nil_suffix
    simp only [Option.map_none, fail?_eq _ end_, Shader.ofOutline]
  | some statement =>
    obtain ⟨place, lies, stop, found⟩ := exists_region_of_header? whole header
    have parts := liesIn_first? lies found
    have name : slice? document.toList (Extent.ofStatement statement).name.start
        (Extent.ofStatement statement).name.stop = some statement.name.chars := slice?_of_liesIn parts.name
    have scanned := scanHeader?_eq found lies
    rw [stop.trans size] at scanned
    simp only [Option.map_some, name, scanned, Option.bind_some]
    by_cases shader : keyword? statement.name.chars = some .shader
    · obtain ⟨blockLies, more, longer, unclosed⟩ := spans_blockPlace found lies
      rw [stop.trans size] at longer
      obtain ⟨interior, inside⟩ := shaderInterior?_eq blockLies longer unclosed
      rw [if_pos shader, if_neg (by simpa using shader), interior]
      cases body : Outline.shaderInterior statement with
      | error fault => rfl
      | ok r =>
        have read := readBody?_eq (serves_takeShader? r.stop) (inside r body) rfl (.named (Outline.nameOf statement))
        show readBody? document (takeShader? document r.stop) (.named (Outline.nameOf statement)) r.start r.stop = _
        rw [read, Shader.ofOutline]
        cases fault : shaderBody.faultOf? (shaderBody.entries r) <;> simp only [fault] <;> rfl
    · have wrong := fail?_eq (α := Shader) (.missingShader statement.name.text) parts.name
      rw [if_neg shader, if_pos (by simpa using shader)]
      exact wrong

end ShaderText.Bytewise
