import Mathlib.Data.List.DropRight
import ShaderText.Proofs.Capture
import ShaderText.Proofs.Bytewise.Document

/-! What an error says about its document, and where. A fault inside of a body comes from one statement of one
block, and the blocks that are read are those of the shader, its sub-shaders and their passes. Main statement:
every error of a document stands at a place between two characters of it, given by its line and column, and
what the cause says is true of the text at that place.
-/
namespace ShaderText

open Bytewise

section Position

variable (front back : List Char)

theorem Position.foldl_advance :
    front.foldl advance origin = ⟨front.count '\n' + 1, byteSize (front.rtakeWhile isInLine) + 1⟩ := by
  induction front using List.reverseRecOn with
  | nil => rfl
  | append_singleton front c ih =>
    rw [List.foldl_append, ih, List.rtakeWhile_concat, List.count_append]
    by_cases ends : c = '\n'
    · subst ends
      rfl
    · have inLine : isInLine c = true := by simpa [isInLine] using ends
      simp [advance, ends, inLine]
      omega

theorem Position.ofOffset_append :
    ofOffset (front ++ back) (byteSize front) =
      ⟨front.count '\n' + 1, byteSize (front.rtakeWhile isInLine) + 1⟩ := by
  rw [ofOffset, forward_byteSize_append, foldl_advance]

end Position

theorem Program.not_sameWord_of_first? {sentinel : Sentinel} {r : Region} (never : first? sentinel r = none) :
    ∀ line ∈ (splitLines r.chars).tail, sameWord (firstWord line) sentinel.closing.toList = false := by
  have never : fromClosingLine? sentinel.closing.toList (afterLine r.chars) = none := by
    unfold first? at never
    split at never
    · assumption
    · contradiction
  have single : ∀ line ∈ splitLines r.chars, '\n' ∉ line := fun _ => not_mem_of_mem_splitLines
  rw [← joinLines_splitLines r.chars, afterLine_joinLines single] at never
  have open_ : ¬∃ line ∈ (splitLines r.chars).tail, sentinel.closes line := by
    rw [← isSome_fromClosingLine?_joinLines fun line member => single line (List.mem_of_mem_tail member), never]
    simp
  simpa [Sentinel.closes] using open_

def Body.statements {α : Type} (body : Body α) (r : Region) : List Statement :=
  (body.entries r).map (·.statement)

/-- The inside of a block that is read, with the body that reads its statements. -/
inductive Encloses (document : String) : {α : Type} → Body α → Region → Prop
  | shader {header : Statement} {inside : Region} (first : (Region.whole document.toList).header? = some header)
      (word : header.Says .shader) (block : Outline.shaderInterior header = .ok inside) :
      Encloses document shaderBody inside
  | subShader {outer inside : Region} {s : Statement} (around : Encloses document shaderBody outer)
      (member : s ∈ shaderBody.statements outer) (word : s.Says .subShader)
      (block : s.interior Keyword.subShader.word = .ok inside) : Encloses document subShaderBody inside
  | pass {outer inside : Region} {s : Statement} (around : Encloses document subShaderBody outer)
      (member : s ∈ subShaderBody.statements outer) (word : s.Says .pass)
      (block : s.interior Keyword.pass.word = .ok inside) : Encloses document passBody inside

/-- Whether a statement is read in a block, `r` being the inside of the block. -/
def Statement.IsReadIn (s : Statement) (document : String) (r : Region) : Prop :=
  ∃ (α : Type) (body : Body α), Encloses document body r ∧ s ∈ body.statements r

section Places

variable {document : String} {r : Region} {s : Statement}

theorem Bytewise.Serves.exists_place {α β : Type} {stop : Nat} {take : Step β} {body : Body α} {add : β → α → β}
    (serves : Serves document stop take body add) (h : r.LiesIn document.toList) (ends : r.stop = stop)
    {e : Entry α} (member : e ∈ body.entries r) :
    e.item = (body.read e.statement).1 ∧ ∃ place : Region, place.LiesIn document.toList ∧ place.stop = stop ∧
      Statement.first? place = some e.statement := by
  fun_induction Body.entries body r with
  | case1 => simp at member
  | case2 r s first said ih =>
    obtain ⟨lies, stays, -, -⟩ := serves.liesIn_read h ends first
    rcases List.mem_cons.mp member with rfl | later
    · exact ⟨rfl, r, h, ends, first⟩
    · split at later
      · simp at later
      · exact ih lies stays later

theorem liesIn_shaderInterior {header : Statement} {inside : Region}
    (first : (Region.whole document.toList).header? = some header)
    (block : Outline.shaderInterior header = .ok inside) : inside.LiesIn document.toList := by
  obtain ⟨place, lies, -, found⟩ := exists_region_of_header? (liesIn_whole document.toList) first
  obtain ⟨blockLies, more, longer, unclosed⟩ := spans_blockPlace found lies
  exact (shaderInterior?_eq blockLies longer unclosed).2 inside block

theorem Bytewise.Serves.liesIn_child {α β : Type} {take : Nat → Step β} {body : Body α} {add : β → α → β}
    (serves : ∀ stop, Serves document stop (take stop) body add) (h : r.LiesIn document.toList)
    (member : s ∈ body.statements r) {word : String} {inside : Region} (block : s.interior word = .ok inside) :
    inside.LiesIn document.toList := by
  obtain ⟨e, entry, rfl⟩ := List.mem_map.mp member
  obtain ⟨-, place, lies, -, found⟩ := (serves r.stop).exists_place h rfl entry
  exact liesIn_interior found lies block

theorem Encloses.liesIn {α : Type} {body : Body α} (h : Encloses document body r) : r.LiesIn document.toList := by
  induction h with
  | shader first _ block => exact liesIn_shaderInterior first block
  | subShader _ member _ block ih => exact Serves.liesIn_child serves_takeShader? ih member block
  | pass _ member _ block ih => exact Serves.liesIn_child serves_takeSubShader? ih member block

theorem Statement.IsReadIn.exists_place (h : s.IsReadIn document r) :
    ∃ place : Region, place.LiesIn document.toList ∧ place.stop = r.stop ∧ first? place = some s := by
  obtain ⟨α, body, around, member⟩ := h
  obtain ⟨e, entry, rfl⟩ := List.mem_map.mp member
  have lies := around.liesIn
  cases around with
  | shader => exact ((serves_takeShader? r.stop).exists_place lies rfl entry).2
  | subShader => exact ((serves_takeSubShader? r.stop).exists_place lies rfl entry).2
  | pass => exact ((serves_takePass? r.stop).exists_place lies rfl entry).2

end Places

section Failing

variable {document : String} {r : Region} {f : Fault}

/-- Whether a fault comes from a statement that is read. -/
def Fault.Arises (f : Fault) (document : String) : Prop :=
  ∃ (s : Statement) (r : Region), s.IsReadIn document r ∧ s.Fails f

/-- The fault of a body comes from a statement of the body, which is read as the body reads statements. -/
theorem Bytewise.Serves.exists_failing {α β : Type} {take : Nat → Step β} {body : Body α} {add : β → α → β}
    (serves : ∀ stop, Serves document stop (take stop) body add) (around : Encloses document body r)
    (found : body.faultOf? (body.entries r) = some f) :
    ∃ s ∈ body.statements r, body.fault? (body.read s).1 = some f := by
  obtain ⟨e, member, wrong⟩ := List.exists_of_findSome?_eq_some found
  refine ⟨e.statement, List.mem_map_of_mem member, ?_⟩
  rw [← ((serves r.stop).exists_place around.liesIn rfl member).1]
  exact wrong

theorem Encloses.arises_pass (around : Encloses document passBody r)
    (found : passBody.faultOf? (passBody.entries r) = some f) : f.Arises document := by
  obtain ⟨s, member, wrong⟩ := Serves.exists_failing serves_takePass? around found
  exact ⟨s, r, ⟨_, _, around, member⟩, PassItem.fails_of_read wrong⟩

theorem Encloses.arises_subShader (around : Encloses document subShaderBody r)
    (found : subShaderBody.faultOf? (subShaderBody.entries r) = some f) : f.Arises document := by
  obtain ⟨s, member, wrong⟩ := Serves.exists_failing serves_takeSubShader? around found
  rcases SubShaderItem.fault_cases wrong with ⟨inside, word, block, later⟩ | fails
  · exact (Encloses.pass around member word block).arises_pass later
  · exact ⟨s, r, ⟨_, _, around, member⟩, fails⟩

theorem Encloses.arises_shader (around : Encloses document shaderBody r)
    (found : shaderBody.faultOf? (shaderBody.entries r) = some f) : f.Arises document := by
  obtain ⟨s, member, wrong⟩ := Serves.exists_failing serves_takeShader? around found
  rcases ShaderItem.fault_cases wrong with ⟨inside, word, block, later⟩ | fails
  · exact (Encloses.subShader around member word block).arises_subShader later
  · exact ⟨s, r, ⟨_, _, around, member⟩, fails⟩

end Failing

theorem Region.exists_tail_of_tag {r : Region} {f : Fault} (h : r.tag = .error f) :
    ∃ tail, tail <:+ r.chars ∧ f.offset = (r.onward tail).start := by
  unfold tag at h
  split at h
  · obtain rfl := Except.error.inj h
    exact ⟨r.chars, List.suffix_refl _, (congrArg Region.start (Bytewise.onward_chars r)).symm⟩
  · rename_i key afterKey readKey
    have key := (tagToken?_suffix readKey).1
    have trivia := (afterTrivia_suffix afterKey).trans key
    have sign : (r.onward afterKey).skipTrivia = r.onward (afterTrivia afterKey) := onward_onward key _
    dsimp only at h
    rw [sign] at h
    split at h
    · rename_i afterSign begins
      have afterSign_suffix : afterSign <:+ r.chars := (List.suffix_cons '=' afterSign).trans (begins ▸ trivia)
      rw [onward_onward trivia] at h
      have place : (r.onward afterSign).skipTrivia = r.onward (afterTrivia afterSign) := onward_onward afterSign_suffix _
      rw [place] at h
      split at h
      · obtain rfl := Except.error.inj h
        exact ⟨_, (afterTrivia_suffix afterSign).trans afterSign_suffix, rfl⟩
      · contradiction
    · obtain rfl := Except.error.inj h
      exact ⟨_, trivia, rfl⟩

theorem Region.exists_tail_of_tags {r : Region} {f : Fault} (h : r.tags.2 = some f) :
    ∃ tail, tail <:+ r.chars ∧ f.offset = (r.onward tail).start := by
  fun_induction Region.tags r with
  | case1 => contradiction
  | case2 r place more fault wrong =>
    obtain rfl := Option.some.inj h
    obtain ⟨tail, suffix, offset⟩ := exists_tail_of_tag wrong
    have trivia := afterTrivia_suffix r.chars
    exact ⟨tail, suffix.trans trivia, offset.trans (congrArg Region.start (onward_onward trivia tail))⟩
  | case3 r place more pair rest ok pairs fault? read ih =>
    rw [read] at ih
    obtain ⟨tail, suffix, offset⟩ := ih h
    have trivia := afterTrivia_suffix r.chars
    have inside := (tag_suffix ok).1.trans trivia
    have next : rest = r.onward rest.chars := (eq_onward_of_tag ok).trans (onward_onward trivia rest.chars)
    rw [next, onward_onward inside] at offset
    exact ⟨tail, suffix.trans inside, offset⟩

theorem Statement.exists_place_of_tags {document : String} {place : Region} {s : Statement} {f : Fault}
    (lies : place.LiesIn document.toList) (found : first? place = some s) (wrong : s.tags.2 = some f) :
    ∃ here : Region, here.LiesIn document.toList ∧ f.offset = here.start ∧ s.name.start ≤ here.start ∧
      here.start ≤ s.stop := by
  have parts := liesIn_first? lies found
  have order := (sitsIn_first? lies found).1.ordered
  have next := (sitsIn_first? lies found).1.next
  unfold Statement.tags at wrong
  split at wrong
  · rename_i block
    obtain ⟨-, -, -, inside, stop⟩ := exists_block found lies block
    obtain ⟨tags, tagsLie, start, within, read⟩ : ∃ tags : Region, tags.LiesIn document.toList ∧
        tags.start = s.value.start + 1 ∧ tags.stop ≤ s.value.stop ∧ tags.tags.2 = some f := by
      dsimp only at wrong
      split at wrong
      · rename_i closed
        obtain ⟨front, end_⟩ := liesIn_dropLast (by decide) inside closed
        exact ⟨_, front, rfl, by omega, wrong⟩
      · exact ⟨_, inside, rfl, by omega, wrong⟩
    obtain ⟨tail, suffix, offset⟩ := Region.exists_tail_of_tags read
    have size := byteSize_le_of_suffix suffix
    refine ⟨tags.onward tail, liesIn_onward tagsLie suffix, offset, ?_, ?_⟩
    · show s.name.start ≤ tags.start + byteSize tags.chars - byteSize tail
      omega
    · show tags.stop - byteSize tail ≤ s.stop
      omega
  · obtain rfl := Option.some.inj wrong
    exact ⟨s.name, parts.name, rfl, Nat.le_refl _, by omega⟩

/-- What a cause says about the place where it is reported, which stands between `front` and `back`. -/
inductive Explains (document : String) (front back : List Char) : Cause → Prop
  /-- The document is over, and its statements are all comments. -/
  | endOfText (last : back = []) (idle : ∀ s ∈ (Region.whole document.toList).statements, s.kind = .comment) :
      Explains document front back .endOfText
  /-- The first name of the document stands here, and is another one. -/
  | missingShader {header : Statement} {more : List Char}
      (first : (Region.whole document.toList).statements.find? (·.kind ≠ .comment) = some header)
      (other : sameWord Keyword.shader.word.toList header.name.chars = false)
      (place : byteSize front = header.name.start) (here : back = header.name.chars ++ more) :
      Explains document front back (.missingShader header.name.text)
  /-- Behind the name of the shader, after spaces and comments, there is no brace. -/
  | missingBlock {header : Statement} {behind : List Char}
      (first : (Region.whole document.toList).statements.find? (·.kind ≠ .comment) = some header)
      (word : header.Says .shader) (follows : Spans document.toList header.stop behind (byteSize document.toList))
      (here : back = afterTrivia behind) (missing : back.head? ≠ some '{') :
      Explains document front back (.missingBlock Keyword.shader.word)
  /-- The brace that opens the block of the shader is never matched. -/
  | unterminatedBlock {header : Statement}
      (first : (Region.whole document.toList).statements.find? (·.kind ≠ .comment) = some header)
      (word : header.Says .shader) (place : byteSize front = (Outline.blockPlace header).start)
      (here : back.head? = some '{') (never : afterBlock? back = none) :
      Explains document front back (.unterminatedBlock Keyword.shader.word)
  /-- A sentinel stands here, and up to the end of its block no later line begins with its closing word. -/
  | unterminatedProgram {s : Statement} {r : Region} {sentinel : Sentinel} {more behind : List Char}
      (held : s.IsReadIn document r) (word : s.Says (.program sentinel)) (place : byteSize front = s.name.start)
      (here : back = s.name.chars ++ more) (follows : Spans document.toList s.name.stop behind r.stop)
      (never : ∀ line ∈ (splitLines behind).tail, sameWord (firstWord line) sentinel.closing.toList = false) :
      Explains document front back (.unterminatedProgram sentinel)
  /-- The place is one of a statement that holds tags. -/
  | malformedTags {s : Statement} {r : Region} (held : s.IsReadIn document r) (word : s.Says .tags)
      (inside : s.name.start ≤ byteSize front ∧ byteSize front ≤ s.stop) :
      Explains document front back .malformedTags

/-- Only the block of the shader itself is ever missed. -/
theorem Explains.eq_shader {document : String} {front back : List Char} {c : Cause}
    (h : Explains document front back c) {word : String}
    (block : c = .missingBlock word ∨ c = .unterminatedBlock word) : word = Keyword.shader.word := by
  cases h with
  | missingBlock => simpa [eq_comm] using block
  | unterminatedBlock => simpa [eq_comm] using block
  | _ => simp at block

/-- Whether what a fault says is true at its place. -/
def Fault.IsExplained (f : Fault) (document : String) : Prop :=
  ∃ front back, document.toList = front ++ back ∧ f.offset = byteSize front ∧ Explains document front back f.cause

section Explained

variable {document : String} {f : Fault}

theorem Region.header?_eq_find? (r : Region) : r.header? = r.statements.find? (·.kind ≠ .comment) := by
  fun_induction Region.header? r with
  | case1 r none =>
    rw [statements_of_none none]
    rfl
  | case2 r s first comment ih =>
    rw [statements_of_some first, List.find?_cons_of_neg (by simpa using comment)]
    exact ih
  | case3 r s first other => rw [statements_of_some first, List.find?_cons_of_pos (by simpa using other)]

theorem Bytewise.Spans.eq_append {text cs : List Char} {pos : Nat} (h : Spans text pos cs (byteSize text)) :
    ∃ front, text = front ++ cs ∧ pos = byteSize front := by
  obtain ⟨front, back, rfl, rfl, stop⟩ := h
  simp only [byteSize_append] at stop
  have empty : byteSize back ≤ 0 := by omega
  obtain rfl := eq_nil_of_byteSize_le empty
  exact ⟨front, by simp, rfl⟩

/-- A fault that comes from a statement is explained where the statement says. -/
theorem Fault.Arises.isExplained (h : f.Arises document) : f.IsExplained document := by
  obtain ⟨s, r, held, fails⟩ := h
  obtain ⟨place, lies, stop, found⟩ := held.exists_place
  have parts := liesIn_first? lies found
  cases fails with
  | @endless sentinel word never =>
    obtain ⟨front, more, split, start, -⟩ := parts.name
    obtain ⟨known, keyword⟩ := Statement.says_iff.mp word
    have follows : Spans document.toList s.name.stop s.rest.chars r.stop := by
      rw [← (start_of_program found known keyword).2, ← stop, ← parts.stop_eq]
      exact parts.rest
    exact ⟨front, s.name.chars ++ more, split, start,
      .unterminatedProgram held word start.symm rfl follows (Program.not_sameWord_of_first? never)⟩
  | tags word wrong =>
    obtain ⟨here, hereLies, offset, after, before⟩ := Statement.exists_place_of_tags lies found wrong
    obtain ⟨front, more, split, start, -⟩ := hereLies
    refine ⟨front, here.chars ++ more, split, offset.trans start, ?_⟩
    rw [Statement.cause_of_tags wrong]
    rw [start] at after before
    exact .malformedTags held word ⟨after, before⟩

theorem isExplained_of_shaderInterior {header : Statement} (first : (Region.whole document.toList).header? = some header)
    (word : header.Says .shader) (wrong : Outline.shaderInterior header = .error f) : f.IsExplained document := by
  have size : (Region.whole document.toList).stop = byteSize document.toList := Nat.zero_add _
  have isFirst := (Region.header?_eq_find? _).symm.trans first
  obtain ⟨place, lies, stop, found⟩ := exists_region_of_header? (liesIn_whole document.toList) first
  obtain ⟨-, more, longer, unclosed⟩ := spans_blockPlace found lies
  rw [stop.trans size] at longer
  by_cases opens : (Outline.blockPlace header).chars.head? = some '{'
  · obtain ⟨inside, begins⟩ := List.head?_eq_some_iff.mp opens
    have block : Outline.blockPlace header = ⟨(Outline.blockPlace header).start, '{' :: inside⟩ := by rw [← begins]
    cases closes : afterBlock? ('{' :: inside) with
    | none =>
      rw [begins] at unclosed longer
      obtain rfl := unclosed closes
      obtain ⟨front, split, start⟩ := longer.eq_append
      rw [List.append_nil] at split
      rw [Outline.shaderInterior_of_open block closes] at wrong
      obtain rfl := Except.error.inj wrong
      exact ⟨front, '{' :: inside, split, start, .unterminatedBlock isFirst word start.symm rfl closes⟩
    | some rest =>
      obtain ⟨front, rfl⟩ := eq_append_of_afterClosing? (by rw [← afterBlock?_cons, closes])
      rw [Outline.shaderInterior_of_closed block closes] at wrong
      contradiction
  · -- the value of the header is no block, so the place is behind the header
    have parts := liesIn_first? lies found
    have behind : Outline.blockPlace header = header.rest.skipTrivia := by
      apply if_neg
      intro block
      rw [Outline.blockPlace, if_pos block] at opens
      exact opens (Statement.head?_value found block)
    rw [Outline.shaderInterior_of_missing opens] at wrong
    obtain rfl := Except.error.inj wrong
    obtain ⟨skipped, end_⟩ := liesIn_skipTrivia parts.rest
    rw [Region.LiesIn, end_, parts.stop_eq, stop, size] at skipped
    obtain ⟨front, split, start⟩ := skipped.eq_append
    have follows : Spans document.toList header.stop header.rest.chars (byteSize document.toList) := by
      have next : header.stop = header.rest.start := parts.next
      rw [next, ← size, ← stop, ← parts.stop_eq]
      exact parts.rest
    rw [behind] at opens ⊢
    exact ⟨front, _, split, start, .missingBlock isFirst word follows rfl opens⟩

theorem Outline.isExplained_of_fault? (wrong : (ofText document.toList).fault? = some f) : f.IsExplained document := by
  unfold ofText at wrong
  split at wrong
  · rename_i none
    obtain rfl := Option.some.inj wrong
    rw [Region.header?_eq_find?, List.find?_eq_none] at none
    exact ⟨document.toList, [], (List.append_nil _).symm, rfl, .endOfText rfl fun s member => by simpa using none s member⟩
  · rename_i header first
    have isFirst := (Region.header?_eq_find? _).symm.trans first
    have known : header.kind ≠ .comment := by simpa using List.find?_some isFirst
    split at wrong
    · rename_i other
      obtain rfl := Option.some.inj wrong
      obtain ⟨place, lies, -, found⟩ := exists_region_of_header? (liesIn_whole document.toList) first
      obtain ⟨front, more, split, start, -⟩ := (liesIn_first? lies found).name
      have notShader : sameWord Keyword.shader.word.toList header.name.chars = false := by
        rw [Bool.eq_false_iff]
        exact fun same => other (WordFamily.find?_eq_some_iff.mpr same)
      exact ⟨front, _, split, start, .missingShader isFirst notShader start.symm rfl⟩
    · rename_i shader
      have word : header.Says .shader := Statement.says_iff.mpr ⟨known, not_not.mp shader⟩
      split at wrong
      · rename_i g block
        obtain rfl := Option.some.inj wrong
        exact isExplained_of_shaderInterior first word block
      · rename_i inside block
        exact ((Encloses.shader first word block).arises_shader wrong).isExplained

end Explained

/-- Every error of a document stands between two characters of it. Its line counts the line feeds in front, its column
the bytes after the last one, and its cause says what is true there. A block is only ever missed behind the name
of the shader: a child without a closed block is no error. -/
theorem Shader.parse_error_explained {document : String} {e : ParseError} (h : parse document = .error e) :
    ∃ front back, document.toList = front ++ back ∧
      e.position = ⟨front.count '\n' + 1, byteSize (front.rtakeWhile isInLine) + 1⟩ ∧
      Explains document front back e.cause ∧
      ∀ word, e.cause = .missingBlock word ∨ e.cause = .unterminatedBlock word → word = Keyword.shader.word := by
  obtain ⟨f, wrong, rfl⟩ := parse_eq_error_iff.mp h
  obtain ⟨front, back, split, offset, explains⟩ := Outline.isExplained_of_fault? wrong
  refine ⟨front, back, split, ?_, explains, fun word block => explains.eq_shader block⟩
  rw [Fault.locate, offset, split]
  exact Position.ofOffset_append front back

theorem parse_error_explained_program :
    let document := "// é\nShader \"λ\" \x7b subShader \x7b pass \x7b\n Cull Off cgProgram\n λ;\n ENDHLSL \x7d \x7d \x7d\nENDCG"
    let e : ParseError := ⟨⟨3, 11⟩, .unterminatedProgram .cgProgram⟩
    Shader.parse document = .error e ∧ ∃ front back, document.toList = front ++ back ∧
      e.position = ⟨front.count '\n' + 1, byteSize (front.rtakeWhile isInLine) + 1⟩ ∧
      Explains document front back e.cause ∧
      ∀ word, e.cause = .missingBlock word ∨ e.cause = .unterminatedBlock word → word = Keyword.shader.word := by
  intro document e
  have wrong : Shader.parse document = .error e := by decide +kernel
  exact ⟨wrong, Shader.parse_error_explained wrong⟩

end ShaderText
