import ShaderText.Proofs.Reading
import ShaderText.Proofs.Respelling.Lines

/-! Respelled documents. A motion respells a document and says where each of its places comes to
stand. Main statement: as long as the places follow the text, the outline of the respelled document
is the respelled outline, faults included.
-/
namespace ShaderText

/-- A respelling, and the offset that each offset becomes. -/
structure Motion extends Respelling where
  place : Nat → Nat

namespace Motion

variable (m : Motion)

def region (r : Region) : Region := ⟨m.place r.start, m.text r.chars⟩

/-- Whether the places in a region move along with its text. -/
def Follows (r : Region) : Prop :=
  ∀ front back, r.chars = front ++ back →
    m.place (r.start + byteSize front) = m.place r.start + byteSize (m.text front)

variable {m}

namespace Follows

variable {r : Region} {tail : List Char}

theorem part (h : m.Follows r) (front middle back : List Char) (split : r.chars = front ++ (middle ++ back)) :
    m.Follows ⟨r.start + byteSize front, middle⟩ ∧
      m.region ⟨r.start + byteSize front, middle⟩ = ⟨m.place r.start + byteSize (m.text front), m.text middle⟩ := by
  have here := h front _ split
  refine ⟨fun first last within => ?_, by rw [region, here]⟩
  have there := h (front ++ first) (last ++ back) (by
    rw [split, show middle = first ++ last from within]
    simp)
  simp only [byteSize_append, Respelling.text_append, ← Nat.add_assoc] at there ⊢
  omega

theorem stop (h : m.Follows r) : (m.region r).stop = m.place r.stop :=
  (h r.chars [] (List.append_nil _).symm).symm

theorem onward (h : m.Follows r) (suffix : tail <:+ r.chars) :
    m.Follows (r.onward tail) ∧ m.region (r.onward tail) = (m.region r).onward (m.text tail) := by
  obtain ⟨front, split⟩ := suffix
  obtain ⟨start, chars⟩ := r
  subst split
  obtain ⟨follows, equal⟩ := h.part front tail [] (by rw [List.append_nil])
  rw [Region.onward_append, equal, region, Respelling.text_append, Region.onward_append]
  exact ⟨follows, rfl⟩

theorem upTo (h : m.Follows r) (suffix : tail <:+ r.chars) :
    m.Follows (r.upTo tail) ∧ m.region (r.upTo tail) = (m.region r).upTo (m.text tail) := by
  obtain ⟨front, split⟩ := suffix
  obtain ⟨start, chars⟩ := r
  subst split
  obtain ⟨follows, equal⟩ := h.part [] front tail rfl
  simp only [byteSize_nil, Nat.add_zero, Respelling.text_nil] at follows equal
  rw [Region.upTo_append, equal, region, Respelling.text_append, Region.upTo_append]
  exact ⟨follows, rfl⟩

theorem inside {start : Nat} {middle back : List Char} (h : m.Follows ⟨start, '{' :: (middle ++ back)⟩) :
    m.Follows ⟨start + 1, middle⟩ ∧ m.region ⟨start + 1, middle⟩ = ⟨m.place start + 1, m.text middle⟩ := by
  have brace : m.text ['{'] = ['{'] := by
    rw [m.text_cons, m.image_of_sign (by decide) (by decide)]
    rfl
  have part := h.part ['{'] middle back rfl
  rw [brace] at part
  exact part

theorem skipTrivia (h : m.Follows r) :
    m.Follows r.skipTrivia ∧ m.region r.skipTrivia = (m.region r).skipTrivia := by
  obtain ⟨follows, equal⟩ := h.onward (afterTrivia_suffix r.chars)
  refine ⟨follows, ?_⟩
  rw [Region.skipTrivia, equal, ← m.afterTrivia_text]
  rfl

end Follows

theorem text_region (r : Region) : (m.region r).text = m.string r.text := by
  simp [region, Region.text]

variable (m)

def statement (s : Statement) : Statement := ⟨s.kind, m.region s.name, m.region s.value, m.region s.rest⟩

/-- Whether all places of a statement move along with its text. Its name stands on one line, and a
block begins with its brace. -/
structure Carries (s : Statement) : Prop where
  name : m.Follows s.name
  value : m.Follows s.value
  rest : m.Follows s.rest
  single : '\n' ∉ s.name.chars
  brace : s.kind = .block → s.value.chars.head? = some '{'

variable {m}

theorem first?_region {r : Region} (h : m.Follows r) :
    Statement.first? (m.region r) = (Statement.first? r).map m.statement ∧
      ∀ s, Statement.first? r = some s → m.Carries s := by
  cases begins : afterSpaces r.chars with
  | nil =>
    have none : Statement.first? r = none := by
      unfold Statement.first?
      rw [begins]
    have begins' : afterSpaces (m.region r).chars = [] := by
      rw [region, m.afterSpaces_text, begins, m.text_nil]
    have none' : Statement.first? (m.region r) = .none := by
      unfold Statement.first?
      rw [begins']
    rw [none, none']
    exact ⟨rfl, fun s found => by simp at found⟩
  | cons c cs =>
    have notSpace := not_isSpace_head_afterSpaces begins
    obtain ⟨d, image⟩ : ∃ d, m.image c = [d] := by
      rcases m.image_alike c with ⟨rfl, -⟩ | ⟨d, image, -⟩
      · exact absurd notSpace (by decide)
      · exact ⟨d, image⟩
    have begins' : afterSpaces (m.region r).chars = d :: m.text cs := by
      rw [region, m.afterSpaces_text, begins, m.text_cons, image]
      rfl
    have whole : d :: m.text cs = m.text (c :: cs) := by rw [m.text_cons, image]; rfl
    have single : '\n' ∉ (c :: cs).take ((c :: cs).length - (cs.dropWhile isNameChar).length) := by
      rw [List.length_cons, Nat.succ_sub (List.dropWhile_suffix _).length_le, List.take_succ_cons,
        take_sub_length_dropWhile, List.mem_cons, not_or]
      refine ⟨?_, Respelling.not_mem_takeWhile (by decide) _⟩
      rintro rfl
      exact absurd notSpace (by decide)
    have within : c :: cs <:+ r.chars := begins ▸ afterSpaces_suffix r.chars
    have name : cs.dropWhile isNameChar <:+ c :: cs := (List.dropWhile_suffix _).trans (List.suffix_cons c cs)
    obtain ⟨value, rest⟩ := Remainder.ofName_suffix name
    obtain ⟨followsHere, here⟩ := h.onward within
    obtain ⟨followsName, nameEq⟩ := followsHere.upTo name
    obtain ⟨followsOn, onward⟩ := followsHere.onward (value.trans name)
    obtain ⟨followsValue, valueEq⟩ := followsOn.upTo rest
    obtain ⟨followsRest, restEq⟩ := followsHere.onward ((rest.trans value).trans name)
    rw [Statement.first?_of_afterSpaces begins, Statement.first?_of_afterSpaces begins']
    refine ⟨?_, fun s found => ?_⟩
    · simp only [whole, m.dropWhile_text isCoarse_isNameChar, m.ofName_text name single, Option.map_some,
        statement, nameEq, valueEq, onward, restEq, here]
    · obtain rfl := Option.some.inj found
      exact ⟨followsName, followsValue, followsRest, single, Remainder.head?_of_kind_block⟩

variable (m)

def fault (f : Fault) : Fault := ⟨m.place f.offset, m.cause f.cause⟩

def outcome {α β : Type} (f : α → β) : Except Fault α → Except Fault β
  | .ok a => .ok (f a)
  | .error e => .error (m.fault e)

variable {m}

theorem program_first?_region {r : Region} (sentinel : Sentinel) (h : m.Follows r) :
    Program.first? sentinel (m.region r) =
        (Program.first? sentinel r).map (fun p => ⟨m.region p.body, m.region p.rest⟩) ∧
      ∀ p, Program.first? sentinel r = some p → m.Follows p.rest := by
  unfold Program.first?
  rw [region, m.afterLine_text, m.fromClosingLine?_text]
  cases found : fromClosingLine? sentinel.closing.toList (afterLine r.chars) with
  | none => exact ⟨rfl, fun p none => by simp at none⟩
  | some last =>
    have within := (fromClosingLine?_suffix found).trans (afterLine_suffix _)
    obtain ⟨followsBody, body⟩ := h.upTo within
    obtain ⟨followsRest, rest⟩ := h.onward ((afterFirstWord_suffix last).trans within)
    refine ⟨?_, fun p some => Option.some.inj some ▸ followsRest⟩
    simp only [Option.map_some, body, rest, m.afterFirstWord_text (Respelling.firstWord_ne_nil found)]
    rfl

theorem text_brace (cs : List Char) : m.text ('{' :: cs) = '{' :: m.text cs := by
  rw [m.text_cons, m.image_of_sign (by decide) (by decide)]
  rfl

theorem dropLast_text {cs : List Char} (closed : cs.getLast? = some '}') :
    (m.text cs).dropLast = m.text cs.dropLast := by
  obtain ⟨front, rfl⟩ := List.getLast?_eq_some_iff.mp closed
  rw [List.dropLast_concat, m.text_append, m.text_cons, m.image_of_sign (by decide) (by decide),
    m.text_nil, List.append_nil, List.dropLast_concat]

theorem Follows.interior {start : Nat} {inside : List Char} (h : m.Follows ⟨start, '{' :: inside⟩)
    (closed : inside.getLast? = some '}') :
    m.Follows ⟨start + 1, inside.dropLast⟩ ∧
      m.region ⟨start + 1, inside.dropLast⟩ = ⟨m.place start + 1, m.text inside.dropLast⟩ := by
  obtain ⟨front, rfl⟩ := List.getLast?_eq_some_iff.mp closed
  rw [List.dropLast_concat]
  exact Follows.inside h

theorem Carries.value_eq {s : Statement} (h : m.Carries s) (block : s.kind = .block) :
    ∃ inside, s.value = ⟨s.value.start, '{' :: inside⟩ ∧
      (m.statement s).value = ⟨m.place s.value.start, '{' :: m.text inside⟩ := by
  obtain ⟨inside, value⟩ := List.head?_eq_some_iff.mp (h.brace block)
  refine ⟨inside, by rw [← value], ?_⟩
  rw [← text_brace, ← value]
  rfl

theorem interior_eq {s : Statement} {start : Nat} {inside : List Char} (block : s.kind = .block)
    (value : s.value = ⟨start, '{' :: inside⟩) (word : String) :
    s.interior word =
      if inside.getLast? = some '}' then .ok ⟨start + 1, inside.dropLast⟩
      else .error ⟨start, .unterminatedBlock word⟩ := by
  rw [Statement.interior, if_pos block, value]
  rfl

theorem interior_statement {s : Statement} (h : m.Carries s) (word : String) :
    (m.statement s).interior word = m.outcome m.region (s.interior word) ∧
      ∀ inside, s.interior word = .ok inside → m.Follows inside := by
  by_cases block : s.kind = .block
  · obtain ⟨inside, value, value'⟩ := h.value_eq block
    have follows := h.value
    rw [value] at follows
    have last : (m.text inside).getLast? = some '}' ↔ inside.getLast? = some '}' :=
      m.getLast?_text (by decide)
    rw [interior_eq block value, interior_eq (s := m.statement s) block value']
    by_cases closed : inside.getLast? = some '}'
    · obtain ⟨followsInside, equal⟩ := follows.interior closed
      rw [if_pos closed, if_pos (last.mpr closed), outcome, equal, dropLast_text closed]
      exact ⟨rfl, fun r same => Except.ok.inj same ▸ followsInside⟩
    · rw [if_neg closed, if_neg (mt last.mp closed)]
      exact ⟨rfl, fun r same => by simp at same⟩
  · rw [Statement.interior, Statement.interior, if_neg block,
      if_neg (show (m.statement s).kind ≠ .block from block)]
    exact ⟨rfl, fun r same => by simp at same⟩

theorem tag_region {r : Region} (h : m.Follows r) :
    (m.region r).tag = m.outcome (fun found => (m.pair found.1, m.region found.2)) r.tag ∧
      ∀ pair rest, r.tag = .ok (pair, rest) → m.Follows rest := by
  have token : tagToken? (m.region r).chars = _ := m.tagToken?_text r.chars
  unfold Region.tag
  rw [token]
  cases readKey : tagToken? r.chars with
  | none => exact ⟨rfl, fun pair rest same => by simp at same⟩
  | some found =>
    obtain ⟨key, afterKey⟩ := found
    obtain ⟨followsKey, keyEq⟩ := h.onward (tagToken?_suffix readKey).1
    obtain ⟨followsSign, signEq⟩ := followsKey.skipTrivia
    simp only [Option.map_some, ← keyEq, ← signEq]
    generalize (r.onward afterKey).skipTrivia = sign at followsSign
    by_cases equals : sign.chars.head? = some '='
    · obtain ⟨afterSign, chars⟩ := List.head?_eq_some_iff.mp equals
      have chars' : (m.region sign).chars = '=' :: m.text afterSign := by
        rw [region, chars, m.text_cons, m.image_of_sign (by decide) (by decide)]
        rfl
      obtain ⟨followsAfter, afterEq⟩ := followsSign.onward (chars ▸ List.suffix_cons '=' afterSign)
      obtain ⟨followsPlace, placeEq⟩ := followsAfter.skipTrivia
      simp only [chars, chars', ← afterEq, ← placeEq]
      generalize (sign.onward afterSign).skipTrivia = place at followsPlace
      have token : tagToken? (m.region place).chars = _ := m.tagToken?_text place.chars
      rw [token]
      cases readValue : tagToken? place.chars with
      | none => exact ⟨rfl, fun pair rest same => by simp at same⟩
      | some found =>
        obtain ⟨value, afterValue⟩ := found
        obtain ⟨followsRest, restEq⟩ := followsPlace.onward (tagToken?_suffix readValue).1
        simp only [Option.map_some, ← restEq, outcome, Respelling.pair, Respelling.string_ofList, true_and]
        rintro pair rest same
        obtain ⟨-, rfl⟩ := Prod.mk.inj (Except.ok.inj same)
        exact followsRest
    · have equals' : (m.region sign).chars.head? ≠ some '=' := mt (m.head?_text (by decide) (by decide)).mp equals
      split
      · rename_i begins
        exact absurd (by rw [begins]; rfl) equals'
      · split
        · rename_i begins
          exact absurd (by rw [begins]; rfl) equals
        · exact ⟨rfl, fun pair rest same => by simp at same⟩

theorem tags_of_isEmpty {r : Region} (empty : r.skipTrivia.chars.isEmpty) : r.tags = ([], none) := by
  rw [Region.tags, if_pos empty]

theorem tags_eq {r : Region} (more : ¬r.skipTrivia.chars.isEmpty) :
    r.tags = match r.skipTrivia.tag with
      | .error fault => ([], some fault)
      | .ok (pair, rest) => (pair :: rest.tags.1, rest.tags.2) := by
  rw [Region.tags, if_neg more]
  split <;> rename_i read <;> rw [read]

theorem tags_region {r : Region} (h : m.Follows r) :
    (m.region r).tags = (r.tags.1.map m.pair, r.tags.2.map m.fault) := by
  have empty_iff (r : Region) (h : m.Follows r) :
      (m.region r).skipTrivia.chars.isEmpty ↔ r.skipTrivia.chars.isEmpty := by
    rw [← h.skipTrivia.2, List.isEmpty_iff, List.isEmpty_iff]
    exact m.text_eq_nil_iff
  fun_induction Region.tags r with
  | case1 r place empty => exact tags_of_isEmpty ((empty_iff r h).mpr empty)
  | case2 r place more fault wrong =>
    rw [tags_eq (mt (empty_iff r h).mp more), ← h.skipTrivia.2, (tag_region h.skipTrivia.1).1, wrong]
    rfl
  | case3 r place more pair rest ok pairs fault? read ih =>
    have follows := (tag_region h.skipTrivia.1).2 pair rest ok
    rw [tags_eq (mt (empty_iff r h).mp more), ← h.skipTrivia.2, (tag_region h.skipTrivia.1).1, ok,
      outcome]
    simp only [ih follows, read, List.map_cons]

theorem tags_of_block {s : Statement} {start : Nat} {inside : List Char} (block : s.kind = .block)
    (value : s.value = ⟨start, '{' :: inside⟩) :
    s.tags = Region.tags ⟨start + 1, if inside.getLast? = some '}' then inside.dropLast else inside⟩ := by
  rw [Statement.tags, if_pos block, value]
  rfl

theorem tags_statement {s : Statement} (h : m.Carries s) :
    (m.statement s).tags = (s.tags.1.map m.pair, s.tags.2.map m.fault) := by
  by_cases block : s.kind = .block
  · obtain ⟨inside, value, value'⟩ := h.value_eq block
    have follows := h.value
    rw [value] at follows
    have last : (m.text inside).getLast? = some '}' ↔ inside.getLast? = some '}' :=
      m.getLast?_text (by decide)
    rw [tags_of_block block value, tags_of_block (s := m.statement s) block value']
    by_cases closed : inside.getLast? = some '}'
    · obtain ⟨followsInside, equal⟩ := follows.interior closed
      rw [if_pos closed, if_pos (last.mpr closed), dropLast_text closed, ← equal, tags_region followsInside]
    · rw [← List.append_nil inside] at follows
      obtain ⟨followsInside, equal⟩ := follows.inside
      rw [if_neg closed, if_neg (mt last.mp closed), ← equal, tags_region followsInside]
  · rw [Statement.tags, Statement.tags, if_neg block, if_neg (show (m.statement s).kind ≠ .block from block)]
    rfl

variable (m)

def stencilEntry (entry : StencilEntry) : StencilEntry :=
  ⟨m.statement entry.statement, entry.field?.map fun set => (set.1, m.string set.2)⟩

variable {m}

theorem statements_region {r : Region} (h : m.Follows r) :
    (m.region r).statements = r.statements.map m.statement ∧ ∀ s ∈ r.statements, m.Carries s := by
  fun_induction Region.statements r with
  | case1 r none =>
    have none' : Statement.first? (m.region r) = .none := by rw [(first?_region h).1, none]; rfl
    refine ⟨?_, fun s member => by simp at member⟩
    rw [Region.statements]
    split
    · rfl
    · rename_i some
      simp [none'] at some
  | case2 r s found ih =>
    have carries := (first?_region h).2 s found
    have found' : Statement.first? (m.region r) = some (m.statement s) := by
      rw [(first?_region h).1, found]
      rfl
    obtain ⟨rest, all⟩ := ih carries.rest
    refine ⟨?_, fun t member => ?_⟩
    · rw [Region.statements]
      split
      · rename_i none
        simp [found'] at none
      · rename_i t found''
        rw [found'] at found''
        rw [← Option.some.inj found'', List.map_cons]
        exact congrArg (m.statement s :: ·) rest
    · rcases List.mem_cons.mp member with rfl | later
      · exact carries
      · exact all t later

theorem stencilField?_statement {s : Statement} (h : m.Carries s) :
    (m.statement s).stencilField? = s.stencilField?.map fun set => (set.1, m.string set.2) := by
  unfold Statement.stencilField?
  have name : ShaderText.stencilField? (m.statement s).name.chars = ShaderText.stencilField? s.name.chars :=
    m.find?_text h.single
  rw [name]
  cases ShaderText.stencilField? s.name.chars with
  | none => rfl
  | some field =>
    by_cases empty : s.kind = .empty
    · simp [statement, empty]
    · simp [statement, empty, text_region]

theorem stencilEntries_region {r : Region} (h : m.Follows r) :
    (m.region r).stencilEntries = r.stencilEntries.map m.stencilEntry := by
  obtain ⟨all, carries⟩ := statements_region h
  have kept : ((r.statements.map m.statement).filter (·.kind ≠ .comment)) =
      (r.statements.filter (·.kind ≠ .comment)).map m.statement := by
    rw [List.filter_map]
    rfl
  rw [Region.stencilEntries, Region.stencilEntries, all, kept, List.map_map, List.map_map]
  refine List.map_congr_left fun s member => ?_
  simp [stencilEntry, stencilField?_statement (carries s (List.mem_filter.mp member).1)]

variable (m)

def clause : Clause → Clause
  | .remark => .remark
  | .program sentinel lines => .program sentinel (lines.map m.string)
  | .endlessProgram f => .endlessProgram (m.fault f)
  | .tags pairs fault? => .tags (pairs.map m.pair) (fault?.map m.fault)
  | .stencil entries => .stencil (entries.map m.stencilEntry)
  | .droppedStencil f => .droppedStencil (m.fault f)
  | .state known value => .state known (m.string value)
  | .unknown arguments => .unknown (arguments.map m.string)

variable {m}

theorem clause_fault? (said : Clause) : (m.clause said).fault? = said.fault?.map m.fault := by
  cases said <;> rfl

theorem readUnknown_statement {s : Statement} (h : m.Carries s) :
    Clause.readUnknown (m.statement s) =
        (m.clause (Clause.readUnknown s).1, m.region (Clause.readUnknown s).2) ∧
      m.Follows (Clause.readUnknown s).2 := by
  unfold Clause.readUnknown
  by_cases bare : s.kind = .bare
  · have bare' : (m.statement s).kind = .bare := bare
    obtain ⟨follows, equal⟩ := h.rest.onward (arguments_suffix s.rest.chars)
    have read : arguments (m.statement s).rest.chars = _ := m.arguments_text s.rest.chars
    simp only [if_pos bare, if_pos bare', read, equal, clause]
    exact ⟨by simp [statement], follows⟩
  · have bare' : (m.statement s).kind ≠ .bare := bare
    rw [if_neg bare, if_neg bare']
    exact ⟨rfl, h.rest⟩

theorem read_statement {s : Statement} (h : m.Carries s) :
    Clause.read (m.statement s) = (m.clause (Clause.read s).1, m.region (Clause.read s).2) ∧
      m.Follows (Clause.read s).2 := by
  have name : keyword? (m.statement s).name.chars = keyword? s.name.chars := m.keyword?_text h.single
  have state : renderState? (m.statement s).name.chars = renderState? s.name.chars :=
    m.renderState?_text h.single
  by_cases comment : s.kind = .comment
  · rw [Clause.read, Clause.read, if_pos comment, if_pos (show (m.statement s).kind = .comment from comment)]
    exact ⟨rfl, h.rest⟩
  have comment' : (m.statement s).kind ≠ .comment := comment
  by_cases plain : ∀ k ∈ keyword? s.name.chars, k.isClause = false
  · rw [Clause.read_of_plain comment plain, Clause.read_of_plain comment' (name ▸ plain), state]
    cases renderState? s.name.chars with
    | none => exact readUnknown_statement h
    | some known =>
      by_cases empty : s.kind = .empty
      · simp only [if_pos empty, if_pos (show (m.statement s).kind = .empty from empty)]
        exact readUnknown_statement h
      · simp only [if_neg empty, if_neg (show (m.statement s).kind ≠ .empty from empty)]
        exact ⟨by rw [clause, ← text_region]; rfl, h.rest⟩
  · obtain ⟨k, word, clauseWord⟩ : ∃ k, keyword? s.name.chars = some k ∧ k.isClause = true := by
      simpa using plain
    unfold Clause.read
    rw [if_neg comment, if_neg comment', name, word]
    cases k with
    | program sentinel =>
      obtain ⟨found, follows⟩ := program_first?_region sentinel h.rest
      simp only [show (m.statement s).rest = m.region s.rest from rfl, found]
      cases body : Program.first? sentinel s.rest with
      | none => exact ⟨rfl, h.rest⟩
      | some p =>
        refine ⟨?_, follows p body⟩
        simp only [Option.map_some, clause, region, m.programLines_text]
    | tags =>
      simp only [tags_statement h]
      exact ⟨rfl, h.rest⟩
    | stencil =>
      obtain ⟨inside, follows⟩ := interior_statement h Keyword.stencil.word
      simp only [inside]
      cases read : s.interior Keyword.stencil.word with
      | error f => exact ⟨rfl, h.rest⟩
      | ok r =>
        simp only [outcome, stencilEntries_region (follows r read)]
        exact ⟨rfl, h.rest⟩
    | _ => simp [Keyword.isClause] at clauseWord

end Motion
end ShaderText
