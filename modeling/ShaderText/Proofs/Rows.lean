import ShaderText.Shader.Layout
import ShaderText.Proofs.Crossing

/-! The rows of a written shader. A row is a line and the depth it stands at; the text of rows has the
same number of spaces for each level of depth. Main statements: a shader is written as the text of its
rows, and the spaces in front of the rows do not matter to the reader of a block.
-/
namespace ShaderText

structure Row where
  depth : Nat
  content : List Char

namespace Row

def ofString (line : String) : Row := ⟨0, line.toList⟩

def shift (levels : Nat) (row : Row) : Row := ⟨row.depth + levels, row.content⟩

/-- A row with `unit` spaces for each level; an empty row has none. -/
def text (unit : Nat) (row : Row) : List Char :=
  (if row.content.isEmpty then [] else List.replicate (unit * row.depth) ' ' ++ row.content) ++ ['\n']

end Row

def rowsText (unit : Nat) (rows : List Row) : List Char := rows.flatMap (Row.text unit)

theorem rowsText_append (unit : Nat) (first second : List Row) :
    rowsText unit (first ++ second) = rowsText unit first ++ rowsText unit second :=
  List.flatMap_append

theorem rowsText_cons (unit : Nat) (row : Row) (rows : List Row) :
    rowsText unit (row :: rows) = row.text unit ++ rowsText unit rows :=
  List.flatMap_cons

def nest (word : String) (rows : List Row) : List Row :=
  .ofString word :: ⟨0, ['{']⟩ :: rows.map (Row.shift 1) ++ [⟨0, ['}']⟩]

def Tags.rows (t : Tags) : List Row := if t.isEmpty then [] else [.ofString t.line]

def Settings.rows {κ : Type} [WordFamily κ] (s : Settings κ) : List Row := s.lines.map .ofString

def stencilRows (s : Settings StencilField) : List Row :=
  if s.isEmpty then [] else nest Keyword.stencil.word s.rows

def programRows (sentinel : Sentinel) : Option (List String) → List Row
  | none => []
  | some lines => .ofString sentinel.word :: lines.map .ofString ++ [.ofString sentinel.closing]

def Block.rows (b : Block) (sentinel : Sentinel) : List Row :=
  b.tags.rows ++ b.states.rows ++ stencilRows b.stencil ++ programRows sentinel b.program

def nameRows : Option String → List Row
  | none => []
  | some name => [.ofString (Keyword.name.word ++ " " ++ inQuotes name)]

def Pass.innerRows (p : Pass) : List Row := nameRows p.name ++ p.toBlock.rows Pass.sentinel

def Pass.rows (p : Pass) : List Row := nest Keyword.pass.word p.innerRows

def SubShader.innerRows (s : SubShader) : List Row :=
  s.toBlock.rows Shader.sentinel ++ s.passes.flatMap Pass.rows

def SubShader.rows (s : SubShader) : List Row := nest Keyword.subShader.word s.innerRows

def Shader.innerRows (s : Shader) : List Row :=
  s.toBlock.rows Shader.sentinel ++ s.subShaders.flatMap SubShader.rows

def Shader.rows (s : Shader) : List Row :=
  nest (Keyword.shader.word ++ " " ++ inQuotes s.name) s.innerRows

/-- Whether a step of writing puts these rows at the end of the page, at its depth. -/
def Writes (step : Page → Page) (rows : List Row) : Prop :=
  ∀ p : Page, (step p).depth = p.depth ∧
    (step p).text.toList = p.text.toList ++ rowsText 4 (rows.map (Row.shift p.depth))

theorem writes_nothing : Writes (fun p => p) [] := fun p => ⟨rfl, by simp [rowsText]⟩

theorem writes_line (content : String) : Writes (fun p => p.line content) [.ofString content] := by
  intro p
  refine ⟨rfl, ?_⟩
  have empty : content.isEmpty = content.toList.isEmpty := by
    rw [Bool.eq_iff_iff]
    simp
  by_cases blank : content.toList.isEmpty <;>
    simp [Page.line, rowsText, Row.text, Row.ofString, Row.shift, Page.margin, empty, blank]

theorem Writes.andThen {first second : Page → Page} {rows more : List Row} (h : Writes first rows)
    (h' : Writes second more) : Writes (fun p => second (first p)) (rows ++ more) := by
  intro p
  obtain ⟨depth, text⟩ := h p
  obtain ⟨depth', text'⟩ := h' (first p)
  refine ⟨depth'.trans depth, ?_⟩
  rw [text', text, depth, List.map_append, rowsText_append, List.append_assoc]

theorem writes_foldl {α : Type} {step : α → Page → Page} {rows : α → List Row}
    (h : ∀ item, Writes (step item) (rows item)) (items : List α) :
    Writes (fun p => items.foldl (fun p item => step item p) p) (items.flatMap rows) := by
  induction items with
  | nil => exact writes_nothing
  | cons item items ih => exact (h item).andThen ih

theorem writes_lines (contents : List String) :
    Writes (fun p => p.lines contents) (contents.map .ofString) := by
  rw [List.map_eq_flatMap]
  exact writes_foldl writes_line contents

theorem Row.shift_shift (first second : Nat) (row : Row) :
    (row.shift first).shift second = row.shift (second + first) := by
  simp only [shift, Row.mk.injEq, and_true]
  omega

theorem map_shift_zero (rows : List Row) : rows.map (Row.shift 0) = rows := by
  conv => rhs; rw [← List.map_id rows]
  rfl

theorem Writes.block {step : Page → Page} {rows : List Row} (h : Writes step rows) (word : String) :
    Writes (fun p => (step (p.openBlock word)).closeBlock) (nest word rows) := by
  intro p
  have opened := (writes_line word).andThen (writes_line "\x7b") p
  obtain ⟨depth, text⟩ := h (p.openBlock word)
  have inner : (p.openBlock word).depth = p.depth + 1 := rfl
  have outer : ((step (p.openBlock word)).outdent).depth = p.depth := by
    rw [Page.outdent, depth, inner]
    rfl
  obtain ⟨closed, last⟩ := writes_line "\x7d" (step (p.openBlock word)).outdent
  refine ⟨closed.trans outer, ?_⟩
  have before : (p.openBlock word).text.toList = p.text.toList ++
      rowsText 4 ([Row.ofString word, ⟨0, ['{']⟩].map (Row.shift p.depth)) := opened.2
  have middle : (step (p.openBlock word)).outdent.text = (step (p.openBlock word)).text := rfl
  change ((step (p.openBlock word)).outdent.line "\x7d").text.toList = _
  rw [last, outer, middle, text, before, inner]
  have shifted : (nest word rows).map (Row.shift p.depth) =
      [Row.ofString word, ⟨0, ['{']⟩].map (Row.shift p.depth) ++
        (rows.map (Row.shift (p.depth + 1)) ++ [Row.ofString "\x7d"].map (Row.shift p.depth)) := by
    simp [nest, Row.shift_shift, Row.ofString]
  rw [shifted, rowsText_append, rowsText_append]
  simp only [List.append_assoc]

theorem Block.writes (b : Block) (sentinel : Sentinel) : Writes (b.write sentinel) (b.rows sentinel) := by
  have tags : Writes (fun p => if b.tags.isEmpty then p else p.line b.tags.line) b.tags.rows := by
    unfold Tags.rows
    by_cases empty : b.tags.isEmpty
    · simpa [empty] using writes_nothing
    · simpa [empty] using writes_line b.tags.line
  have stencil : Writes (fun p => if b.stencil.isEmpty then p
      else ((p.openBlock Keyword.stencil.word).lines b.stencil.lines).closeBlock)
          (stencilRows b.stencil) := by
    unfold stencilRows
    by_cases empty : b.stencil.isEmpty
    · simpa [empty] using writes_nothing
    · simpa [empty, Settings.rows] using (writes_lines b.stencil.lines).block Keyword.stencil.word
  have before := (tags.andThen (writes_lines b.states.lines)).andThen stencil
  unfold Block.write Block.rows
  cases b.program with
  | none => exact before.andThen writes_nothing
  | some lines =>
    exact before.andThen (((writes_line sentinel.word).andThen (writes_lines lines)).andThen
      (writes_line sentinel.closing))

theorem Pass.writes (p : Pass) : Writes p.write p.rows := by
  have name : Writes (fun page => match p.name with
      | none => page
      | some name => page.line (Keyword.name.word ++ " " ++ inQuotes name)) (nameRows p.name) := by
    cases p.name with
    | none => exact writes_nothing
    | some name => exact writes_line _
  exact (name.andThen (p.toBlock.writes Pass.sentinel)).block Keyword.pass.word

theorem SubShader.writes (s : SubShader) : Writes s.write s.rows :=
  ((s.toBlock.writes Shader.sentinel).andThen (writes_foldl Pass.writes s.passes)).block
    Keyword.subShader.word

theorem Shader.writes (s : Shader) : Writes (s.write true) s.rows :=
  ((s.toBlock.writes Shader.sentinel).andThen (writes_foldl SubShader.writes s.subShaders)).block
    (Keyword.shader.word ++ " " ++ inQuotes s.name)

theorem Shader.toList_render (s : Shader) : s.render.toList = rowsText 4 s.rows := by
  have written := (s.writes .blank).2
  rw [show Page.blank.depth = 0 from rfl, map_shift_zero] at written
  exact written

/-- The text between the braces of a block that stands at some depth. -/
def insideText (unit depth : Nat) (rows : List Row) : List Char :=
  '\n' :: rowsText unit (rows.map (Row.shift (depth + 1))) ++ List.replicate (unit * depth) ' '

theorem Row.text_of_ne_nil {unit : Nat} {row : Row} (h : row.content ≠ []) :
    row.text unit = List.replicate (unit * row.depth) ' ' ++ (row.content ++ ['\n']) := by
  have filled : row.content.isEmpty = false := by simpa using h
  simp [text, filled]

theorem rowsText_nest {word : String} (unit depth : Nat) (rows : List Row) (h : word.toList ≠ []) :
    rowsText unit ((nest word rows).map (Row.shift depth)) =
      List.replicate (unit * depth) ' ' ++ (word.toList ++ ('\n' ::
        (List.replicate (unit * depth) ' ' ++ ('{' ::
          (insideText unit depth rows ++ ['}', '\n']))))) := by
  have header : (Row.shift depth (.ofString word)).text unit =
      List.replicate (unit * depth) ' ' ++ (word.toList ++ ['\n']) := by
    rw [Row.text_of_ne_nil h]
    simp [Row.shift, Row.ofString]
  have inner : (rows.map (Row.shift 1)).map (Row.shift depth) = rows.map (Row.shift (depth + 1)) := by
    simp [Row.shift_shift]
  rw [nest, List.map_append, List.map_cons, List.map_cons, inner, rowsText_append, rowsText_cons,
    rowsText_cons, header]
  simp [rowsText, Row.text, Row.shift, insideText]

theorem across?_text {mode : Mode} (depth unit : Nat) (row : Row) (h : mode.startsLine) :
    across? depth mode (row.text unit) = across? depth mode (row.content ++ ['\n']) := by
  by_cases empty : row.content = []
  · simp [Row.text, empty]
  · rw [Row.text_of_ne_nil empty, across?_spaces _ _ h]

theorem across?_rowsText {mode : Mode} (depth unit levels : Nat) (rows : List Row) (h : mode.startsLine) :
    across? depth mode (rowsText unit (rows.map (Row.shift levels))) =
      across? depth mode (rowsText 0 rows) := by
  induction rows generalizing depth mode with
  | nil => rfl
  | cons row rows ih =>
    rw [List.map_cons, rowsText_cons, rowsText_cons, across?_append, across?_append, across?_text _ _ _ h,
      across?_text _ _ _ h]
    change (across? depth mode (row.content ++ ['\n'])).bind _ = _
    -- After a line break the reader may start a line again, inside a string or comment too.
    cases crossed : across? depth mode (row.content ++ ['\n']) with
    | none => rfl
    | some left => exact ih left.1 (startsLine_of_across?_break crossed)

theorem startsLine_of_across?_rowsText {mode : Mode} {depth unit : Nat} {rows : List Row}
    {left : Nat × Mode} (h : mode.startsLine)
    (crossed : across? depth mode (rowsText unit rows) = some left) :
    left.2.startsLine := by
  induction rows generalizing depth mode with
  | nil =>
    obtain rfl := Option.some.inj crossed
    exact h
  | cons row rows ih =>
    rw [rowsText_cons, across?_append, across?_text _ _ _ h] at crossed
    obtain ⟨middle, first, rest⟩ := Option.bind_eq_some_iff.mp crossed
    exact ih (startsLine_of_across?_break first) rest

theorem closes_insideText (unit depth : Nat) (rows : List Row) :
    Closes (insideText unit depth rows) ↔ Closes ('\n' :: rowsText 0 rows) := by
  have start (cs : List Char) : across? 1 .code ('\n' :: cs) = across? 1 .code cs := rfl
  have same : across? 1 .code (insideText unit depth rows) =
      across? 1 .code ('\n' :: rowsText 0 rows) := by
    rw [insideText, List.cons_append, start, start, across?_append, across?_rowsText _ _ _ _ rfl]
    cases crossed : across? 1 .code (rowsText 0 rows) with
    | none => rfl
    | some left =>
      have lineStart := startsLine_of_across?_rowsText rfl crossed
      have skipped := across?_spaces left.1 (unit * depth) lineStart []
      rw [List.append_nil] at skipped
      exact skipped
  rw [closes_iff, closes_iff, same]

end ShaderText
