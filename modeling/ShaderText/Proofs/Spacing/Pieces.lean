import ShaderText.Proofs.ReadBack

/-! The pieces of a written shader. In front of every piece stands a gap that says what may stand there
and how it is written. A program is one piece, from its sentinel to the word that ends it. Main
statement: the pieces of a shader with their gaps are its rendering.
-/
namespace ShaderText

inductive Scope
  | shader
  | subShader
  | pass
  | stencil
deriving Repr, DecidableEq

inductive Gap
  /-- In front of the header. -/
  | before
  /-- Between the header and the block of the shader. -/
  | header
  /-- In front of a statement. -/
  | statement (scope : Scope) (depth : Nat)
  /-- In front of the brace that ends a body. -/
  | closing (scope : Scope) (depth : Nat)
  /-- Between the braces of a tags block. -/
  | tag
  /-- Between a name and a value on the same line. -/
  | value
  /-- Between a name and a block on the next line. -/
  | brace (depth : Nat)
  /-- After the block of the shader. -/
  | after
deriving Repr, DecidableEq

def Gap.text : Gap → List Char
  | .before => []
  | .header | .after => ['\n']
  | .statement _ depth | .closing _ depth | .brace depth => '\n' :: List.replicate (4 * depth) ' '
  | .tag | .value => [' ']

structure Piece where
  gap : Gap
  text : List Char
deriving Repr, DecidableEq

def laid (pieces : List Piece) : List Char := pieces.flatMap fun t => t.gap.text ++ t.text

section

variable (scope : Scope) (depth : Nat)

def settingPieces {κ : Type} [WordFamily κ] (entries : List (κ × String)) : List Piece :=
  entries.flatMap fun (key, value) =>
    [⟨.statement scope depth, (WordFamily.word key).toList⟩, ⟨.value, value.toList⟩]

/-- A word, and a block around the pieces of a body. -/
def nestPieces (inner : Scope) (word : Keyword) (pieces : List Piece) : List Piece :=
  ⟨.statement scope depth, word.word.toList⟩ :: ⟨.brace depth, ['{']⟩ ::
    (pieces ++ [⟨.closing inner depth, ['}']⟩])

def pairPieces (pairs : List (String × String)) : List Piece :=
  pairs.flatMap fun (key, value) =>
    [⟨.tag, (inQuotes key).toList⟩, ⟨.tag, ['=']⟩, ⟨.tag, (inQuotes value).toList⟩]

def Tags.pieces (t : Tags) : List Piece :=
  if t.isEmpty then []
  else ⟨.statement scope depth, Keyword.tags.word.toList⟩ :: ⟨.value, ['{']⟩ ::
    (pairPieces t.toList ++ [⟨.tag, ['}']⟩])

def stencilPieces (s : Settings StencilField) : List Piece :=
  if s.isEmpty then []
  else nestPieces scope depth .stencil .stencil (settingPieces .stencil (depth + 1) s.entries)

/-- A program up to the word that ends it. -/
def enclosedProgram (sentinel : Sentinel) (lines : List String) : List Char :=
  sentinel.word.toList ++ '\n' :: (linesText ((lines.map String.toList).map (indentLine (4 * depth))) ++
    (List.replicate (4 * depth) ' ' ++ sentinel.closing.toList))

def programPieces (sentinel : Sentinel) : Option (List String) → List Piece
  | none => []
  | some lines => [⟨.statement scope depth, enclosedProgram depth sentinel lines⟩]

def Block.pieces (b : Block) (sentinel : Sentinel) : List Piece :=
  b.tags.pieces scope depth ++ settingPieces scope depth b.states.entries ++
    stencilPieces scope depth b.stencil ++ programPieces scope depth sentinel b.program

def namePieces : Option String → List Piece
  | none => []
  | some name =>
    [⟨.statement .pass depth, Keyword.name.word.toList⟩, ⟨.value, (inQuotes name).toList⟩]

def Pass.innerPieces (p : Pass) : List Piece :=
  namePieces depth p.name ++ p.toBlock.pieces .pass depth Pass.sentinel

def Pass.pieces (p : Pass) : List Piece :=
  nestPieces .subShader depth .pass .pass (p.innerPieces (depth + 1))

def SubShader.innerPieces (s : SubShader) : List Piece :=
  s.toBlock.pieces .subShader depth Shader.sentinel ++ s.passes.flatMap (Pass.pieces depth)

def SubShader.pieces (s : SubShader) : List Piece :=
  nestPieces .shader depth .subShader .subShader (s.innerPieces (depth + 1))

end

def Shader.innerPieces (s : Shader) : List Piece :=
  s.toBlock.pieces .shader 1 Shader.sentinel ++ s.subShaders.flatMap (SubShader.pieces 1)

def Shader.pieces (s : Shader) : List Piece :=
  ⟨.before, Keyword.shader.word.toList⟩ :: ⟨.value, (inQuotes s.name).toList⟩ :: ⟨.header, ['{']⟩ ::
    (s.innerPieces ++ [⟨.closing .shader 0, ['}']⟩, ⟨.after, []⟩])

theorem laid_append (first second : List Piece) : laid (first ++ second) = laid first ++ laid second :=
  List.flatMap_append

theorem laid_cons (t : Piece) (pieces : List Piece) :
    laid (t :: pieces) = t.gap.text ++ (t.text ++ laid pieces) := by
  simp [laid]

/-- Whether pieces are written as rows are. A row ends with its line, a piece begins with its gap. -/
def Lays (depth : Nat) (pieces : List Piece) (rows : List Row) : Prop :=
  laid pieces ++ ['\n'] = '\n' :: rowsText 4 (rows.map (Row.shift depth))

section

variable {depth : Nat} {pieces more : List Piece} {rows others : List Row}

theorem lays_nil : Lays depth [] [] := rfl

theorem Lays.append (h : Lays depth pieces rows) (h' : Lays depth more others) :
    Lays depth (pieces ++ more) (rows ++ others) := by
  unfold Lays at *
  rw [laid_append, List.append_assoc, h', List.map_append, rowsText_append,
    show laid pieces ++ '\n' :: rowsText 4 (others.map (Row.shift depth)) =
      (laid pieces ++ ['\n']) ++ rowsText 4 (others.map (Row.shift depth)) by simp, h, List.cons_append]

theorem lays_flatMap {α : Type} {items : List α} {pieces : α → List Piece} {rows : α → List Row}
    (h : ∀ item, Lays depth (pieces item) (rows item)) :
    Lays depth (items.flatMap pieces) (items.flatMap rows) := by
  induction items with
  | nil => exact lays_nil
  | cons item items ih => exact (h item).append ih

theorem lays_line {scope : Scope} {text content : List Char} (whole : text ++ laid more = content)
    (nonempty : content ≠ []) : Lays depth (⟨.statement scope depth, text⟩ :: more) [⟨0, content⟩] := by
  subst whole
  have row : (Row.shift depth ⟨0, text ++ laid more⟩).content ≠ [] := nonempty
  rw [Lays, laid_cons, List.map_singleton, rowsText_cons, Row.text_of_ne_nil row]
  simp [Gap.text, rowsText, Row.shift]

theorem Lays.insideText_eq (h : Lays (depth + 1) pieces rows) :
    insideText 4 depth rows = laid pieces ++ '\n' :: List.replicate (4 * depth) ' ' := by
  rw [insideText, ← h]
  simp

theorem Lays.nest {scope inner : Scope} {word : Keyword} (h : Lays (depth + 1) pieces rows) :
    Lays depth (nestPieces scope depth inner word pieces) (nest word.word rows) := by
  have filled : word.word.toList ≠ [] := fun empty => by
    have name := isName_keyword word
    rw [empty] at name
    simp [isName] at name
  rw [Lays, rowsText_nest _ _ _ filled, h.insideText_eq, nestPieces, laid_cons, laid_cons, laid_append,
    laid_cons]
  simp [Gap.text, laid]

theorem lays_settings {κ : Type} [WordFamily κ] (scope : Scope) (entries : List (κ × String)) :
    Lays depth (settingPieces scope depth entries) (settingRows entries) := by
  rw [settingRows, List.map_eq_flatMap]
  exact lays_flatMap fun entry => lays_line (by simp [laid, Gap.text]) (by simp)

theorem laid_pairPieces (pairs : List (String × String)) :
    laid (pairPieces pairs ++ [⟨.tag, ['}']⟩]) = ' ' :: (pairsText pairs ++ ['}']) := by
  induction pairs with
  | nil => rfl
  | cons pair pairs ih =>
    have first : pairPieces (pair :: pairs) ++ [⟨.tag, ['}']⟩] = ⟨.tag, (inQuotes pair.1).toList⟩ ::
        ⟨.tag, ['=']⟩ :: ⟨.tag, (inQuotes pair.2).toList⟩ :: (pairPieces pairs ++ [⟨.tag, ['}']⟩]) := rfl
    rw [first, laid_cons, laid_cons, laid_cons, ih]
    simp [Gap.text, inQuotes, pairsText]

theorem Tags.lays (scope : Scope) (t : Tags) : Lays depth (t.pieces scope depth) t.rows := by
  unfold Tags.pieces Tags.rows
  by_cases empty : t.isEmpty
  · rw [if_pos empty, if_pos empty]
    exact lays_nil
  · rw [if_neg empty, if_neg empty, Row.ofString, Tags.toList_line]
    refine lays_line ?_ (by simp)
    rw [laid_cons, laid_pairPieces]
    rfl

theorem lays_stencil (scope : Scope) (s : Settings StencilField) :
    Lays depth (stencilPieces scope depth s) (stencilRows s) := by
  unfold stencilPieces stencilRows
  by_cases empty : s.isEmpty
  · rw [if_pos empty, if_pos empty]
    exact lays_nil
  · rw [if_neg empty, if_neg empty, Settings.rows_eq]
    exact (lays_settings .stencil s.entries).nest

theorem lays_program (scope : Scope) (sentinel : Sentinel) (program : Option (List String)) :
    Lays depth (programPieces scope depth sentinel program) (programRows sentinel program) := by
  cases program with
  | none => exact lays_nil
  | some lines =>
    have text := rowsText_program 4 depth sentinel lines []
    rw [List.append_nil] at text
    rw [Lays, text]
    simp [programPieces, laid, Gap.text, enclosedProgram, writtenProgram]

theorem Block.lays (scope : Scope) (sentinel : Sentinel) (b : Block) :
    Lays depth (b.pieces scope depth sentinel) (b.rows sentinel) := by
  rw [Block.pieces, Block.rows, Settings.rows_eq]
  exact (((b.tags.lays scope).append (lays_settings scope b.states.entries)).append
    (lays_stencil scope b.stencil)).append (lays_program scope sentinel b.program)

theorem Pass.lays (p : Pass) : Lays depth (p.pieces depth) p.rows := by
  refine Lays.nest (Lays.append ?_ (p.toBlock.lays .pass Pass.sentinel))
  cases p.name with
  | none => exact lays_nil
  | some name => exact lays_line (by simp [laid, Gap.text]) (by simp)

theorem SubShader.lays (s : SubShader) : Lays depth (s.pieces depth) s.rows :=
  ((s.toBlock.lays .subShader Shader.sentinel).append (lays_flatMap Pass.lays)).nest

end

/-- The pieces of a shader with their gaps are its rendering. -/
theorem Shader.toList_render_eq_laid (s : Shader) : s.render.toList = laid s.pieces := by
  have inner : Lays 1 s.innerPieces s.innerRows :=
    (s.toBlock.lays .shader Shader.sentinel).append (lays_flatMap SubShader.lays)
  rw [toList_render, rowsText_rows, documentText, inner.insideText_eq, pieces, laid_cons, laid_cons,
    laid_cons, laid_append]
  simp [laid, Gap.text, inQuotes]

end ShaderText
