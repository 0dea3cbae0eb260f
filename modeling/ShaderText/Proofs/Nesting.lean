import ShaderText.Shader.Edit
import ShaderText.Proofs.Alignment
import ShaderText.Proofs.RoundTrip

/-! Texts at a depth. A block that stands some levels deep is the text that is written of it alone, moved that many
levels to the right; the spaces go in front of the lines that are not empty. Main statement: a tree without line feeds
in its texts is written so on every page, at the depth of the page, and the page is left at that depth; so the text of
a tree is made of the texts of its children, one level deeper.
-/
namespace ShaderText

/-- A text with every line that is not empty moved some levels to the right. -/
def deepen (levels : Nat) (text : String) : String :=
  String.ofList (joinLines ((splitLines text.toList).map (indentLine (4 * levels))))

example : deepen 1 "Pass\n\n    Ref 1\n" = "    Pass\n\n        Ref 1\n" := by decide +kernel

/-- Whether a step of writing puts a text at the end of the page, moved to the depth of the page, and leaves the page
at that depth. -/
def Appends (step : Page → Page) (text : String) : Prop :=
  ∀ page, step page = ⟨page.text ++ deepen page.depth text, page.depth⟩

def AreSingle (rows : List Row) : Prop := ∀ row ∈ rows, '\n' ∉ row.content

theorem AreSingle.append {first second : List Row} (h : AreSingle first) (h' : AreSingle second) :
    AreSingle (first ++ second) := fun row member => (List.mem_append.mp member).elim (h row) (h' row)

theorem AreSingle.flatMap {α : Type} {items : List α} {rows : α → List Row}
    (h : ∀ item ∈ items, AreSingle (rows item)) : AreSingle (items.flatMap rows) := by
  intro row member
  obtain ⟨item, held, inside⟩ := List.mem_flatMap.mp member
  exact h item held row inside

theorem AreSingle.map_shift {rows : List Row} (h : AreSingle rows) (levels : Nat) :
    AreSingle (rows.map (Row.shift levels)) := by
  intro row member
  obtain ⟨before, held, rfl⟩ := List.mem_map.mp member
  exact h before held

theorem areSingle_ofString (lines : List String) (h : ∀ line ∈ lines, '\n' ∉ line.toList) :
    AreSingle (lines.map Row.ofString) := by
  intro row member
  obtain ⟨line, held, rfl⟩ := List.mem_map.mp member
  exact h line held

theorem AreSingle.nest {word : String} {rows : List Row} (single : '\n' ∉ word.toList) (h : AreSingle rows) :
    AreSingle (nest word rows) := by
  have opening : AreSingle [Row.ofString word, ⟨0, ['{']⟩] := by
    intro row member
    rcases List.mem_pair.mp member with rfl | rfl
    · exact single
    · decide
  have closing : AreSingle [⟨0, ['}']⟩] := by
    intro row member
    rw [List.mem_singleton.mp member]
    decide
  exact (opening.append (h.map_shift 1)).append closing

theorem Row.text_eq_indentLine (row : Row) : row.text 4 = indentLine (4 * row.depth) row.content ++ ['\n'] := rfl

theorem indentLine_indentLine (n m : Nat) (line : List Char) :
    indentLine n (indentLine m line) = indentLine (n + m) line := by
  cases line with
  | nil => rfl
  | cons c line =>
    have filled : (List.replicate m ' ' ++ c :: line).isEmpty = false := by simp
    rw [indentLine, indentLine, indentLine]
    simp only [List.isEmpty_cons, Bool.false_eq_true, if_false, filled]
    rw [← List.append_assoc, List.replicate_append_replicate]

theorem joinLines_indented_cons (n : Nat) {line : List Char} (single : '\n' ∉ line) (cs : List Char) :
    joinLines ((splitLines (line ++ '\n' :: cs)).map (indentLine n)) =
      indentLine n line ++ '\n' :: joinLines ((splitLines cs).map (indentLine n)) := by
  have some : (splitLines cs).map (indentLine n) ≠ [] := by simpa using splitLines_ne_nil cs
  rw [splitLines_cons_break single, List.map_cons, joinLines]
  exact some

theorem deepen_rows (levels : Nat) {rows : List Row} (single : AreSingle rows) :
    deepen levels (String.ofList (rowsText 4 rows)) = String.ofList (rowsText 4 (rows.map (Row.shift levels))) := by
  rw [deepen, String.toList_ofList]
  congr 1
  induction rows with
  | nil =>
    have none : splitLines [] = [[]] := splitLines_of_not_mem List.not_mem_nil
    rw [rowsText, List.flatMap_nil, none]
    rfl
  | cons row rows ih =>
    have later := ih fun other member => single other (List.mem_cons_of_mem _ member)
    have front := not_mem_indentLine (single row List.mem_cons_self) (4 * row.depth)
    have deeper : 4 * levels + 4 * row.depth = 4 * (row.depth + levels) := by omega
    rw [rowsText_cons, Row.text_eq_indentLine, List.append_assoc, List.singleton_append,
      joinLines_indented_cons _ front, later, indentLine_indentLine, deeper, List.map_cons, rowsText_cons,
      Row.text_eq_indentLine, List.append_assoc]
    rfl

/-- A step that writes rows writes on a page what it writes on the blank page, at the depth of the page. -/
theorem Writes.appends {step : Page → Page} {rows : List Row} (h : Writes step rows) (single : AreSingle rows) :
    Appends step (step .blank).text := by
  intro page
  have alone : (step .blank).text = String.ofList (rowsText 4 rows) := by
    rw [← String.toList_inj, String.toList_ofList, (h .blank).2, show Page.blank.depth = 0 from rfl, map_shift_zero]
    rfl
  obtain ⟨depth, text⟩ := h page
  have whole : (step page).text = page.text ++ deepen page.depth (step .blank).text := by
    rw [alone, deepen_rows page.depth single, ← String.toList_inj, text, String.toList_append, String.toList_ofList]
  rw [← whole, ← depth]

/-- The texts that a block holds: the keys of its tags, its values and the lines of its program. -/
def Block.texts (b : Block) : List String := b.tags.keys ++ b.values ++ b.lines

def Pass.texts (p : Pass) : List String := p.name.toList ++ p.toBlock.texts

def SubShader.texts (s : SubShader) : List String := s.toBlock.texts ++ s.passes.flatMap Pass.texts

def Shader.texts (s : Shader) : List String := s.name :: s.toBlock.texts ++ s.subShaders.flatMap SubShader.texts

def IsUnbroken (texts : List String) : Prop := ∀ text ∈ texts, '\n' ∉ text.toList

instance (texts : List String) : Decidable (IsUnbroken texts) := inferInstanceAs (Decidable (∀ text ∈ texts, _))

theorem isUnbroken_append {first second : List String} :
    IsUnbroken (first ++ second) ↔ IsUnbroken first ∧ IsUnbroken second := List.forall_mem_append

theorem isUnbroken_flatMap {α : Type} {items : List α} {texts : α → List String} :
    IsUnbroken (items.flatMap texts) ↔ ∀ item ∈ items, IsUnbroken (texts item) := by
  simp only [IsUnbroken, List.mem_flatMap]
  exact ⟨fun h item held text inside => h text ⟨item, held, inside⟩,
    fun h text ⟨item, held, inside⟩ => h item held text inside⟩

theorem Shader.isUnbroken_texts {s : Shader} (h : IsUnbroken s.texts) :
    '\n' ∉ s.name.toList ∧ IsUnbroken s.toBlock.texts ∧ ∀ sub ∈ s.subShaders, IsUnbroken sub.texts := by
  obtain ⟨own, subs⟩ := isUnbroken_append.mp h
  obtain ⟨name, block⟩ := List.forall_mem_cons.mp own
  exact ⟨name, block, isUnbroken_flatMap.mp subs⟩

theorem not_mem_pairsText {pairs : List (String × String)} (keys : IsUnbroken (pairs.map Prod.fst))
    (values : IsUnbroken (pairs.map Prod.snd)) : '\n' ∉ pairsText pairs := by
  intro member
  obtain ⟨⟨key, value⟩, held, inside⟩ := List.mem_flatMap.mp member
  have single : '\n' ∉ key.toList := keys key (List.mem_map_of_mem held)
  have single' : '\n' ∉ value.toList := values value (List.mem_map_of_mem held)
  simp [single, single'] at inside

theorem areSingle_tags {t : Tags} (keys : IsUnbroken t.keys) (values : IsUnbroken (t.toList.map Prod.snd)) :
    AreSingle t.rows := by
  unfold Tags.rows
  split
  · exact fun row member => absurd member List.not_mem_nil
  · refine areSingle_ofString [t.line] fun line member => ?_
    have word : '\n' ∉ Keyword.tags.word.toList := by decide
    rw [List.mem_singleton.mp member, Tags.toList_line]
    simp [word, not_mem_pairsText keys values]

theorem areSingle_settings {κ : Type} [WordFamily κ] (plain : ∀ k : κ, '\n' ∉ (WordFamily.word k).toList)
    {s : Settings κ} (h : IsUnbroken (s.entries.map Prod.snd)) : AreSingle s.rows := by
  refine areSingle_ofString _ fun line member => ?_
  obtain ⟨⟨key, value⟩, held, rfl⟩ := List.mem_map.mp member
  have single : '\n' ∉ value.toList := h value (List.mem_map_of_mem held)
  simp [plain key, single]

theorem areSingle_stencil {s : Settings StencilField} (h : IsUnbroken (s.entries.map Prod.snd)) :
    AreSingle (stencilRows s) := by
  unfold stencilRows
  split
  · exact fun row member => absurd member List.not_mem_nil
  · exact (areSingle_settings (fun k => by cases k <;> decide) h).nest (by decide)

theorem areSingle_program (sentinel : Sentinel) {program : Option (List String)} (h : IsUnbroken (program.getD [])) :
    AreSingle (programRows sentinel program) := by
  cases program with
  | none => exact fun row member => absurd member List.not_mem_nil
  | some lines =>
    have words : '\n' ∉ sentinel.word.toList ∧ '\n' ∉ sentinel.closing.toList := by cases sentinel <;> decide
    have whole := areSingle_ofString (sentinel.word :: lines ++ [sentinel.closing]) fun line member => by
      rcases List.mem_append.mp member with front | last
      · rcases List.mem_cons.mp front with rfl | held
        · exact words.1
        · exact h line held
      · exact List.mem_singleton.mp last ▸ words.2
    simpa [programRows] using whole

theorem Block.areSingle_rows {b : Block} (h : IsUnbroken b.texts) (sentinel : Sentinel) :
    AreSingle (b.rows sentinel) := by
  simp only [Block.texts, Block.values, isUnbroken_append] at h
  obtain ⟨⟨keys, ⟨states, stencil⟩, values⟩, lines⟩ := h
  exact (((areSingle_tags keys values).append (areSingle_settings (fun k => by cases k <;> decide) states)).append
    (areSingle_stencil stencil)).append (areSingle_program sentinel lines)

theorem not_mem_word_inQuotes {word name : String} (plain : '\n' ∉ word.toList) (single : '\n' ∉ name.toList) :
    '\n' ∉ (word ++ " " ++ inQuotes name).toList := by
  simp [inQuotes, plain, single]

theorem Pass.areSingle_rows {p : Pass} (h : IsUnbroken p.texts) : AreSingle p.rows := by
  obtain ⟨name, block⟩ := isUnbroken_append.mp h
  have named : AreSingle (nameRows p.name) := by
    cases held : p.name with
    | none => exact fun row member => absurd member List.not_mem_nil
    | some text =>
      rw [held] at name
      have single : '\n' ∉ text.toList := name text (by simp)
      refine areSingle_ofString [Keyword.name.word ++ " " ++ inQuotes text] fun line member => ?_
      exact List.mem_singleton.mp member ▸ not_mem_word_inQuotes (by decide) single
  exact (named.append (p.toBlock.areSingle_rows block Pass.sentinel)).nest (by decide)

theorem SubShader.areSingle_rows {s : SubShader} (h : IsUnbroken s.texts) : AreSingle s.rows := by
  obtain ⟨block, passes⟩ := isUnbroken_append.mp h
  have children := AreSingle.flatMap fun p member => Pass.areSingle_rows (isUnbroken_flatMap.mp passes p member)
  exact ((s.toBlock.areSingle_rows block Shader.sentinel).append children).nest (by decide)

theorem Shader.areSingle_rows {s : Shader} (h : IsUnbroken s.texts) : AreSingle s.rows := by
  obtain ⟨name, block, subs⟩ := Shader.isUnbroken_texts h
  have children := AreSingle.flatMap fun sub member => SubShader.areSingle_rows (subs sub member)
  exact ((s.toBlock.areSingle_rows block Shader.sentinel).append children).nest
    (not_mem_word_inQuotes (by decide) name)

/-- What is written of a block without its children. -/
def Block.content (b : Block) (sentinel : Sentinel) : String := (b.write sentinel .blank).text

theorem Block.appends {b : Block} (h : IsUnbroken b.texts) (sentinel : Sentinel) :
    Appends (b.write sentinel) (b.content sentinel) := (b.writes sentinel).appends (b.areSingle_rows h sentinel)

theorem Pass.appends {p : Pass} (h : IsUnbroken p.texts) : Appends p.write p.render :=
  p.writes.appends (Pass.areSingle_rows h)

theorem SubShader.appends {s : SubShader} (h : IsUnbroken s.texts) : Appends s.write s.render :=
  s.writes.appends (SubShader.areSingle_rows h)

theorem Shader.appends {s : Shader} (h : IsUnbroken s.texts) : Appends (s.write true) s.render :=
  s.writes.appends (Shader.areSingle_rows h)

theorem foldl_appends {α : Type} {step : α → Page → Page} {text : α → String} {items : List α}
    (h : ∀ item ∈ items, Appends (step item) (text item)) (page : Page) :
    items.foldl (fun page item => step item page) page =
      ⟨page.text ++ String.join (items.map fun item => deepen page.depth (text item)), page.depth⟩ := by
  induction items generalizing page with
  | nil => simp
  | cons item items ih =>
    rw [List.foldl_cons, h item List.mem_cons_self, ih fun other member => h other (List.mem_cons_of_mem _ member)]
    simp [String.append_assoc]

theorem openBlock_blank {word : String} (some : word ≠ "") :
    Page.blank.openBlock word = ⟨word ++ "\n\x7b\n", 1⟩ := by
  have filled : word.isEmpty = false := by simpa using some
  simp [Page.openBlock, Page.line, Page.indent, Page.blank, Page.margin, filled, String.append_assoc]

theorem text_closeBlock (text : String) : (Page.closeBlock ⟨text, 1⟩).text = text ++ "\x7d\n" := by
  simp [Page.closeBlock, Page.line, Page.outdent, Page.margin, String.append_assoc]

theorem text_block_of_appends {α : Type} {own : Page → Page} {content word : String} {step : α → Page → Page}
    {text : α → String} {items : List α} (some : word ≠ "") (h : Appends own content)
    (h' : ∀ item ∈ items, Appends (step item) (text item)) :
    (items.foldl (fun page item => step item page) (own (Page.blank.openBlock word))).closeBlock.text =
      word ++ "\n\x7b\n" ++ deepen 1 content ++ String.join (items.map fun item => deepen 1 (text item)) ++
        "\x7d\n" := by
  rw [openBlock_blank some, h, foldl_appends h', text_closeBlock]

theorem SubShader.render_eq {s : SubShader} (h : IsUnbroken s.texts) :
    s.render = "SubShader\n\x7b\n" ++ deepen 1 (s.toBlock.content Shader.sentinel) ++
      String.join (s.passes.map fun p => deepen 1 p.render) ++ "\x7d\n" := by
  obtain ⟨block, passes⟩ := isUnbroken_append.mp h
  have some : Keyword.subShader.word ≠ "" := by decide
  exact text_block_of_appends some (Block.appends block Shader.sentinel) fun p member =>
    Pass.appends (isUnbroken_flatMap.mp passes p member)

theorem Shader.render_eq {s : Shader} (h : IsUnbroken s.texts) :
    s.render = "Shader \"" ++ s.name ++ "\"\n\x7b\n" ++ deepen 1 (s.toBlock.content Shader.sentinel) ++
      String.join (s.subShaders.map fun sub => deepen 1 sub.render) ++ "\x7d\n" := by
  obtain ⟨name, block, subs⟩ := Shader.isUnbroken_texts h
  have some : Keyword.shader.word ++ " " ++ inQuotes s.name ≠ "" := by
    simp [Keyword.word, WordFamily.word]
  have whole := text_block_of_appends some (Block.appends block Shader.sentinel)
    fun sub member => SubShader.appends (subs sub member)
  have header : Keyword.shader.word ++ " " ++ inQuotes s.name ++ "\n\x7b\n" =
      "Shader \"" ++ s.name ++ "\"\n\x7b\n" := by
    rw [← String.toList_inj]
    simp [Keyword.word, WordFamily.word, inQuotes]
  rw [← header]
  exact whole

/-- Trees without line feeds in their texts are written alike at every depth: a page gets, at its own depth, the text
that is written of the tree alone, and stays at that depth. So the text of a sub-shader or of a shader is its opening,
what its own block holds and the texts of its children in order, both one level deeper, and the closing brace. -/
theorem write_at_depth :
    (∀ p : Pass, IsUnbroken p.texts →
      ∀ page, p.write page = ⟨page.text ++ deepen page.depth p.render, page.depth⟩) ∧
    (∀ s : SubShader, IsUnbroken s.texts →
      (∀ page, s.write page = ⟨page.text ++ deepen page.depth s.render, page.depth⟩) ∧
      s.render = "SubShader\n\x7b\n" ++ deepen 1 (s.toBlock.content Shader.sentinel) ++
        String.join (s.passes.map fun p => deepen 1 p.render) ++ "\x7d\n") ∧
    (∀ s : Shader, IsUnbroken s.texts →
      (∀ page, s.write true page = ⟨page.text ++ deepen page.depth s.render, page.depth⟩) ∧
      s.render = "Shader \"" ++ s.name ++ "\"\n\x7b\n" ++ deepen 1 (s.toBlock.content Shader.sentinel) ++
        String.join (s.subShaders.map fun sub => deepen 1 sub.render) ++ "\x7d\n") := by
  refine ⟨fun p single => Pass.appends single, ?_, ?_⟩
  · intro s single
    exact ⟨SubShader.appends single, SubShader.render_eq single⟩
  · intro s single
    exact ⟨Shader.appends single, Shader.render_eq single⟩

theorem write_at_depth_litShader :
    let page : Page := ⟨"// Lit\n", 2⟩
    IsUnbroken litShader.texts ∧
      litShader.write true page = ⟨"// Lit\n" ++ deepen 2 litShader.render, 2⟩ ∧
      ∀ sub ∈ litShader.subShaders, IsUnbroken sub.texts ∧
        sub.write page = ⟨"// Lit\n" ++ deepen 2 sub.render, 2⟩ ∧
        ∀ p ∈ sub.passes, IsUnbroken p.texts ∧ p.write page = ⟨"// Lit\n" ++ deepen 2 p.render, 2⟩ := by
  obtain ⟨passes, subs, shaders⟩ := write_at_depth
  have whole : IsUnbroken litShader.texts := by decide +kernel
  have inner : ∀ sub ∈ litShader.subShaders, IsUnbroken sub.texts ∧ ∀ p ∈ sub.passes, IsUnbroken p.texts := by
    decide +kernel
  refine ⟨whole, (shaders litShader whole).1 _, fun sub member => ?_⟩
  obtain ⟨single, children⟩ := inner sub member
  exact ⟨single, (subs sub single).1 _, fun p held => ⟨children p held, passes p (children p held) _⟩⟩

end ShaderText
