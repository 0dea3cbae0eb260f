import ShaderText.Proofs.Exact
import ShaderText.Proofs.RoundTrip

/-! A program inside blocks. The readers of the blocks count the braces of a program before anyone looks
for the line that ends it, so a program is opaque only as far as its braces allow. Main statement: a
document around the lines of one program is read as those lines exactly when the braces around them
close each other.
-/
namespace ShaderText

def programBody (lines : List String) : List Char := '\n' :: linesText (lines.map String.toList)

/-- The lines of a document that holds one program, in a pass. -/
def programDocument (lines : List String) : String :=
  let before := ["Shader \"T\"", "\x7b", "SubShader", "\x7b", "Pass", "\x7b", "HLSLPROGRAM"]
  let after := ["ENDHLSL", "\x7d", "\x7d", "\x7d"]
  String.ofList (joinLines ((before ++ lines ++ after).map String.toList))

def programPass (lines : List String) : Pass := { Block.empty with name := none, program := some lines }

def programSubShader (lines : List String) : SubShader :=
  { Block.empty with passes := [programPass lines] }

def programShader (lines : List String) : Shader :=
  { Block.empty with name := "T", subShaders := [programSubShader lines] }

theorem rowsText_zero (rows : List Row) : rowsText 0 rows = linesText (rows.map Row.content) := by
  rw [rowsText, linesText, List.flatMap_map]
  refine List.flatMap_congr fun row _ => ?_
  by_cases empty : row.content = []
  · simp [Row.text, empty]
  · rw [Row.text_of_ne_nil empty]
    simp

theorem innerRows_programPass (lines : List String) :
    (programPass lines).innerRows = programRows Pass.sentinel (some lines) := rfl

theorem innerRows_programSubShader (lines : List String) :
    (programSubShader lines).innerRows = nest Keyword.pass.word (programPass lines).innerRows := by
  have none : Block.empty.rows Shader.sentinel = [] := rfl
  have single : (programSubShader lines).passes.flatMap Pass.rows = (programPass lines).rows :=
    List.append_nil _
  rw [SubShader.innerRows, single]
  exact congrArg (· ++ (programPass lines).rows) none

theorem innerRows_programShader (lines : List String) :
    (programShader lines).innerRows = nest Keyword.subShader.word (programSubShader lines).innerRows := by
  have none : Block.empty.rows Shader.sentinel = [] := rfl
  have single : (programShader lines).subShaders.flatMap SubShader.rows = (programSubShader lines).rows :=
    List.append_nil _
  rw [Shader.innerRows, single]
  exact congrArg (· ++ (programSubShader lines).rows) none

theorem toList_programDocument (lines : List String) :
    (programDocument lines).toList = documentText 0 (programShader lines) [] := by
  have ended : (programDocument lines).toList ++ ['\n'] =
      documentText 0 (programShader lines) ['\n'] := by
    have contents : (programShader lines).rows.map Row.content =
        (["Shader \"T\"", "\x7b", "SubShader", "\x7b", "Pass", "\x7b", "HLSLPROGRAM"] ++ lines ++
          ["ENDHLSL", "\x7d", "\x7d", "\x7d"]).map String.toList := by
      rw [Shader.rows, innerRows_programShader, innerRows_programSubShader, innerRows_programPass]
      simp only [nest, Row.ofString, programRows, Row.shift, programShader, List.map_append,
        List.map_cons, List.map_map, Function.comp_def, List.map_nil, List.cons_append,
        List.append_assoc, List.nil_append]
      rfl
    rw [← Shader.rowsText_rows, rowsText_zero, contents, programDocument, String.toList_ofList,
      linesText_eq_joinLines (by simp)]
  have split : documentText 0 (programShader lines) ['\n'] =
      documentText 0 (programShader lines) [] ++ ['\n'] := by
    simp [documentText]
  rw [split] at ended
  exact List.append_cancel_right ended

theorem programLines_programBody {lines : List String} (h : ∀ line ∈ lines, '\n' ∉ line.toList) :
    programLines (programBody lines) = realign lines := by
  refine programLines_linesText fun line member => ?_
  obtain ⟨raw, inLines, rfl⟩ := List.mem_map.mp member
  exact h raw inLines

theorem isIntact_programShader_iff {lines : List String} (plain : ∀ line ∈ lines, isProgramLine line) :
    (programShader lines).IsIntact ↔ Closes (programBody lines) := by
  have empty : Block.empty.IsIntact := by decide
  have inner : Closes (flushText (programPass lines).innerRows) ↔ Closes (programBody lines) := by
    rw [innerRows_programPass]
    exact closes_programRows Pass.sentinel lines
  constructor
  · intro intact
    have sub := intact.subShaders (programSubShader lines) List.mem_cons_self
    exact inner.mp (sub.passes (programPass lines) List.mem_cons_self).closes
  · intro closes
    have pass : (programPass lines).IsIntact := by
      refine ⟨by simp [programPass], ?_, inner.mpr closes⟩
      refine ⟨empty.tags, empty.states, empty.stencil, empty.stencilCloses, fun kept member => ?_⟩
      obtain rfl := Option.some.inj member
      exact plain
    have sub : (programSubShader lines).IsIntact := by
      refine ⟨empty, by simpa [programSubShader] using pass, ?_⟩
      rw [innerRows_programSubShader]
      exact closes_flushText (isNeutral_rowsText_nest (by decide) (by decide) pass.closes)
    have name : IsStringBody "T" := by decide
    refine ⟨name, empty, by simpa [programShader] using sub, ?_⟩
    rw [innerRows_programShader]
    exact closes_flushText (isNeutral_rowsText_nest (by decide) (by decide) sub.closes)

theorem Settings.eq_empty_of_owed {κ : Type} [WordFamily κ]
    (heavy : ∀ k : κ, 0 < weight (WordFamily.word k).toList)
    {s : Settings κ} (h : s.owed .empty = 0) : s = .empty := by
  ext1
  funext k
  cases held : s.get? k with
  | none => rfl
  | some value =>
    have listed : weight (WordFamily.word k).toList + weight value.toList ≤ s.owed .empty := by
      refine List.le_sum_of_mem (List.mem_map.mpr ⟨k, WordFamily.mem_all k, ?_⟩)
      simp [held, empty]
    have positive := heavy k
    omega

theorem Tags.eq_empty_of_owed {t : Tags} (h : t.owedEntries .empty = 0) : t = .empty := by
  refine Tags.eq_of_toList (List.eq_nil_iff_forall_not_mem.mpr fun pair member => ?_)
  have listed : weight pair.1.toList + weight pair.2.toList + 1 ≤ t.owedEntries .empty := by
    refine List.le_sum_of_mem (List.mem_map.mpr ⟨pair, member, ?_⟩)
    simp [owedEntry]
  omega

theorem Block.eq_of_owed_le {b : Block} (h : b.owed .empty ≤ owedProgram b.program none) :
    b = ⟨.empty, .empty, .empty, b.program⟩ := by
  have split : b.owed .empty = owedWord .tags b.tags.isEmpty true + b.tags.owedEntries .empty +
      b.states.owed .empty + (owedWord .stencil b.stencil.isEmpty true + b.stencil.owed .empty) +
        owedProgram b.program none := rfl
  have tags : b.tags = .empty := Tags.eq_empty_of_owed (by omega)
  have states : b.states = .empty := Settings.eq_empty_of_owed weight_renderState_pos (by omega)
  have stencil : b.stencil = .empty := Settings.eq_empty_of_owed weight_stencilField_pos (by omega)
  rw [← tags, ← states, ← stencil]

theorem Block.eq_empty_of_owed {b : Block} (h : b.owed .empty = 0) : b = .empty := by
  have most : owedProgram b.program none ≤ b.owed .empty := Nat.le_add_left _ _
  have unfilled : b.program = none := by
    cases program : b.program with
    | none => rfl
    | some lines =>
      have filled : owedProgram (some lines) none =
          weight (linesText (lines.map String.toList)) + 3 := rfl
      rw [program] at most
      omega
  rw [eq_of_owed_le (b := b) (by omega), unfilled]
  rfl

theorem eq_none_of_owedName {name : Option String} (h : owedName name none = 0) : name = none := by
  cases name with
  | none => rfl
  | some name =>
    have positive := weight_word_pos .name
    have word : owedName (some name) none = weight Keyword.name.word.toList + weight name.toList := rfl
    omega

theorem Shader.eq_programShader {s : Shader} {sub : SubShader} {p : Pass} {lines : List String}
    (name : s.name = "T")
    (subShaders : s.subShaders = [sub]) (passes : sub.passes = [p]) (program : p.program = some lines)
    (light : s.owed (.named "T") ≤ (programShader lines).owed (.named "T")) :
      s = programShader lines := by
  have cost : s.owed (.named "T") = s.toBlock.owed .empty + (weight Keyword.subShader.word.toList +
      (sub.toBlock.owed .empty + (weight Keyword.pass.word.toList +
        (owedName p.name none + p.toBlock.owed .empty)))) := by
    simp [Shader.owed, subShaders, SubShader.cost, SubShader.owed, passes, Pass.cost, Pass.owed,
      Shader.named,       SubShader.empty, Pass.named]
  have cost' : (programShader lines).owed (.named "T") = weight Keyword.subShader.word.toList +
      (weight Keyword.pass.word.toList + owedProgram (some lines) none) := by
    have nothing : Block.empty.owed .empty = 0 := Block.owed_self .empty
    have program' : (programPass lines).toBlock.owed .empty = owedProgram (some lines) none :=
      Nat.zero_add _
    have unnamed : owedName (programPass lines).name none = 0 := rfl
    simp [Shader.owed, programShader, SubShader.cost, SubShader.owed, programSubShader, Pass.cost,
      Pass.owed,       Shader.named, SubShader.empty, Pass.named, nothing, program', unnamed]
  have most : owedProgram p.program none ≤ p.toBlock.owed .empty := Nat.le_add_left _ _
  rw [program] at most
  have outer : s.toBlock = .empty := Block.eq_empty_of_owed (by omega)
  have middle : sub.toBlock = .empty := Block.eq_empty_of_owed (by omega)
  have inner : p.toBlock = ⟨.empty, .empty, .empty, p.program⟩ :=
    Block.eq_of_owed_le (by rw [program]; omega)
  have unnamed : p.name = none := eq_none_of_owedName (by omega)
  obtain ⟨pass, passName⟩ := p
  obtain ⟨block, children⟩ := sub
  obtain ⟨body, shaderName, grandchildren⟩ := s
  rw [program] at inner
  dsimp only at name subShaders passes outer middle inner unnamed
  rw [name, subShaders, passes, outer, middle, inner, unnamed]
  rfl

/-- The program of a document is read as its lines exactly when the braces around them close each other. -/
theorem parse_programDocument_iff (lines : List String) (plain : ∀ line ∈ lines, isProgramLine line) :
    (∃ s sub p, Shader.parse (programDocument lines) = .ok s ∧ s.subShaders = [sub] ∧ sub.passes = [p] ∧
      p.program = some (programLines (programBody lines))) ↔ Closes (programBody lines) := by
  have single : ∀ line ∈ lines, '\n' ∉ line.toList := fun line member =>
    (isProgramLine_iff.mp (plain line member)).1
  have unfilled : Block.empty.IsLined := by simp [Block.IsLined, Block.empty]
  have pass : (programPass lines).IsLined := fun kept member => Option.some.inj member ▸ single
  have sub : (programSubShader lines).IsLined := ⟨unfilled, by simpa [programSubShader] using pass⟩
  have lined : (programShader lines).IsLined := ⟨unfilled, by simpa [programShader] using sub⟩
  have realigned : (programShader lines).realigned = programShader (realign lines) := rfl
  have noBrace : '}' ∉ [] := List.not_mem_nil
  rw [programLines_programBody single, ← isIntact_programShader_iff plain,
    ← Shader.denotes_documentText_iff lined 0 noBrace, realigned, ← toList_programDocument]
  simp only [Shader.parse_iff_denotes]
  constructor
  · rintro ⟨s, sub, p, denotes, subShaders, passes, program⟩
    have name : IsStringBody "T" := by decide
    rw [toList_programDocument] at denotes
    obtain ⟨inside, cut, -, reads⟩ := Shader.exists_reads_of_denotes name noBrace denotes
    have light := cut.weight_le
    rw [weight_insideText, rowsWeight_shader _ "T", realigned] at light
    obtain ⟨⟨-, -, named⟩, owed⟩ := s.owed_le_of_reads reads ⟨List.prefix_refl _, List.prefix_refl _, rfl⟩
    rw [Shader.owed_self, Nat.zero_add] at owed
    obtain rfl := Shader.eq_programShader named.symm subShaders passes program (Nat.le_trans owed light)
    rwa [toList_programDocument]
  · intro denotes
    exact ⟨_, _, _, denotes, rfl, rfl, rfl⟩

theorem parse_programDocument_branch :
    (∀ line ∈ ["#if A", "if (\"\x7d\") \x7b // \x7b", "#endif", "\x7d"], isProgramLine line) ∧
      ∃ s sub p, Shader.parse
          (programDocument ["#if A", "if (\"\x7d\") \x7b // \x7b", "#endif", "\x7d"]) = .ok s ∧
        s.subShaders = [sub] ∧ sub.passes = [p] ∧
          p.program = some (programLines
            (programBody ["#if A", "if (\"\x7d\") \x7b // \x7b", "#endif", "\x7d"])) := by
  have plain : ∀ line ∈ ["#if A", "if (\"\x7d\") \x7b // \x7b", "#endif", "\x7d"],
      isProgramLine line := by decide
  exact ⟨plain, (parse_programDocument_iff _ plain).mpr (by decide)⟩

/-- One opening brace in each of two branches is one too many. -/
theorem parse_programDocument_fails :
    ¬ ∀ lines : List String, (∀ line ∈ lines, isProgramLine line) →
      ∃ s sub p, Shader.parse (programDocument lines) = .ok s ∧ s.subShaders = [sub] ∧ sub.passes = [p] ∧
        p.program = some (programLines (programBody lines)) := by
  intro always
  obtain ⟨s, sub, p, parsed, -⟩ :=
    always ["#if A", "if (a) \x7b", "#else", "if (b) \x7b", "#endif", "\x7d"] (by decide)
  have stops : (Shader.parse (programDocument
    ["#if A", "if (a) \x7b", "#else", "if (b) \x7b", "#endif", "\x7d"])).toOption = none := by
      decide +kernel
  rw [parsed] at stops
  simp [Except.toOption] at stops

end ShaderText
