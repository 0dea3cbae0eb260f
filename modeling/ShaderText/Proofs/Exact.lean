import ShaderText.Proofs.Tight

/-! Exactly the intact trees are read back from their text. The text of a body, read as its body, leaves
nothing to spare, so its items are read where they were written; this holds for passes, then for
sub-shaders, then for shaders. Main statement: a tree is read back from its rendering if and only if it
is intact and realigned.
-/
namespace ShaderText

def Block.IsLined (b : Block) : Prop := ∀ lines ∈ b.program, ∀ line ∈ lines, '\n' ∉ line.toList

def Pass.IsLined (p : Pass) : Prop := p.toBlock.IsLined

def SubShader.IsLined (s : SubShader) : Prop := s.toBlock.IsLined ∧ ∀ p ∈ s.passes, p.IsLined

def Shader.IsLined (s : Shader) : Prop := s.toBlock.IsLined ∧ ∀ sub ∈ s.subShaders, sub.IsLined

/-- Whether the program is one that a program of lines could have left when it was read. -/
def Block.IsAligned (b : Block) : Prop := b.IsLined ∧ b.program.map realign = b.program

def SubShader.IsAligned (s : SubShader) : Prop :=
  s.toBlock.IsAligned ∧ ∀ p ∈ s.passes, p.toBlock.IsAligned

def Shader.IsAligned (s : Shader) : Prop := s.toBlock.IsAligned ∧ ∀ sub ∈ s.subShaders, sub.IsAligned

theorem isAligned_programLines (body : List Char) :
    (∀ line ∈ programLines body, '\n' ∉ line.toList) ∧
      realign (programLines body) = programLines body := by
  obtain ⟨lines, single, whole⟩ := exists_align_of_programLines body
  have same : String.toList ∘ String.ofList = id := by
    funext cs
    simp
  rw [whole]
  constructor
  · intro line member
    obtain ⟨cs, inLines, rfl⟩ := List.mem_map.mp member
    rw [String.toList_ofList]
    exact not_mem_align single cs inLines
  · rw [realign, List.map_map, same, List.map_id, align_align]

theorem Reads.preserves {σ : Type} {takes : σ → Phrase → σ → List Char → Prop} {P : σ → Prop}
    (step : ∀ held ph next rest, takes held ph next rest → P held → P next) {held last : σ}
    {cs : List Char}
    (h : Reads takes held cs last) (start : P held) : P last := by
  induction h with
  | done => exact start
  | step _ taken _ ih => exact ih (step _ _ _ _ taken start)

theorem Block.Takes.isAligned {held next : Block} {ph : Phrase} {rest : List Char}
    (h : held.Takes ph next rest)
    (aligned : held.IsAligned) : next.IsAligned := by
  cases h with
  | program =>
    obtain ⟨single, same⟩ := isAligned_programLines _
    exact ⟨fun lines member => Option.some.inj member ▸ single, congrArg some same⟩
  | _ => exact aligned

theorem isAligned_of_reads_pass {p : Pass} {cs : List Char} (h : Reads Pass.Takes (.named none) cs p) :
    p.toBlock.IsAligned := by
  refine Reads.preserves (P := fun p => p.toBlock.IsAligned) (fun held ph next rest taken aligned => ?_) h
    ⟨by simp [Block.IsLined, Pass.named, Block.empty], rfl⟩
  cases taken with
  | name => exact aligned
  | clause _ taken => exact taken.isAligned aligned

theorem isAligned_of_reads_subShader {s : SubShader} {cs : List Char}
    (h : Reads SubShader.Takes .empty cs s) :
    s.IsAligned := by
  refine Reads.preserves (P := SubShader.IsAligned) (fun held ph next rest taken aligned => ?_) h
    ⟨⟨by simp [Block.IsLined, SubShader.empty, Block.empty], rfl⟩, by simp [SubShader.empty]⟩
  cases taken with
  | pass _ _ _ reads =>
    refine ⟨aligned.1, fun p member => ?_⟩
    rcases List.mem_append.mp member with before | here
    · exact aligned.2 p before
    · obtain rfl := List.mem_singleton.mp here
      exact isAligned_of_reads_pass reads
  | droppedPass => exact aligned
  | clause _ taken => exact ⟨taken.isAligned aligned.1, aligned.2⟩

theorem isAligned_of_reads_shader {name : String} {s : Shader} {cs : List Char}
    (h : Reads Shader.Takes (.named name) cs s) : s.IsAligned := by
  refine Reads.preserves (P := Shader.IsAligned) (fun held ph next rest taken aligned => ?_) h
    ⟨⟨by simp [Block.IsLined, Shader.named, Block.empty], rfl⟩, by simp [Shader.named]⟩
  cases taken with
  | subShader _ _ _ reads =>
    refine ⟨aligned.1, fun sub member => ?_⟩
    rcases List.mem_append.mp member with before | here
    · exact aligned.2 sub before
    · obtain rfl := List.mem_singleton.mp here
      exact isAligned_of_reads_subShader reads
  | properties | droppedSubShader => exact aligned
  | clause _ taken => exact ⟨taken.isAligned aligned.1, aligned.2⟩

theorem Block.realigned_of_isAligned {b : Block} (h : b.IsAligned) : b.realigned = b := by
  rw [realigned, h.2]

theorem SubShader.realigned_of_isAligned {s : SubShader} (h : s.IsAligned) : s.realigned = s := by
  have passes : s.passes.map Pass.realigned = s.passes := by
    conv => rhs; rw [← List.map_id s.passes]
    refine List.map_congr_left fun p member => ?_
    rw [Pass.realigned, Block.realigned_of_isAligned (h.2 p member)]
    rfl
  rw [realigned, passes, Block.realigned_of_isAligned h.1]

theorem Shader.realigned_of_isAligned {s : Shader} (h : s.IsAligned) : s.realigned = s := by
  have subShaders : s.subShaders.map SubShader.realigned = s.subShaders := by
    conv => rhs; rw [← List.map_id s.subShaders]
    exact List.map_congr_left fun sub member => SubShader.realigned_of_isAligned (h.2 sub member)
  rw [realigned, subShaders, Block.realigned_of_isAligned h.1]

theorem Shader.IsAligned.isLined {s : Shader} (h : s.IsAligned) : s.IsLined :=
  ⟨h.1.1, fun sub member => ⟨(h.2 sub member).1.1, fun p inPasses => ((h.2 sub member).2 p inPasses).1⟩⟩

/-- A tree that is read from a document has no shared indentation left. -/
theorem Shader.isAligned_of_parse {document : String} {s : Shader} (h : parse document = .ok s) :
    s.IsAligned := by
  obtain ⟨header, inside, rest, -, -, -, -, reads⟩ := parse_iff_denotes.mp h
  exact isAligned_of_reads_shader reads

theorem IsNeutral.closes_append_iff {front cs : List Char} (h : IsNeutral front) :
    Closes (front ++ cs) ↔ Closes cs := by
  rw [closes_iff, closes_iff, across?_append, h]
  rfl

theorem isCut_of_eq {cs text rest tail : List Char} (h : text ++ '}' :: tail = cs ++ '}' :: rest)
    (noBrace : '}' ∉ tail) : IsCut cs text := by
  rcases List.append_eq_append_iff.mp h with ⟨more, rfl, whole⟩ | ⟨more, rfl, whole⟩
  · cases more with
    | nil => simpa using isCut_refl text
    | cons c more =>
      obtain ⟨-, rfl⟩ := List.cons.inj whole
      simp at noBrace
  · refine ⟨more, rfl, ?_⟩
    cases more with
    | nil => exact .inl rfl
    | cons c more => exact .inr ⟨more, by rw [(List.cons.inj whole).1]⟩

theorem IsCut.weight_le {cs text : List Char} (h : IsCut cs text) : weight cs ≤ weight text := by
  obtain ⟨missing, rfl, -⟩ := h
  rw [weight_append]
  omega

theorem name_tight {name : Option String} {last : Pass} (others : Nat)
    (bound : ∀ held cs, Reads Pass.Takes (.named held) cs last → owedName name held + others ≤ weight cs)
    {unit depth : Nat} {cs text : List Char}
    (cut : IsCut cs (rowsText unit ((nameRows name).map (Row.shift depth)) ++ text))
    (reads : Reads Pass.Takes (.named none) cs last) (tight : weight cs ≤ owedName name none + others) :
    (∀ text ∈ name, IsStringBody text) ∧
      ∃ cs', cs = rowsText unit ((nameRows name).map (Row.shift depth)) ++ cs' ∧ IsCut cs' text ∧
        Reads Pass.Takes (.named name) cs' last := by
  cases name with
  | none => exact ⟨by simp, cs, rfl, cut, reads⟩
  | some name =>
    have row (tail : List Char) : rowsText unit ((nameRows (some name)).map (Row.shift depth)) ++ tail =
        List.replicate (unit * depth) ' ' ++ (Keyword.name.word.toList ++ ' ' ::
          ('"' :: (name.toList ++ '"' :: '\n' :: tail))) := by
      rw [nameRows, List.map_singleton, rowsText_cons, List.append_assoc, Row.ofString,
        Row.text_shift_append (by simp [Keyword.word, WordFamily.word])]
      simp [rowsText, inQuotes]
    rw [row] at cut
    have word : sentinel? Keyword.name.word.toList = none := by rw [sentinel?, keyword?_name]
    have positive := weight_word_pos .name
    obtain ⟨after, next, rest, rfl, cut', taken, more, spent⟩ :=
      exists_takes_of_cut (isName_keyword .name) word isSpace_space (by decide) cut reads
    generalize phrase : Phrase.ofWord Keyword.name.word.toList after = ph at *
    have known : keyword? ph.name = some .name := by rw [← phrase]; exact keyword?_name
    have comment : ph.kind ≠ .comment := by rw [← phrase]; exact Phrase.kind_ofWord _ _
    cases taken with
    | clause other => exact absurd known (other.resolve_left comment)
    | name =>
      have later := bound (some ph.nameValue) ph.rest more
      by_cases right : ph.nameValue = name
      · rw [← phrase] at right
        obtain ⟨body, rest, rfl, cut''⟩ := Phrase.isStringBody_of_ofWord right cut'
        rw [phrase] at right
        refine ⟨fun text member => ?_, rest, by rw [row], cut'', ?_⟩
        · obtain rfl := Option.some.inj member
          exact body
        · rw [Phrase.ofWord_quoted body] at phrase
          rw [right, ← phrase, reads_break] at more
          exact more
      · have unpaid := owedName_le_of_ne none (show some name ≠ some ph.nameValue from fun equal =>
          right (Option.some.inj equal).symm)
        omega

theorem Pass.tight {p : Pass} (lined : p.IsLined) {unit depth : Nat} {inside : List Char}
    (cut : IsCut inside (insideText unit depth p.innerRows))
    (scan : ∀ more, insideText unit depth p.innerRows = inside ++ '}' :: '\n' :: more → Closes inside)
    (reads : Reads Pass.Takes (.named none) inside p.realigned) :
    inside = insideText unit depth p.innerRows ∧ (Closes (flushText p.innerRows) → p.IsIntact) := by
  have light := cut.weight_le
  have written : insideText unit depth p.innerRows =
      '\n' :: (rowsText unit ((nameRows p.name).map (Row.shift (depth + 1))) ++
        (rowsText unit ((p.toBlock.rows Pass.sentinel).map (Row.shift (depth + 1))) ++
          List.replicate (unit * depth) ' ')) := by
    rw [insideText, Pass.innerRows, List.map_append, rowsText_append]
    simp
  rw [weight_insideText, Pass.innerRows, rowsWeight_append, rowsWeight_name] at light
  rw [written] at cut
  obtain ⟨cs, rfl, cut₁⟩ := cut.of_cons (by decide)
  rw [weight_break] at light
  rw [reads_break] at reads
  have paid (held : Pass) (cs : List Char) (reads : Reads Pass.Takes held cs p.realigned) :
      p.realigned.toBlock.Leads held.toBlock ∧ p.realigned.owed held ≤ weight cs := by
    obtain ⟨leads, owed⟩ := p.realigned.owed_le_of_reads reads (List.prefix_refl _)
    rw [Pass.owed_self, Nat.zero_add] at owed
    exact ⟨leads, owed⟩
  obtain ⟨name, cs₂, rfl, cut₂, reads₂⟩ := name_tight (rowsWeight (p.toBlock.rows Pass.sentinel))
    (fun held cs reads => by
      rw [rowsWeight_block]
      exact (paid _ _ reads).2) cut₁ reads light
  rw [weight_append, weight_rowsText, rowsWeight_name] at light
  have neutral : IsNeutral ('\n' :: rowsText unit ((nameRows p.name).map (Row.shift (depth + 1)))) := by
    have flush : across? 1 .code _ = _ := across?_rowsText 1 unit (depth + 1) (nameRows p.name) rfl
    exact flush.trans (isNeutral_nameRows name)
  obtain ⟨block, cs₃, rfl, cut₃, -⟩ := block_tight (Pass.takesClauses p.name) Pass.sentinel rfl lined 0
    (fun b cs reads => by
      obtain ⟨leads, owed⟩ := paid _ _ reads
      refine ⟨leads, ?_⟩
      simpa [Pass.owed, Pass.realigned, owedName] using owed)
    (guarded_of_noBrace (by simp [List.mem_replicate])) cut₂
    (fun more short => neutral.closes_append_iff.mp
      (scan more (by rw [written, short]; simp))) reads₂ (by omega)
  obtain rfl := cut₃.of_spaces
  rw [written]
  exact ⟨rfl, fun closes => ⟨name, block, closes⟩⟩

theorem body_tight {σ γ : Type} {takes : σ → Phrase → σ → List Char → Prop} {last : σ} (word : Keyword)
    (free : sentinel? word.word.toList = none) (noBrace : '}' ∉ word.word.toList) (rows : γ → List Row)
    (final : γ → γ) (cost : γ → Nat) (intact : γ → Prop) (readsInside : List Char → γ → Prop)
    (fill : Block → List γ → σ) (clauses : TakesClauses takes fun b => fill b []) {b : Block}
    (lined : b.IsLined)
    (child : ∀ (b : Block) (done : List γ) (ph : Phrase) (next : σ) (rest : List Char),
      ph.kind ≠ .comment →
      keyword? ph.name = some word → takes (fill b done) ph next rest → rest = ph.rest ∧
        ((∃ inside item, ph.interior? = some inside ∧ readsInside inside item ∧
          next = fill b (done ++ [item])) ∨ next = fill b done))
    {items : List γ}
    (bound : ∀ b' done cs, Reads takes (fill b' done) cs last →
      b.realigned.Leads b' ∧ done <+: items.map final ∧
      b.realigned.owed b' + (((items.map final).drop done.length).map cost).sum ≤ weight cs)
    (priced : ∀ item, cost (final item) = weight word.word.toList + rowsWeight (rows item))
    {unit depth : Nat}
    (inner : ∀ item ∈ items, ∀ inside, IsCut inside (insideText unit (depth + 1) (rows item)) →
      (∀ more, insideText unit (depth + 1) (rows item) = inside ++ '}' :: '\n' :: more → Closes inside) →
      readsInside inside (final item) →
      inside = insideText unit (depth + 1) (rows item) ∧ (Closes (flushText (rows item)) → intact item))
    {inside : List Char} (cut : IsCut inside
      (insideText unit depth
        (b.rows Shader.sentinel ++ items.flatMap fun item => nest word.word (rows item))))
    (scan : ∀ more, insideText unit depth (b.rows Shader.sentinel ++ items.flatMap fun item =>
      nest word.word (rows item)) = inside ++ '}' :: '\n' :: more → Closes inside)
    (reads : Reads takes (fill .empty []) inside last) :
    b.IsIntact ∧ (∀ item ∈ items, intact item) ∧ inside = insideText unit depth
      (b.rows Shader.sentinel ++ items.flatMap fun item => nest word.word (rows item)) := by
  have light := cut.weight_le
  have written : insideText unit depth (b.rows Shader.sentinel ++ items.flatMap fun item =>
      nest word.word (rows item)) =
        '\n' :: (rowsText unit ((b.rows Shader.sentinel).map (Row.shift (depth + 1))) ++
        (rowsText unit ((items.flatMap fun item => nest word.word (rows item)).map
          (Row.shift (depth + 1))) ++
          List.replicate (unit * depth) ' ')) := by
    rw [insideText, List.map_append, rowsText_append]
    simp
  rw [weight_insideText, rowsWeight_append] at light
  rw [written] at cut
  obtain ⟨cs, rfl, cut₁⟩ := cut.of_cons (by decide)
  rw [weight_break] at light
  rw [reads_break] at reads
  have total := rowsWeight_children word items priced
  have margin : Guarded (List.replicate (unit * depth) ' ') :=
    guarded_of_noBrace (by simp [List.mem_replicate])
  have starts : StartWithWord (items.flatMap fun item => nest word.word (rows item)) :=
    startWithWord_flatMap items fun item => startWithWord_nest (rows item) noBrace (weight_word_pos word)
  have guarded := starts.guarded unit (depth + 1) margin
  obtain ⟨block, cs₂, rfl, cut₂, reads₂⟩ := block_tight clauses Shader.sentinel rfl lined
    (rowsWeight (items.flatMap fun item => nest word.word (rows item)))
    (fun b' cs reads => by
      obtain ⟨leads, -, owed⟩ := bound _ _ _ reads
      rw [total]
      exact ⟨leads, owed⟩) guarded cut₁
    (fun more short => isNeutral_break.closes_append_iff.mp
      (scan more (by rw [written, short]; rfl))) reads light
  rw [weight_append, weight_rowsText] at light
  obtain ⟨children, cs₃, rfl, cut₃⟩ := children_tight word free noBrace rows final cost intact readsInside
    (fill b.realigned) (child b.realigned)
    (fun done cs reads => by
      obtain ⟨-, order, owed⟩ := bound _ _ _ reads
      exact ⟨order, Nat.le_trans (Nat.le_add_left _ _) owed⟩)
    priced inner rfl margin cut₂ reads₂ (Nat.le_of_add_le_add_left light)
  obtain rfl := cut₃.of_spaces
  exact ⟨block, children, written.symm⟩

theorem SubShader.tight {s : SubShader} (lined : s.IsLined) {unit depth : Nat} {inside : List Char}
    (cut : IsCut inside (insideText unit depth s.innerRows))
    (scan : ∀ more, insideText unit depth s.innerRows = inside ++ '}' :: '\n' :: more → Closes inside)
    (reads : Reads SubShader.Takes .empty inside s.realigned) :
    inside = insideText unit depth s.innerRows ∧ (Closes (flushText s.innerRows) → s.IsIntact) := by
  obtain ⟨block, passes, same⟩ := body_tight .pass (by decide) (by decide) Pass.innerRows Pass.realigned
    Pass.cost Pass.IsIntact (Reads Pass.Takes (.named none)) SubShader.mk
      (SubShader.takesClauses []) lined.1
    (fun b done ph next rest comment name taken => by
      cases taken with
      | pass _ _ found reads => exact ⟨rfl, .inl ⟨_, _, found, reads, rfl⟩⟩
      | droppedPass => exact ⟨rfl, .inr rfl⟩
      | clause other => exact absurd name (other.resolve_left comment))
    (fun b done cs reads => by
      obtain ⟨⟨leads, order⟩, owed⟩ := s.realigned.owed_le_of_reads reads
        ⟨List.prefix_refl _, List.prefix_refl _⟩
      rw [SubShader.owed_self, Nat.zero_add] at owed
      exact ⟨leads, order, owed⟩)
    Pass.cost_realigned
    (fun p member inside cut scan reads => Pass.tight (lined.2 p member) cut scan reads) cut scan reads
  exact ⟨same, fun closes => ⟨block, passes, closes⟩⟩

theorem Shader.tight {s : Shader} (lined : s.IsLined) {unit depth : Nat} {inside : List Char}
    (cut : IsCut inside (insideText unit depth s.innerRows))
    (scan : ∀ more, insideText unit depth s.innerRows = inside ++ '}' :: '\n' :: more → Closes inside)
    (reads : Reads Shader.Takes (.named s.name) inside s.realigned) :
    inside = insideText unit depth s.innerRows ∧ s.toBlock.IsIntact ∧
      ∀ sub ∈ s.subShaders, sub.IsIntact := by
  obtain ⟨block, subShaders, same⟩ := body_tight .subShader (by decide) (by decide) SubShader.innerRows
    SubShader.realigned SubShader.cost SubShader.IsIntact (Reads SubShader.Takes .empty)
    (fun b => Shader.mk b s.name) (Shader.takesClauses s.name []) lined.1
    (fun b done ph next rest comment name taken => by
      cases taken with
      | subShader _ _ found reads => exact ⟨rfl, .inl ⟨_, _, found, reads, rfl⟩⟩
      | droppedSubShader => exact ⟨rfl, .inr rfl⟩
      | properties _ other => simp [name] at other
      | clause other => exact absurd name (other.resolve_left comment).2)
    (fun b done cs reads => by
      obtain ⟨⟨leads, order, -⟩, owed⟩ :=
        s.realigned.owed_le_of_reads reads ⟨List.prefix_refl _, List.prefix_refl _, rfl⟩
      rw [Shader.owed_self, Nat.zero_add] at owed
      exact ⟨leads, order, owed⟩)
    SubShader.cost_realigned
    (fun sub member inside cut scan reads =>
      SubShader.tight (lined.2 sub member) cut scan reads) cut scan reads
  exact ⟨same, block, subShaders⟩

theorem Shader.exists_reads_of_denotes {s last : Shader} (body : IsStringBody s.name) {unit : Nat}
    {tail : List Char} (noBrace : '}' ∉ tail) (h : Denotes (documentText unit s tail) last) :
    ∃ inside, IsCut inside (insideText unit 0 s.innerRows) ∧ Closes inside ∧
      Reads Shader.Takes (.named s.name) inside last := by
  obtain ⟨inside, rest, split, ends, reads⟩ := (denotes_documentText_iff_reads body unit tail).mp h
  rw [split] at ends
  refine ⟨inside, isCut_of_eq (List.cons.inj split).2 noBrace, afterClosing?_of_append rest ?_, reads⟩
  rw [List.append_assoc]
  exact ends

/-- A tree of lines that is read from its text is intact. No closing brace may stand after its block. -/
theorem Shader.isIntact_of_denotes {s : Shader} (lined : s.IsLined) {unit : Nat} {tail : List Char}
    (noBrace : '}' ∉ tail) (h : Denotes (documentText unit s tail) s.realigned) : s.IsIntact := by
  obtain ⟨header, inside, rest, heads, -, -, -, reads⟩ := id h
  obtain rfl := (heads_of_first? (first?_documentText unit s tail) (Phrase.kind_ofWord _ _)).mp heads
  have leads := (s.realigned.owed_le_of_reads reads ⟨List.prefix_refl _, List.prefix_refl _, rfl⟩).1
  have plain : (Phrase.ofWord Keyword.shader.word.toList ('"' :: (s.name.toList ++
      '"' :: '\n' :: '{' :: (insideText unit 0 s.innerRows ++ '}' :: tail)))).kind ≠ .block := by
    intro block
    obtain ⟨inside, opens, -⟩ := Phrase.ofWord_of_kind_block block
    rw [afterSpaces_of_not_isSpace (by decide)] at opens
    simp at opens
  have name := leads.2.2
  simp only [Shader.named, Shader.realigned] at name
  rw [Phrase.shaderName, if_neg plain] at name
  obtain ⟨body, -⟩ := Phrase.isStringBody_of_ofWord name (isCut_refl _)
  obtain ⟨inside, cut, closes, reads⟩ := exists_reads_of_denotes body noBrace h
  obtain ⟨rfl, block, subShaders⟩ := Shader.tight lined cut (fun _ _ => closes) reads
  exact ⟨body, block, subShaders, (closes_insideText unit 0 s.innerRows).mp closes⟩

/-- A tree of lines is read from its text exactly when it is intact. -/
theorem Shader.denotes_documentText_iff {s : Shader} (lined : s.IsLined) (unit : Nat) {tail : List Char}
    (noBrace : '}' ∉ tail) : Denotes (documentText unit s tail) s.realigned ↔ s.IsIntact :=
  ⟨isIntact_of_denotes lined noBrace, fun intact => (denotes_documentText intact unit tail).mpr rfl⟩

/-- A tree is read back from its rendering exactly when it is intact and realigned. -/
theorem Shader.parse_render_iff {s : Shader} : parse s.render = .ok s ↔ s.IsIntact ∧ s.realigned = s := by
  constructor
  · intro parsed
    have aligned := isAligned_of_parse parsed
    have same := realigned_of_isAligned aligned
    refine ⟨(denotes_documentText_iff aligned.isLined 4 (by decide : '}' ∉ ['\n'])).mp ?_, same⟩
    rw [parse_iff_denotes, toList_render, rowsText_rows] at parsed
    rw [same]
    exact parsed
  · rintro ⟨intact, same⟩
    exact parse_render_of_isIntact intact same

/-- What a document says is read back from its rendering exactly when it is intact. -/
theorem Shader.parse_render_of_parse_iff {document : String} {s : Shader} (h : parse document = .ok s) :
    parse s.render = .ok s ↔ s.IsIntact := by
  rw [parse_render_iff]
  exact and_iff_left (realigned_of_isAligned (isAligned_of_parse h))

def grabShader : Shader :=
  let grab : Pass := { Block.empty with name := some "GRAB", states := Settings.empty.insert .cull "Off" }
  { Block.empty with name := "T", subShaders := [{ Block.empty with passes := [grab] }] }

theorem parse_render_grabShader :
    Shader.parse "Shader \"T\" \x7b SubShader \x7b Pass \x7b Name GRAB Cull Off \x7d \x7d \x7d" =
      .ok grabShader ∧
      Shader.parse grabShader.render = .ok grabShader := by
  have parsed : Shader.parse "Shader \"T\" \x7b SubShader \x7b Pass \x7b Name GRAB Cull Off \x7d \x7d \x7d" =
    .ok grabShader := by decide +kernel
  exact ⟨parsed, (Shader.parse_render_of_parse_iff parsed).mpr (by decide +kernel)⟩

/-- A program between the other pair of words may hold the word that ends it when it is written. -/
theorem parse_render_of_parse_fails :
    ¬ ∀ (document : String) (s : Shader), Shader.parse document = .ok s →
      Shader.parse s.render = .ok s := by
  intro lossless
  have parsed : Shader.parse "Shader \"T\" \x7b\nCGPROGRAM\nENDHLSL\nENDCG\n\x7d" =
    .ok { Block.empty with name := "T", subShaders := [], program := some ["ENDHLSL"] } := by
      decide +kernel
  have intact := (Shader.parse_render_iff.mp (lossless _ _ parsed)).1
  exact absurd intact (by decide +kernel)

end ShaderText
