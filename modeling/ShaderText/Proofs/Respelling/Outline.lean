import ShaderText.Proofs.Respelling.Motion

/-! Respelled outlines. The readers of the three kinds of body move along with the text when the reader
of a clause does. Main statement: the outline of a respelled document is the respelled outline.
-/
namespace ShaderText.Motion

variable {m : Motion}

variable (m) in
def entry {α : Type} (f : α → α) (e : Entry α) : Entry α := ⟨m.statement e.statement, f e.item⟩

variable (m) in
/-- Whether a body reads the respelled statements as it reads the statements. -/
structure Commutes {α : Type} (body : Body α) (f : α → α) : Prop where
  read : ∀ s, m.Carries s →
    body.read (m.statement s) = (f (body.read s).1, m.region (body.read s).2) ∧ m.Follows (body.read s).2
  fault? : ∀ item, body.fault? (f item) = (body.fault? item).map m.fault

theorem Commutes.faultOf? {α : Type} {body : Body α} {f : α → α} (h : m.Commutes body f)
    (entries : List (Entry α)) :
    body.faultOf? (entries.map (m.entry f)) = (body.faultOf? entries).map m.fault := by
  unfold Body.faultOf?
  induction entries with
  | nil => rfl
  | cons e entries ih =>
    rw [List.map_cons, List.findSome?_cons, List.findSome?_cons, entry, h.fault?]
    cases body.fault? e.item with
    | none => exact ih
    | some f => rfl

theorem Commutes.entries {α : Type} {body : Body α} {f : α → α} (h : m.Commutes body f) {r : Region}
    (follows : m.Follows r) : body.entries (m.region r) = (body.entries r).map (m.entry f) := by
  fun_induction Body.entries body r with
  | case1 r none =>
    have none' : Statement.first? (m.region r) = .none := by rw [(first?_region follows).1, none]; rfl
    rw [Body.entries]
    split
    · rfl
    · rename_i some
      simp [none'] at some
  | case2 r s found next ih =>
    have carries := (first?_region follows).2 s found
    have found' : Statement.first? (m.region r) = some (m.statement s) := by
      rw [(first?_region follows).1, found]
      rfl
    obtain ⟨read, followsNext⟩ := h.read s carries
    rw [Body.entries]
    split
    · rename_i none
      simp [found'] at none
    · rename_i t found''
      rw [found'] at found''
      obtain rfl := Option.some.inj found''
      rw [read]
      simp only [h.fault?, Option.isSome_map, List.map_cons]
      refine congrArg (m.entry f ⟨s, next.1⟩ :: ·) ?_
      by_cases ends : (body.fault? next.1).isSome
      · rw [if_pos ends, if_pos ends]
        rfl
      · rw [if_neg ends, if_neg ends]
        exact ih followsNext

theorem nameValue_statement (s : Statement) : (m.statement s).nameValue = m.string s.nameValue := by
  have other {s : Statement} (plain : s.value.chars.head? ≠ some '"') : s.nameValue = s.value.text := by
    unfold Statement.nameValue
    split
    · rename_i opens
      exact absurd (by rw [opens]; rfl) plain
    · rfl
  have quoted {s : Statement} {inside : List Char} (opens : s.value.chars = '"' :: inside) :
      s.nameValue = if inside.getLast? = some '"' then String.ofList inside.dropLast else s.value.text := by
    rw [Statement.nameValue, opens]
    rfl
  by_cases opens : s.value.chars.head? = some '"'
  · obtain ⟨inside, value⟩ := List.head?_eq_some_iff.mp opens
    have value' : (m.statement s).value.chars = '"' :: m.text inside := by
      show m.text s.value.chars = _
      rw [value, m.text_cons, m.image_of_sign (by decide) (by decide)]
      rfl
    have last : (m.text inside).getLast? = some '"' ↔ inside.getLast? = some '"' :=
      m.getLast?_text (by decide)
    rw [quoted value, quoted value']
    by_cases closed : inside.getLast? = some '"'
    · rw [if_pos closed, if_pos (last.mpr closed)]
      obtain ⟨front, rfl⟩ := List.getLast?_eq_some_iff.mp closed
      simp [m.image_of_sign (show ('"').isAlpha = false from by decide) (by decide)]
    · rw [if_neg closed, if_neg (mt last.mp closed), ← text_region]
      rfl
  · have opens' : (m.statement s).value.chars.head? ≠ some '"' :=
      mt (m.head?_text (by decide) (by decide)).mp opens
    rw [other opens, other opens', ← text_region]
    rfl

variable (m) in
def passItem : PassItem → PassItem
  | .name value => .name (m.string value)
  | .clause said => .clause (m.clause said)

variable (m) in
def subShaderItem : SubShaderItem → SubShaderItem
  | .pass entries => .pass (entries.map (m.entry m.passItem))
  | .droppedPass f => .droppedPass (m.fault f)
  | .clause said => .clause (m.clause said)

variable (m) in
def shaderItem : ShaderItem → ShaderItem
  | .properties => .properties
  | .subShader entries => .subShader (entries.map (m.entry m.subShaderItem))
  | .droppedSubShader f => .droppedSubShader (m.fault f)
  | .clause said => .clause (m.clause said)

theorem named_iff {s : Statement} (h : m.Carries s) (k : Keyword) :
    ((m.statement s).kind ≠ .comment ∧ keyword? (m.statement s).name.chars = some k) ↔
      s.kind ≠ .comment ∧ keyword? s.name.chars = some k := by
  have name : keyword? (m.statement s).name.chars = keyword? s.name.chars := m.keyword?_text h.single
  rw [name]
  exact Iff.rfl

theorem passItem_read {s : Statement} (h : m.Carries s) :
    PassItem.read (m.statement s) = (m.passItem (PassItem.read s).1, m.region (PassItem.read s).2) ∧
      m.Follows (PassItem.read s).2 := by
  unfold PassItem.read
  by_cases named : s.kind ≠ .comment ∧ keyword? s.name.chars = some .name
  · rw [if_pos named, if_pos ((named_iff h _).mpr named), nameValue_statement]
    exact ⟨rfl, h.rest⟩
  · rw [if_neg named, if_neg (mt (named_iff h _).mp named), (read_statement h).1]
    exact ⟨rfl, (read_statement h).2⟩

theorem commutes_passBody : m.Commutes passBody m.passItem where
  read _ h := passItem_read h
  fault?
    | .name _ => rfl
    | .clause said => clause_fault? said

theorem subShaderItem_read {s : Statement} (h : m.Carries s) :
    SubShaderItem.read (m.statement s) =
        (m.subShaderItem (SubShaderItem.read s).1, m.region (SubShaderItem.read s).2) ∧
      m.Follows (SubShaderItem.read s).2 := by
  unfold SubShaderItem.read
  by_cases named : s.kind ≠ .comment ∧ keyword? s.name.chars = some .pass
  · obtain ⟨inside, follows⟩ := interior_statement h Keyword.pass.word
    rw [if_pos named, if_pos ((named_iff h _).mpr named), inside]
    cases read : s.interior Keyword.pass.word with
    | error f => exact ⟨rfl, h.rest⟩
    | ok r =>
      simp only [outcome, subShaderItem, commutes_passBody.entries (follows r read)]
      exact ⟨rfl, h.rest⟩
  · rw [if_neg named, if_neg (mt (named_iff h _).mp named), (read_statement h).1]
    exact ⟨rfl, (read_statement h).2⟩

theorem commutes_subShaderBody : m.Commutes subShaderBody m.subShaderItem where
  read _ h := subShaderItem_read h
  fault?
    | .pass entries => commutes_passBody.faultOf? entries
    | .droppedPass _ => rfl
    | .clause said => clause_fault? said

theorem shaderItem_read {s : Statement} (h : m.Carries s) :
    ShaderItem.read (m.statement s) =
        (m.shaderItem (ShaderItem.read s).1, m.region (ShaderItem.read s).2) ∧
      m.Follows (ShaderItem.read s).2 := by
  unfold ShaderItem.read
  by_cases properties : s.kind ≠ .comment ∧ keyword? s.name.chars = some .properties
  · rw [if_pos properties, if_pos ((named_iff h _).mpr properties)]
    exact ⟨rfl, h.rest⟩
  rw [if_neg properties, if_neg (mt (named_iff h _).mp properties)]
  by_cases named : s.kind ≠ .comment ∧ keyword? s.name.chars = some .subShader
  · obtain ⟨inside, follows⟩ := interior_statement h Keyword.subShader.word
    rw [if_pos named, if_pos ((named_iff h _).mpr named), inside]
    cases read : s.interior Keyword.subShader.word with
    | error f => exact ⟨rfl, h.rest⟩
    | ok r =>
      simp only [outcome, shaderItem, commutes_subShaderBody.entries (follows r read)]
      exact ⟨rfl, h.rest⟩
  · rw [if_neg named, if_neg (mt (named_iff h _).mp named), (read_statement h).1]
    exact ⟨rfl, (read_statement h).2⟩

theorem commutes_shaderBody : m.Commutes shaderBody m.shaderItem where
  read _ h := shaderItem_read h
  fault?
    | .properties => rfl
    | .subShader entries => commutes_subShaderBody.faultOf? entries
    | .droppedSubShader _ => rfl
    | .clause said => clause_fault? said

theorem header?_region {r : Region} (h : m.Follows r) :
    (m.region r).header? = r.header?.map m.statement ∧ ∀ s, r.header? = some s → m.Carries s := by
  have found' {r : Region} {s : Statement} (h : m.Follows r) (found : Statement.first? r = some s) :
      (m.region r).header? = if s.kind = .comment then (m.region s.rest).header? else some (m.statement s) := by
    have found' : Statement.first? (m.region r) = some (m.statement s) := by
      rw [(first?_region h).1, found]
      rfl
    rw [Region.header?]
    split
    · rename_i none
      simp [found'] at none
    · rename_i t found''
      rw [found'] at found''
      rw [← Option.some.inj found'']
      rfl
  fun_induction Region.header? r with
  | case1 r none =>
    refine ⟨?_, fun s some => by simp at some⟩
    have none' : Statement.first? (m.region r) = .none := by rw [(first?_region h).1, none]; rfl
    rw [Region.header?]
    split
    · rfl
    · rename_i some
      simp [none'] at some
  | case2 r s found comment ih =>
    rw [found' h found, if_pos comment]
    exact ih ((first?_region h).2 s found).rest
  | case3 r s found noComment =>
    rw [found' h found, if_neg noComment]
    exact ⟨rfl, fun t same => Option.some.inj same ▸ (first?_region h).2 s found⟩

theorem blockPlace_statement {s : Statement} (h : m.Carries s) :
    Outline.blockPlace (m.statement s) = m.region (Outline.blockPlace s) ∧
      m.Follows (Outline.blockPlace s) := by
  unfold Outline.blockPlace
  by_cases block : s.kind = .block
  · rw [if_pos block, if_pos (show (m.statement s).kind = .block from block)]
    exact ⟨rfl, h.value⟩
  · obtain ⟨follows, equal⟩ := h.rest.skipTrivia
    rw [if_neg block, if_neg (show (m.statement s).kind ≠ .block from block), equal]
    exact ⟨rfl, follows⟩

theorem nameOf_statement (s : Statement) : Outline.nameOf (m.statement s) = m.string (Outline.nameOf s) := by
  unfold Outline.nameOf
  by_cases block : s.kind = .block
  · rw [if_pos block, if_pos (show (m.statement s).kind = .block from block)]
    rfl
  · rw [if_neg block, if_neg (show (m.statement s).kind ≠ .block from block), nameValue_statement]

theorem shaderInterior_statement {s : Statement} (h : m.Carries s) :
    Outline.shaderInterior (m.statement s) = m.outcome m.region (Outline.shaderInterior s) ∧
      ∀ inside, Outline.shaderInterior s = .ok inside → m.Follows inside := by
  obtain ⟨place', follows⟩ := blockPlace_statement h
  cases place : Outline.blockPlace s with
  | mk start chars =>
    rw [place] at place' follows
    by_cases opens : chars.head? = some '{'
    · obtain ⟨inside, rfl⟩ := List.head?_eq_some_iff.mp opens
      rw [region, text_brace] at place'
      have closes' : afterBlock? ('{' :: m.text inside) = (afterBlock? ('{' :: inside)).map m.text := by
        rw [← text_brace, m.afterBlock?_text]
      cases closes : afterBlock? ('{' :: inside) with
      | none =>
        rw [closes] at closes'
        rw [Outline.shaderInterior_of_open place closes, Outline.shaderInterior_of_open place' closes']
        exact ⟨rfl, fun r same => by simp at same⟩
      | some rest =>
        obtain ⟨front, rfl⟩ := eq_append_of_afterClosing? (by rw [← afterBlock?_cons, closes])
        have brace : m.text ('}' :: rest) = '}' :: m.text rest := by
          rw [m.text_cons, m.image_of_sign (by decide) (by decide)]
          rfl
        rw [closes, m.text_append, brace] at closes'
        rw [m.text_append, brace] at place'
        obtain ⟨followsInside, inside⟩ := follows.inside
        rw [Outline.shaderInterior_of_closed place closes, Outline.shaderInterior_of_closed place' closes', outcome, inside]
        exact ⟨rfl, fun r same => Except.ok.inj same ▸ followsInside⟩
    · have missing : (Outline.blockPlace s).chars.head? ≠ some '{' := by rwa [place]
      have missing' : (Outline.blockPlace (m.statement s)).chars.head? ≠ some '{' := by
        rw [place']
        exact mt (m.head?_text (by decide) (by decide)).mp opens
      rw [Outline.shaderInterior_of_missing missing, Outline.shaderInterior_of_missing missing', place, place']
      exact ⟨rfl, fun r same => by simp at same⟩

variable (m) in
def outline (o : Outline) : Outline :=
  ⟨o.header?.map m.statement, m.string o.name, o.entries.map (m.entry m.shaderItem), o.fault?.map m.fault⟩

/-- What is read in a respelled document is what is read in the document, respelled and moved. -/
theorem outline_ofText {document : List Char} (origin : m.place 0 = 0)
    (follows : m.Follows (Region.whole document)) :
    Outline.ofText (m.text document) = m.outline (Outline.ofText document) := by
  have whole : Region.whole (m.text document) = m.region (Region.whole document) := by
    rw [region, Region.whole, Region.whole, origin]
  have size : byteSize (m.text document) = m.place (byteSize document) := by
    have stop := follows.stop
    rw [← whole] at stop
    simpa [Region.stop, Region.whole] using stop
  obtain ⟨found, carries⟩ := header?_region follows
  unfold Outline.ofText
  rw [whole, found, size]
  cases read : (Region.whole document).header? with
  | none => rfl
  | some s =>
    have carried := carries s read
    have name : keyword? (m.statement s).name.chars = keyword? s.name.chars := m.keyword?_text carried.single
    have nameText : (m.statement s).name.text = m.string s.name.text := text_region s.name
    simp only [Option.map_some, name]
    by_cases other : keyword? s.name.chars ≠ some .shader
    · rw [if_pos other, if_pos other, nameText]
      rfl
    · rw [if_neg other, if_neg other]
      obtain ⟨interior, followsInside⟩ := shaderInterior_statement carried
      rw [interior, nameOf_statement]
      cases body : Outline.shaderInterior s with
      | error f => rfl
      | ok inside =>
        simp only [outcome, commutes_shaderBody.entries (followsInside inside body),
          commutes_shaderBody.faultOf?]
        rfl

end ShaderText.Motion
