import Mathlib.Tactic.Tauto
import ShaderText.Proofs.Crossing
import ShaderText.Proofs.Phrase

/-! What a block, a pass, a sub-shader and a shader make of a statement, over characters alone. Main
statement: a document has a tree exactly when its header opens a block that reads as the tree.
-/
namespace ShaderText

/-- A keyword that says the same in every kind of block. -/
def Keyword.isClause : Keyword → Bool
  | .program _ | .tags | .stencil => true
  | _ => false

inductive Block.Takes (held : Block) (ph : Phrase) : Block → List Char → Prop
  | remark : ph.kind = .comment → Takes held ph held ph.rest
  | program {sentinel : Sentinel} {last : List Char} : ph.kind ≠ .comment →
      keyword? ph.name = some (.program sentinel) →
      fromClosingLine? sentinel.closing.toList (afterLine ph.rest) = some last →
      Takes held ph
        { held with program := some (programLines (ph.rest.take (ph.rest.length - last.length))) }
        (afterFirstWord last)
  | tags {pairs : List (String × String)} : keyword? ph.name = some .tags → ph.kind = .block →
      ReadsTags ph.tagsText pairs → Takes held ph { held with tags := held.tags.insertAll pairs } ph.rest
  | stencil {inside : List Char} {fields : Settings StencilField} : keyword? ph.name = some .stencil →
      ph.interior? = some inside → Reads Settings.TakesField held.stencil inside fields →
      Takes held ph { held with stencil := fields } ph.rest
  | droppedStencil : ph.kind ≠ .comment → keyword? ph.name = some .stencil → ph.interior? = none →
      Takes held ph held ph.rest
  | state {known : RenderState} : ph.kind ≠ .comment → ph.kind ≠ .empty →
      (∀ k ∈ keyword? ph.name, k.isClause = false) → renderState? ph.name = some known →
      Takes held ph { held with states := held.states.insert known (String.ofList ph.value) } ph.rest
  | unknown : ph.kind ≠ .comment → (∀ k ∈ keyword? ph.name, k.isClause = false) →
      renderState? ph.name = none ∨ ph.kind = .empty → Takes held ph held ph.afterUnknown

theorem Statement.interior_cases (s : Statement) (word : String) :
    (∃ r, s.interior word = .ok r ∧ s.phrase.interior? = some r.chars) ∨
      ∃ fault, s.interior word = .error fault ∧ s.phrase.interior? = none := by
  unfold Statement.interior Phrase.interior?
  by_cases block : s.kind = .block
  · by_cases closed : s.value.chars.tail.getLast? = some '}' <;> simp [Statement.phrase, block, closed]
  · simp [Statement.phrase, block]

theorem Program.first?_eq_some_iff {sentinel : Sentinel} {r : Region} {found : Program} :
    Program.first? sentinel r = some found ↔
      ∃ last, fromClosingLine? sentinel.closing.toList (afterLine r.chars) = some last ∧
        found = ⟨r.upTo last, r.onward (afterFirstWord last)⟩ := by
  unfold Program.first?
  cases fromClosingLine? sentinel.closing.toList (afterLine r.chars) with
  | none => simp
  | some last => simp [eq_comm]

theorem Statement.tags_eq_iff {s : Statement} {pairs : List (String × String)} :
    s.tags = (pairs, none) ↔ s.kind = .block ∧ ReadsTags s.phrase.tagsText pairs := by
  unfold Statement.tags
  by_cases block : s.kind = .block
  · simp only [block, if_true, true_and]
    exact readsTags_iff.symm
  · simp [block]

theorem Clause.read_of_plain {s : Statement} (comment : s.kind ≠ .comment)
    (plain : ∀ k ∈ keyword? s.name.chars, k.isClause = false) :
    Clause.read s =
      match renderState? s.name.chars with
      | some known => if s.kind = .empty then readUnknown s else (.state known s.value.text, s.rest)
      | none => readUnknown s := by
  unfold Clause.read
  rw [if_neg comment]
  cases word : keyword? s.name.chars with
  | none => rfl
  | some k =>
    have := plain k word
    cases k <;> first | rfl | simp [Keyword.isClause] at this

theorem Clause.readUnknown_rest (s : Statement) :
    (Clause.readUnknown s).2.chars = s.phrase.afterUnknown := by
  unfold Clause.readUnknown Phrase.afterUnknown
  by_cases bare : s.kind = .bare <;> simp [bare, Statement.phrase]

theorem Clause.readUnknown_held (held : Block) (s : Statement) :
    (Clause.readUnknown s).1.fault? = none ∧ held.add (Clause.readUnknown s).1 = held := by
  unfold Clause.readUnknown
  split <;> exact ⟨rfl, rfl⟩

theorem Block.takes_iff_of_plain {held : Block} {s : Statement} {next : Block} {rest : List Char}
    (comment : s.kind ≠ .comment) (plain : ∀ k ∈ keyword? s.name.chars, k.isClause = false) :
    held.Takes s.phrase next rest ↔ (Clause.read s).1.fault? = none ∧ held.add (Clause.read s).1 = next ∧
      (Clause.read s).2.chars = rest := by
  have unknown := Clause.readUnknown_held held s
  rw [Clause.read_of_plain comment plain]
  constructor
  · intro taken
    cases taken with
    | remark is => exact absurd is comment
    | program _ word => exact absurd (plain _ word) (by simp [Keyword.isClause])
    | tags word => exact absurd (plain _ word) (by simp [Keyword.isClause])
    | stencil word => exact absurd (plain _ word) (by simp [Keyword.isClause])
    | droppedStencil _ word => exact absurd (plain _ word) (by simp [Keyword.isClause])
    | state _ nonempty _ known =>
      have known' : renderState? s.name.chars = _ := known
      have nonempty' : s.kind ≠ .empty := nonempty
      simp only [known', nonempty', if_false]
      exact ⟨rfl, rfl, rfl⟩
    | unknown _ _ why =>
      rw [← Clause.readUnknown_rest]
      rcases why with none | empty
      · have none' : renderState? s.name.chars = Option.none := none
        simp [none', unknown]
      · have empty' : s.kind = .empty := empty
        cases renderState? s.name.chars <;> simp [empty', unknown]
  · rintro ⟨-, rfl, rfl⟩
    cases known : renderState? s.name.chars with
    | none =>
      rw [unknown.2, Clause.readUnknown_rest]
      exact .unknown comment plain (.inl known)
    | some state =>
      by_cases empty : s.kind = .empty
      · simp only [empty, if_true]
        rw [unknown.2, Clause.readUnknown_rest]
        exact .unknown comment plain (.inr empty)
      · simp only [empty, if_false]
        exact .state comment empty plain known

theorem Block.takes_iff_of_program {held : Block} {s : Statement} {next : Block} {rest : List Char}
    {sentinel : Sentinel} (comment : s.kind ≠ .comment)
    (word : keyword? s.name.chars = some (.program sentinel)) :
    held.Takes s.phrase next rest ↔ (Clause.read s).1.fault? = none ∧ held.add (Clause.read s).1 = next ∧
      (Clause.read s).2.chars = rest := by
  have same : ∀ k, keyword? s.phrase.name = some k → k = .program sentinel := fun k other =>
    Option.some.inj (other.symm.trans word)
  cases found : Program.first? sentinel s.rest with
  | none =>
    have read : Clause.read s =
        (.endlessProgram ⟨s.name.start, .unterminatedProgram sentinel⟩, s.rest) := by
      simp [Clause.read, comment, word, found]
    rw [read]
    constructor
    · intro taken
      cases taken with
      | remark is => exact absurd is comment
      | program _ word' closes =>
        obtain rfl := Keyword.program.inj (same _ word')
        exact absurd (found.symm.trans (Program.first?_eq_some_iff.mpr ⟨_, closes, rfl⟩)) (by simp)
      | tags word' | stencil word' | droppedStencil _ word' => exact absurd (same _ word') (by simp)
      | state _ _ plain | unknown _ plain => exact absurd (plain _ word) (by simp [Keyword.isClause])
    · simp [Clause.fault?]
  | some program =>
    have read : Clause.read s = (.program sentinel (programLines program.body.chars), program.rest) := by
      simp [Clause.read, comment, word, found]
    rw [read]
    constructor
    · intro taken
      cases taken with
      | remark is => exact absurd is comment
      | program _ word' closes =>
        obtain rfl := Keyword.program.inj (same _ word')
        have found' := Program.first?_eq_some_iff.mpr ⟨_, closes, rfl⟩
        obtain rfl := Option.some.inj (found.symm.trans found')
        exact ⟨rfl, rfl, rfl⟩
      | tags word' | stencil word' | droppedStencil _ word' => exact absurd (same _ word') (by simp)
      | state _ _ plain | unknown _ plain => exact absurd (plain _ word) (by simp [Keyword.isClause])
    · rintro ⟨-, rfl, rfl⟩
      obtain ⟨last, closes, rfl⟩ := Program.first?_eq_some_iff.mp found
      exact .program comment word closes

theorem Block.takes_iff_of_tags {held : Block} {s : Statement} {next : Block} {rest : List Char}
    (comment : s.kind ≠ .comment) (word : keyword? s.name.chars = some .tags) :
    held.Takes s.phrase next rest ↔ (Clause.read s).1.fault? = none ∧ held.add (Clause.read s).1 = next ∧
      (Clause.read s).2.chars = rest := by
  have read : Clause.read s = (.tags s.tags.1 s.tags.2, s.rest) := by
    rw [Clause.read, if_neg comment, word]
  rw [read]
  constructor
  · intro taken
    have same : ∀ k, keyword? s.phrase.name = some k → k = .tags := fun k other =>
      Option.some.inj (other.symm.trans word)
    cases taken with
    | remark is => exact absurd is comment
    | tags _ block pairs =>
      rw [Statement.tags_eq_iff.mpr ⟨block, pairs⟩]
      exact ⟨rfl, rfl, rfl⟩
    | program _ word' | stencil word' | droppedStencil _ word' => exact absurd (same _ word') (by simp)
    | state _ _ plain | unknown _ plain => exact absurd (plain _ word) (by simp [Keyword.isClause])
  · rintro ⟨fault, rfl, rfl⟩
    obtain ⟨block, pairs⟩ := Statement.tags_eq_iff.mp (Prod.ext rfl fault)
    exact .tags word block pairs

theorem Block.takes_iff_of_stencil {held : Block} {s : Statement} {next : Block} {rest : List Char}
    (comment : s.kind ≠ .comment) (word : keyword? s.name.chars = some .stencil) :
    held.Takes s.phrase next rest ↔ (Clause.read s).1.fault? = none ∧ held.add (Clause.read s).1 = next ∧
      (Clause.read s).2.chars = rest := by
  have same : ∀ k, keyword? s.phrase.name = some k → k = .stencil := fun k other =>
    Option.some.inj (other.symm.trans word)
  rcases s.interior_cases Keyword.stencil.word with ⟨r, ok, inside⟩ | ⟨fault, error, outside⟩
  · have read : Clause.read s = (.stencil r.stencilEntries, s.rest) := by
      simp [Clause.read, comment, word, ok]
    rw [read]
    constructor
    · intro taken
      cases taken with
      | remark is => exact absurd is comment
      | stencil _ inside' fields =>
        obtain rfl := Option.some.inj (inside.symm.trans inside')
        exact ⟨rfl, by rw [Block.add, reads_fields_iff.mp fields], rfl⟩
      | droppedStencil _ _ outside => exact absurd (outside.symm.trans inside) (by simp)
      | program _ word' | tags word' => exact absurd (same _ word') (by simp)
      | state _ _ plain | unknown _ plain => exact absurd (plain _ word) (by simp [Keyword.isClause])
    · rintro ⟨-, rfl, rfl⟩
      exact .stencil word inside (reads_fields_iff.mpr rfl)
  · have read : Clause.read s = (.droppedStencil fault, s.rest) := by
      simp [Clause.read, comment, word, error]
    rw [read]
    constructor
    · intro taken
      cases taken with
      | remark is => exact absurd is comment
      | stencil _ inside => exact absurd (outside.symm.trans inside) (by simp)
      | droppedStencil => exact ⟨rfl, rfl, rfl⟩
      | program _ word' | tags word' => exact absurd (same _ word') (by simp)
      | state _ _ plain | unknown _ plain => exact absurd (plain _ word) (by simp [Keyword.isClause])
    · rintro ⟨-, rfl, rfl⟩
      exact .droppedStencil comment word outside

theorem Block.takes_iff (held : Block) (s : Statement) (next : Block) (rest : List Char) :
    held.Takes s.phrase next rest ↔ (Clause.read s).1.fault? = none ∧ held.add (Clause.read s).1 = next ∧
      (Clause.read s).2.chars = rest := by
  by_cases comment : s.kind = .comment
  · have read : Clause.read s = (.remark, s.rest) := by rw [Clause.read, if_pos comment]
    rw [read]
    constructor
    · intro taken
      cases taken with
      | remark => exact ⟨rfl, rfl, rfl⟩
      | tags _ block => exact absurd (comment.symm.trans block) (by simp)
      | stencil _ inside => simp [Phrase.interior?, Statement.phrase, comment] at inside
      | program other | droppedStencil other | state other | unknown other => exact absurd comment other
    · rintro ⟨-, rfl, rfl⟩
      exact .remark comment
  cases word : keyword? s.name.chars with
  | none => exact takes_iff_of_plain comment (by simp [word])
  | some k =>
    cases k with
    | program sentinel => exact takes_iff_of_program comment word
    | tags => exact takes_iff_of_tags comment word
    | stencil => exact takes_iff_of_stencil comment word
    | _ => exact takes_iff_of_plain comment (by simp [word, Keyword.isClause])

inductive Pass.Takes (held : Pass) (ph : Phrase) : Pass → List Char → Prop
  | name : ph.kind ≠ .comment → keyword? ph.name = some .name →
      Takes held ph { held with name := some ph.nameValue } ph.rest
  | clause {next : Block} {rest : List Char} : ph.kind = .comment ∨ keyword? ph.name ≠ some .name →
      held.toBlock.Takes ph next rest → Takes held ph { held with toBlock := next } rest

inductive SubShader.Takes (held : SubShader) (ph : Phrase) : SubShader → List Char → Prop
  | pass {inside : List Char} {p : Pass} : ph.kind ≠ .comment → keyword? ph.name = some .pass →
      ph.interior? = some inside → Reads Pass.Takes (.named none) inside p →
      Takes held ph { held with passes := held.passes ++ [p] } ph.rest
  | droppedPass : ph.kind ≠ .comment → keyword? ph.name = some .pass → ph.interior? = none →
      Takes held ph held ph.rest
  | clause {next : Block} {rest : List Char} : ph.kind = .comment ∨ keyword? ph.name ≠ some .pass →
      held.toBlock.Takes ph next rest → Takes held ph { held with toBlock := next } rest

inductive Shader.Takes (held : Shader) (ph : Phrase) : Shader → List Char → Prop
  | properties : ph.kind ≠ .comment → keyword? ph.name = some .properties → Takes held ph held ph.rest
  | subShader {inside : List Char} {sub : SubShader} : ph.kind ≠ .comment →
      keyword? ph.name = some .subShader → ph.interior? = some inside →
      Reads SubShader.Takes .empty inside sub →
      Takes held ph { held with subShaders := held.subShaders ++ [sub] } ph.rest
  | droppedSubShader : ph.kind ≠ .comment → keyword? ph.name = some .subShader → ph.interior? = none →
      Takes held ph held ph.rest
  | clause {next : Block} {rest : List Char} :
      ph.kind = .comment ∨ (keyword? ph.name ≠ some .properties ∧ keyword? ph.name ≠ some .subShader) →
      held.toBlock.Takes ph next rest → Takes held ph { held with toBlock := next } rest

theorem Pass.takes_iff (held : Pass) (s : Statement) (next : Pass) (rest : List Char) :
    held.Takes s.phrase next rest ↔ passBody.fault? (passBody.read s).1 = none ∧
      held.add (passBody.read s).1 = next ∧ (passBody.read s).2.chars = rest := by
  have read : passBody.read s =
      if s.kind ≠ .comment ∧ keyword? s.name.chars = some .name then (.name s.nameValue, s.rest)
      else (.clause (Clause.read s).1, (Clause.read s).2) := rfl
  by_cases named : s.kind ≠ .comment ∧ keyword? s.name.chars = some .name
  · rw [read, if_pos named]
    have value : s.phrase.nameValue = s.nameValue := rfl
    constructor
    · intro taken
      cases taken with
      | name => exact ⟨rfl, rfl, rfl⟩
      | clause other => exact absurd other (not_or.mpr ⟨named.1, not_not.mpr named.2⟩)
    · rintro ⟨-, rfl, rfl⟩
      exact .name named.1 named.2
  · rw [read, if_neg named]
    have block := Block.takes_iff held.toBlock s
    constructor
    · intro taken
      cases taken with
      | name comment word => exact absurd ⟨comment, word⟩ named
      | clause _ taken =>
        obtain ⟨fault, rfl, rfl⟩ := (block _ _).mp taken
        exact ⟨fault, rfl, rfl⟩
    · rintro ⟨fault, rfl, rfl⟩
      exact .clause (by tauto) ((block _ _).mpr ⟨fault, rfl, rfl⟩)

theorem Pass.reads_iff {r : Region} {p : Pass} :
    Reads Pass.Takes (.named none) r.chars p ↔
      passBody.faultOf? (passBody.entries r) = none ∧ ofEntries (passBody.entries r) = p :=
  Body.reads_iff passBody Pass.add Pass.takes_iff r (.named none) p

theorem SubShader.takes_iff (held : SubShader) (s : Statement) (next : SubShader) (rest : List Char) :
    held.Takes s.phrase next rest ↔ subShaderBody.fault? (subShaderBody.read s).1 = none ∧
      held.add (subShaderBody.read s).1 = next ∧ (subShaderBody.read s).2.chars = rest := by
  by_cases child : s.kind ≠ .comment ∧ keyword? s.name.chars = some .pass
  · have notClause (h : s.kind = .comment ∨ keyword? s.name.chars ≠ some .pass) : False :=
      h.elim child.1 fun other => other child.2
    rcases s.interior_cases Keyword.pass.word with ⟨r, ok, inside⟩ | ⟨fault, error, outside⟩
    · have read : subShaderBody.read s = (.pass (passBody.entries r), s.rest) := by
        simp [subShaderBody, SubShaderItem.read, child, ok]
      rw [read]
      constructor
      · intro taken
        cases taken with
        | pass _ _ inside' reads =>
          obtain rfl := Option.some.inj (inside.symm.trans inside')
          obtain ⟨fault, rfl⟩ := Pass.reads_iff.mp reads
          exact ⟨fault, rfl, rfl⟩
        | droppedPass _ _ outside => exact absurd (outside.symm.trans inside) (by simp)
        | clause other => exact (notClause other).elim
      · rintro ⟨fault, rfl, rfl⟩
        exact .pass child.1 child.2 inside (Pass.reads_iff.mpr ⟨fault, rfl⟩)
    · have read : subShaderBody.read s = (.droppedPass fault, s.rest) := by
        simp [subShaderBody, SubShaderItem.read, child, error]
      rw [read]
      constructor
      · intro taken
        cases taken with
        | pass _ _ inside => exact absurd (outside.symm.trans inside) (by simp)
        | droppedPass => exact ⟨rfl, rfl, rfl⟩
        | clause other => exact (notClause other).elim
      · rintro ⟨-, rfl, rfl⟩
        exact .droppedPass child.1 child.2 outside
  · have read : subShaderBody.read s = (.clause (Clause.read s).1, (Clause.read s).2) := if_neg child
    rw [read]
    have block := Block.takes_iff held.toBlock s
    constructor
    · intro taken
      cases taken with
      | pass comment word | droppedPass comment word => exact absurd ⟨comment, word⟩ child
      | clause _ taken =>
        obtain ⟨fault, rfl, rfl⟩ := (block _ _).mp taken
        exact ⟨fault, rfl, rfl⟩
    · rintro ⟨fault, rfl, rfl⟩
      exact .clause (by tauto) ((block _ _).mpr ⟨fault, rfl, rfl⟩)

theorem SubShader.reads_iff {r : Region} {sub : SubShader} :
    Reads SubShader.Takes .empty r.chars sub ↔
      subShaderBody.faultOf? (subShaderBody.entries r) = none ∧
        ofEntries (subShaderBody.entries r) = sub :=
  Body.reads_iff subShaderBody SubShader.add SubShader.takes_iff r .empty sub

theorem Shader.takes_iff (held : Shader) (s : Statement) (next : Shader) (rest : List Char) :
    held.Takes s.phrase next rest ↔ shaderBody.fault? (shaderBody.read s).1 = none ∧
      held.add (shaderBody.read s).1 = next ∧ (shaderBody.read s).2.chars = rest := by
  by_cases properties : s.kind ≠ .comment ∧ keyword? s.name.chars = some .properties
  · have read : shaderBody.read s = (.properties, s.rest) := if_pos properties
    rw [read]
    have word (k : Keyword) (other : keyword? s.phrase.name = some k) : k = .properties :=
      Option.some.inj (other.symm.trans properties.2)
    constructor
    · intro taken
      cases taken with
      | properties => exact ⟨rfl, rfl, rfl⟩
      | subShader _ word' | droppedSubShader _ word' => exact absurd (word _ word') (by simp)
      | clause other => exact absurd properties.2 (other.resolve_left properties.1).1
    · rintro ⟨-, rfl, rfl⟩
      exact .properties properties.1 properties.2
  by_cases child : s.kind ≠ .comment ∧ keyword? s.name.chars = some .subShader
  · have notClause (h : s.kind = .comment ∨ (keyword? s.name.chars ≠ some .properties ∧
        keyword? s.name.chars ≠ some .subShader)) : False :=
      h.elim child.1 fun other => other.2 child.2
    rcases s.interior_cases Keyword.subShader.word with ⟨r, ok, inside⟩ | ⟨fault, error, outside⟩
    · have read : shaderBody.read s = (.subShader (subShaderBody.entries r), s.rest) := by
        simp [shaderBody, ShaderItem.read, child, ok]
      rw [read]
      constructor
      · intro taken
        cases taken with
        | properties comment word => exact absurd ⟨comment, word⟩ properties
        | subShader _ _ inside' reads =>
          obtain rfl := Option.some.inj (inside.symm.trans inside')
          obtain ⟨fault, rfl⟩ := SubShader.reads_iff.mp reads
          exact ⟨fault, rfl, rfl⟩
        | droppedSubShader _ _ outside => exact absurd (outside.symm.trans inside) (by simp)
        | clause other => exact (notClause other).elim
      · rintro ⟨fault, rfl, rfl⟩
        exact .subShader child.1 child.2 inside (SubShader.reads_iff.mpr ⟨fault, rfl⟩)
    · have read : shaderBody.read s = (.droppedSubShader fault, s.rest) := by
        simp [shaderBody, ShaderItem.read, child, error]
      rw [read]
      constructor
      · intro taken
        cases taken with
        | properties comment word => exact absurd ⟨comment, word⟩ properties
        | subShader _ _ inside => exact absurd (outside.symm.trans inside) (by simp)
        | droppedSubShader => exact ⟨rfl, rfl, rfl⟩
        | clause other => exact (notClause other).elim
      · rintro ⟨-, rfl, rfl⟩
        exact .droppedSubShader child.1 child.2 outside
  · have read : shaderBody.read s = (.clause (Clause.read s).1, (Clause.read s).2) :=
      (if_neg properties).trans (if_neg child)
    rw [read]
    have block := Block.takes_iff held.toBlock s
    constructor
    · intro taken
      cases taken with
      | properties comment word => exact absurd ⟨comment, word⟩ properties
      | subShader comment word | droppedSubShader comment word => exact absurd ⟨comment, word⟩ child
      | clause _ taken =>
        obtain ⟨fault, rfl, rfl⟩ := (block _ _).mp taken
        exact ⟨fault, rfl, rfl⟩
    · rintro ⟨fault, rfl, rfl⟩
      exact .clause (by tauto) ((block _ _).mpr ⟨fault, rfl, rfl⟩)

theorem Shader.reads_iff {r : Region} {name : String} {s : Shader} :
    Reads Shader.Takes (.named name) r.chars s ↔
      shaderBody.faultOf? (shaderBody.entries r) = none ∧ ofEntries name (shaderBody.entries r) = s :=
  Body.reads_iff shaderBody Shader.add Shader.takes_iff r (.named name) s

/-- The statement that a document begins with, after its comments. -/
inductive Heads : List Char → Phrase → Prop
  | here {cs : List Char} {ph : Phrase} : Phrase.first? cs = some ph → ph.kind ≠ .comment → Heads cs ph
  | past {cs : List Char} {ph header : Phrase} : Phrase.first? cs = some ph → ph.kind = .comment →
      Heads ph.rest header → Heads cs header

theorem heads_iff {r : Region} {ph : Phrase} :
    Heads r.chars ph ↔ r.header?.map Statement.phrase = some ph := by
  fun_induction Region.header? r with
  | case1 r =>
    rename_i ends
    have first : Phrase.first? r.chars = none := by
      rw [← Statement.map_phrase_first?, ends]
      rfl
    constructor
    · intro heads
      cases heads with
      | here some => simp [first] at some
      | past some => simp [first] at some
    · intro h
      simp at h
  | case2 r s =>
    rename_i starts comment ih
    have first : Phrase.first? r.chars = some s.phrase := by
      rw [← Statement.map_phrase_first?, starts]
      rfl
    rw [← ih]
    constructor
    · intro heads
      cases heads with
      | here found other =>
        obtain rfl := Option.some.inj (first.symm.trans found)
        exact absurd comment other
      | past found _ more =>
        obtain rfl := Option.some.inj (first.symm.trans found)
        exact more
    · exact .past first comment
  | case3 r s =>
    rename_i starts comment
    have first : Phrase.first? r.chars = some s.phrase := by
      rw [← Statement.map_phrase_first?, starts]
      rfl
    constructor
    · intro heads
      cases heads with
      | here found _ => rw [← found, first, Option.map_some]
      | past found is _ =>
        obtain rfl := Option.some.inj (first.symm.trans found)
        exact absurd is comment
    · intro same
      obtain rfl := Option.some.inj same
      exact .here first comment

/-- The text in which the block of a shader comes first. -/
def Phrase.blockText (ph : Phrase) : List Char :=
  if ph.kind = .block then ph.value else afterTrivia ph.rest

def Phrase.shaderName (ph : Phrase) : String := if ph.kind = .block then "" else ph.nameValue

/-- What a document says. -/
def Denotes (document : List Char) (s : Shader) : Prop :=
  ∃ header inside rest, Heads document header ∧ keyword? header.name = some .shader ∧
    header.blockText = '{' :: inside ++ '}' :: rest ∧ afterBlock? header.blockText = some rest ∧
    Reads Shader.Takes (.named header.shaderName) inside s

theorem Outline.shaderInterior_eq_ok_iff {header : Statement} {r : Region} :
    shaderInterior header = .ok r ↔ ∃ inside rest,
      header.phrase.blockText = '{' :: inside ++ '}' :: rest ∧
      afterBlock? header.phrase.blockText = some rest ∧ r = ⟨(blockPlace header).start + 1, inside⟩ := by
  have place : header.phrase.blockText = (blockPlace header).chars := by
    unfold Phrase.blockText blockPlace Region.skipTrivia
    by_cases block : header.kind = .block <;> simp [Statement.phrase, block]
  rw [place]
  unfold shaderInterior
  dsimp only
  split
  · rename_i inside opens
    have around (rest front : List Char) (closes : inside = front ++ '}' :: rest) :
        inside.take (inside.length - rest.length - 1) = front := by
      rw [closes, List.length_append, List.length_cons,
        show front.length + (rest.length + 1) - rest.length - 1 = front.length by omega, List.take_left]
    cases closed : afterBlock? ('{' :: inside) with
    | none => simp [opens, closed]
    | some rest =>
      obtain ⟨front, split⟩ := eq_append_of_afterClosing? (by rw [← afterBlock?_cons, closed])
      simp only [opens, closed, around rest front split, Except.ok.injEq, List.cons_append,
        List.cons.injEq, true_and, Option.some.injEq]
      constructor
      · rintro rfl
        exact ⟨front, rest, split, rfl, rfl⟩
      · rintro ⟨front', rest', split', rfl, rfl⟩
        rw [List.append_cancel_right (split.symm.trans split')]
  · rename_i other
    constructor
    · intro h
      simp at h
    · rintro ⟨inside, rest, opens, -, -⟩
      exact absurd opens (other _)

/-- Where the statements stand does not matter to the tree of a document. -/
theorem Shader.parse_iff_denotes {document : String} {s : Shader} :
    Shader.parse document = .ok s ↔ Denotes document.toList s := by
  rw [parse_eq_ok_iff, Outline.ofText]
  have heads (ph : Phrase) : Heads document.toList ph ↔ _ := heads_iff (r := Region.whole document.toList)
  cases found : (Region.whole document.toList).header? with
  | none =>
    simp only [Denotes, heads, found]
    simp
  | some header =>
    rw [found] at heads
    simp only [Option.map_some, Option.some.injEq] at heads
    have word : keyword? header.phrase.name = keyword? header.name.chars := rfl
    have name : header.phrase.shaderName = Outline.nameOf header := rfl
    by_cases shader : keyword? header.name.chars = some .shader
    · simp only [shader, ne_eq, not_true_eq_false, if_false]
      cases interior : Outline.shaderInterior header with
      | error fault =>
        constructor
        · intro h
          simp at h
        · rintro ⟨ph, inside, rest, head, -, opens, closes, -⟩
          obtain rfl := (heads ph).mp head
          have := Outline.shaderInterior_eq_ok_iff.mpr ⟨inside, rest, opens, closes, rfl⟩
          rw [interior] at this
          simp at this
      | ok r =>
        obtain ⟨inside, rest, opens, closes, rfl⟩ := Outline.shaderInterior_eq_ok_iff.mp interior
        dsimp only
        have reads : Reads Shader.Takes (.named (Outline.nameOf header)) inside s ↔ _ :=
          reads_iff (r := ⟨(Outline.blockPlace header).start + 1, inside⟩)
        constructor
        · rintro ⟨fault, rfl⟩
          exact ⟨header.phrase, inside, rest, (heads _).mpr rfl, shader, opens, closes,
            reads.mpr ⟨fault, rfl⟩⟩
        · rintro ⟨ph, inside', rest', head, -, opens', closes', reads'⟩
          obtain rfl := (heads ph).mp head
          obtain rfl := Option.some.inj (closes.symm.trans closes')
          obtain rfl : inside = inside' :=
            List.append_cancel_right (List.cons.inj (opens.symm.trans opens')).2
          obtain ⟨fault, rfl⟩ := reads.mp reads'
          exact ⟨fault, rfl⟩
    · constructor
      · intro h
        simp [shader] at h
      · rintro ⟨ph, inside, rest, head, word', -⟩
        obtain rfl := (heads ph).mp head
        exact absurd word' shader

end ShaderText
