import ShaderText.Proofs.Intact
import ShaderText.Proofs.Reading

/-! Reading written text. Every item of an intact block is read back where it stands, whatever follows
it, so the text of a block is read item by item. Main statement: an intact shader is read back from the
text of its rows, with its programs realigned.
-/
namespace ShaderText

def settingRows {κ : Type} [WordFamily κ] (entries : List (κ × String)) : List Row :=
  entries.map fun (key, value) => ⟨0, (WordFamily.word key).toList ++ ' ' :: value.toList⟩

theorem Settings.rows_eq {κ : Type} [WordFamily κ] (s : Settings κ) : s.rows = settingRows s.entries := by
  simp [rows, lines, settingRows, Row.ofString]

theorem Settings.insertAll_entries {κ : Type} [WordFamily κ] [DecidableEq κ] (s : Settings κ) :
    empty.insertAll s.entries = s := by
  have filled (keys : List κ) (t : Settings κ) (j : κ) :
      (t.insertAll (keys.filterMap fun k => (s.get? k).map fun value => (k, value))).get? j =
        if j ∈ keys ∧ (s.get? j).isSome then s.get? j else t.get? j := by
    induction keys generalizing t with
    | nil => rfl
    | cons k keys ih =>
      cases held : s.get? k with
      | none =>
        rw [List.filterMap_cons_none (by simp [held]), ih]
        by_cases same : j = k
        · simp [same, held]
        · simp [same]
      | some value =>
        rw [List.filterMap_cons_some (b := (k, value)) (by simp [held])]
        have first : t.insertAll
            ((k, value) :: keys.filterMap fun k => (s.get? k).map fun value => (k, value)) =
            (t.insert k value).insertAll
              (keys.filterMap fun k => (s.get? k).map fun value => (k, value)) := rfl
        rw [first, ih, get?_insert]
        by_cases same : j = k
        · simp [same, held]
        · simp [same]
  ext1
  funext j
  rw [entries, filled]
  cases held : s.get? j with
  | none => simp [empty]
  | some value => simp [WordFamily.mem_all]

theorem Row.text_shift_append {unit depth : Nat} {content : List Char} (h : content ≠ [])
    (tail : List Char) :
    (Row.shift depth ⟨0, content⟩).text unit ++ tail =
      List.replicate (unit * depth) ' ' ++ (content ++ '\n' :: tail) := by
  rw [Row.text_of_ne_nil h]
  simp [Row.shift]

section

variable {σ : Type} {takes : σ → Phrase → σ → List Char → Prop} {held last : σ}

theorem reads_congr {cs tail : List Char} (same : Phrase.first? cs = Phrase.first? tail) :
    Reads takes held cs last ↔ Reads takes held tail last := by
  cases first : Phrase.first? tail with
  | none => rw [reads_iff_of_none first, reads_iff_of_none (same.trans first)]
  | some ph => rw [reads_iff_of_some first, reads_iff_of_some (same.trans first)]

theorem reads_margin (n : Nat) (cs : List Char) :
    Reads takes held (List.replicate n ' ' ++ cs) last ↔ Reads takes held cs last :=
  reads_congr (Phrase.first?_margin n cs)

theorem reads_break (cs : List Char) : Reads takes held ('\n' :: cs) last ↔ Reads takes held cs last :=
  reads_congr (by rw [Phrase.first?, Phrase.first?, afterSpaces_cons rfl])

theorem reads_of_only {cs : List Char} {ph : Phrase} (first : Phrase.first? cs = some ph) (next : σ)
    (rest : List Char) (only : ∀ next' rest', takes held ph next' rest' ↔ next' = next ∧ rest' = rest) :
    Reads takes held cs last ↔ Reads takes next rest last := by
  rw [reads_iff_of_some first]
  constructor
  · rintro ⟨next', rest', taken, more⟩
    obtain ⟨rfl, rfl⟩ := (only _ _).mp taken
    exact more
  · intro more
    exact ⟨next, rest, (only _ _).mpr ⟨rfl, rfl⟩, more⟩

theorem reads_settings {κ : Type} [WordFamily κ] [DecidableEq κ] (put : Settings κ → σ)
    (name : ∀ k : κ, isName (WordFamily.word k).toList ∧ sentinel? (WordFamily.word k).toList = none)
    (one : ∀ (s : Settings κ) (k : κ) (value : String) (kind : Kind) (rest : List Char) (next : σ)
      (rest' : List Char), kind ≠ .comment → kind ≠ .empty →
      (takes (put s) ⟨kind, (WordFamily.word k).toList, value.toList, rest⟩ next rest' ↔
        next = put (s.insert k value) ∧ rest' = rest))
    {entries : List (κ × String)} (intact : ∀ entry ∈ entries, isSingleValue entry.2.toList)
    (s : Settings κ) (unit depth : Nat) (tail : List Char) :
    Reads takes (put s) (rowsText unit ((settingRows entries).map (Row.shift depth)) ++ tail) last ↔
      Reads takes (put (s.insertAll entries)) tail last := by
  induction entries generalizing s with
  | nil => rfl
  | cons entry entries ih =>
    obtain ⟨k, value⟩ := entry
    have single : isSingleValue value.toList := intact (k, value) List.mem_cons_self
    have later := ih (fun other member => intact other (List.mem_cons_of_mem _ member)) (s.insert k value)
    have text : rowsText unit ((settingRows ((k, value) :: entries)).map (Row.shift depth)) ++ tail =
        List.replicate (unit * depth) ' ' ++
            ((WordFamily.word k).toList ++ ' ' :: (value.toList ++ '\n' ::
          (rowsText unit ((settingRows entries).map (Row.shift depth)) ++ tail))) := by
      rw [settingRows, List.map_cons, List.map_cons, rowsText_cons, List.append_assoc,
        Row.text_shift_append (by simp)]
      simp [settingRows]
    obtain ⟨word, free⟩ := name k
    have first : Phrase.first? ((WordFamily.word k).toList ++ ' ' :: (value.toList ++ '\n' ::
        (rowsText unit ((settingRows entries).map (Row.shift depth)) ++ tail))) =
        some ⟨(Remainder.ofValue value.toList).kind, (WordFamily.word k).toList, value.toList,
          '\n' :: (rowsText unit ((settingRows entries).map (Row.shift depth)) ++ tail)⟩ := by
      rw [Phrase.first?_of_free word free isSpace_space,
        Phrase.ofWord_of_isSingleValue single isSpace_break]
    obtain ⟨noComment, nonempty⟩ := Remainder.kind_of_isSingleValue single
    rw [text, reads_margin, reads_of_only first _ _ fun next rest =>
      one s k value _ _ next rest noComment nonempty, reads_break]
    exact later

theorem reads_nothing (n : Nat) : Reads takes held (List.replicate n ' ') last ↔ held = last := by
  have first : Phrase.first? (List.replicate n ' ') = none := by
    have same := Phrase.first?_margin n []
    rw [List.append_nil] at same
    rw [same]
    rfl
  exact reads_iff_of_none first

end

/-- Whether the statements that all blocks know change a body as they change its block. -/
def TakesClauses {σ : Type} (takes : σ → Phrase → σ → List Char → Prop) (fill : Block → σ) : Prop :=
  ∀ (b : Block) (ph : Phrase) (next : σ) (rest : List Char), (∀ k ∈ keyword? ph.name, k.isClause) →
    (takes (fill b) ph next rest ↔ ∃ b', b.Takes ph b' rest ∧ next = fill b')

section

variable {ph : Phrase} {rest : List Char}

theorem Pass.takes_clause_iff {held next : Pass}
    (other : ph.kind = .comment ∨ keyword? ph.name ≠ some .name) :
    held.Takes ph next rest ↔ ∃ b, held.toBlock.Takes ph b rest ∧ next = { held with toBlock := b } := by
  constructor
  · intro taken
    cases taken with
    | name comment word => exact absurd word (other.resolve_left comment)
    | clause _ taken => exact ⟨_, taken, rfl⟩
  · rintro ⟨b, taken, rfl⟩
    exact .clause other taken

theorem SubShader.takes_clause_iff {held next : SubShader}
    (other : ph.kind = .comment ∨ keyword? ph.name ≠ some .pass) :
    held.Takes ph next rest ↔ ∃ b, held.toBlock.Takes ph b rest ∧ next = { held with toBlock := b } := by
  constructor
  · intro taken
    cases taken with
    | pass comment word | droppedPass comment word => exact absurd word (other.resolve_left comment)
    | clause _ taken => exact ⟨_, taken, rfl⟩
  · rintro ⟨b, taken, rfl⟩
    exact .clause other taken

theorem Shader.takes_clause_iff {held next : Shader} (other : ph.kind = .comment ∨
      (keyword? ph.name ≠ some .properties ∧ keyword? ph.name ≠ some .subShader)) :
    held.Takes ph next rest ↔ ∃ b, held.toBlock.Takes ph b rest ∧ next = { held with toBlock := b } := by
  constructor
  · intro taken
    cases taken with
    | properties comment word => exact absurd word (other.resolve_left comment).1
    | subShader comment word | droppedSubShader comment word =>
      exact absurd word (other.resolve_left comment).2
    | clause _ taken => exact ⟨_, taken, rfl⟩
  · rintro ⟨b, taken, rfl⟩
    exact .clause other taken

end

theorem Pass.takesClauses (name : Option String) : TakesClauses Pass.Takes fun b => ⟨b, name⟩ := by
  intro b ph next rest clause
  refine takes_clause_iff (.inr fun word => ?_)
  exact absurd (clause _ word) (by simp [Keyword.isClause])

theorem SubShader.takesClauses (passes : List Pass) :
    TakesClauses SubShader.Takes fun b => ⟨b, passes⟩ := by
  intro b ph next rest clause
  refine takes_clause_iff (.inr fun word => ?_)
  exact absurd (clause _ word) (by simp [Keyword.isClause])

theorem Shader.takesClauses (name : String) (subs : List SubShader) :
    TakesClauses Shader.Takes fun b => ⟨b, name, subs⟩ := by
  intro b ph next rest clause
  refine takes_clause_iff (.inr ⟨fun word => ?_, fun word => ?_⟩)
  · exact absurd (clause _ word) (by simp [Keyword.isClause])
  · exact absurd (clause _ word) (by simp [Keyword.isClause])

section

variable {b next : Block} {ph : Phrase} {rest : List Char}

theorem Block.takes_state_iff {k : RenderState} (comment : ph.kind ≠ .comment)
    (word : keyword? ph.name = none) (known : renderState? ph.name = some k) :
    b.Takes ph next rest ↔
      (ph.kind ≠ .empty ∧ next = { b with states := b.states.insert k (String.ofList ph.value) } ∧
        rest = ph.rest) ∨ (ph.kind = .empty ∧ next = b ∧ rest = ph.afterUnknown) := by
  constructor
  · intro taken
    cases taken with
    | remark is => exact absurd is comment
    | program _ other | tags other | stencil other | droppedStencil _ other => simp [word] at other
    | state _ nonempty _ other =>
      obtain rfl := Option.some.inj (known.symm.trans other)
      exact .inl ⟨nonempty, rfl, rfl⟩
    | unknown _ _ why =>
      rcases why with none | empty
      · simp [known] at none
      · exact .inr ⟨empty, rfl, rfl⟩
  · rintro (⟨nonempty, rfl, rfl⟩ | ⟨empty, rfl, rfl⟩)
    · exact .state comment nonempty (by simp [word]) known
    · exact .unknown comment (by simp [word]) (.inr empty)

theorem Block.takes_tags_iff (comment : ph.kind ≠ .comment) (word : keyword? ph.name = some .tags) :
    b.Takes ph next rest ↔ ph.kind = .block ∧ rest = ph.rest ∧
      ∃ pairs, ReadsTags ph.tagsText pairs ∧ next = { b with tags := b.tags.insertAll pairs } := by
  have same (k : Keyword) (other : keyword? ph.name = some k) : k = .tags :=
    Option.some.inj (other.symm.trans word)
  constructor
  · intro taken
    cases taken with
    | remark is => exact absurd is comment
    | tags _ block pairs => exact ⟨block, rfl, _, pairs, rfl⟩
    | program _ other | stencil other | droppedStencil _ other => exact absurd (same _ other) (by simp)
    | state _ _ plain | unknown _ plain => exact absurd (plain _ word) (by simp [Keyword.isClause])
  · rintro ⟨block, rfl, pairs, reads, rfl⟩
    exact .tags word block reads

theorem Block.takes_stencil_iff (comment : ph.kind ≠ .comment) (word : keyword? ph.name = some .stencil) :
    b.Takes ph next rest ↔ rest = ph.rest ∧
      ((∃ inside fields, ph.interior? = some inside ∧ Reads Settings.TakesField b.stencil inside fields ∧
        next = { b with stencil := fields }) ∨ (ph.interior? = none ∧ next = b)) := by
  have same (k : Keyword) (other : keyword? ph.name = some k) : k = .stencil :=
    Option.some.inj (other.symm.trans word)
  constructor
  · intro taken
    cases taken with
    | remark is => exact absurd is comment
    | stencil _ inside fields => exact ⟨rfl, .inl ⟨_, _, inside, fields, rfl⟩⟩
    | droppedStencil _ _ outside => exact ⟨rfl, .inr ⟨outside, rfl⟩⟩
    | program _ other | tags other => exact absurd (same _ other) (by simp)
    | state _ _ plain | unknown _ plain => exact absurd (plain _ word) (by simp [Keyword.isClause])
  · rintro ⟨rfl, ⟨inside, fields, found, reads, rfl⟩ | ⟨outside, rfl⟩⟩
    · exact .stencil word found reads
    · exact .droppedStencil comment word outside

theorem Block.takes_program_iff {sentinel : Sentinel} (comment : ph.kind ≠ .comment)
    (word : keyword? ph.name = some (.program sentinel)) :
    b.Takes ph next rest ↔ ∃ last,
      fromClosingLine? sentinel.closing.toList (afterLine ph.rest) = some last ∧
      rest = afterFirstWord last ∧
      next = { b with program := some (programLines (ph.rest.take (ph.rest.length - last.length))) } := by
  have same (k : Keyword) (other : keyword? ph.name = some k) : k = .program sentinel :=
    Option.some.inj (other.symm.trans word)
  constructor
  · intro taken
    cases taken with
    | remark is => exact absurd is comment
    | program _ other closes =>
      obtain rfl := Keyword.program.inj (same _ other)
      exact ⟨_, closes, rfl, rfl⟩
    | tags other | stencil other | droppedStencil _ other => exact absurd (same _ other) (by simp)
    | state _ _ plain | unknown _ plain => exact absurd (plain _ word) (by simp [Keyword.isClause])
  · rintro ⟨last, closes, rfl, rfl⟩
    exact .program comment word closes

end

theorem takesField_iff_of_some {s next : Settings StencilField} {ph : Phrase} {k : StencilField} {rest : List Char}
    (comment : ph.kind ≠ .comment) (nonempty : ph.kind ≠ .empty) (known : stencilField? ph.name = some k) :
    s.TakesField ph next rest ↔ next = s.insert k (String.ofList ph.value) ∧ rest = ph.rest := by
  have field : ph.field? = some (k, String.ofList ph.value) := by
    simp [Phrase.field?, comment, nonempty, known]
  unfold Settings.TakesField
  rw [field]
  constructor
  · rintro ⟨rfl, rfl⟩
    exact ⟨rfl, rfl⟩
  · rintro ⟨rfl, rfl⟩
    exact ⟨rfl, rfl⟩

theorem takesField_iff {s next : Settings StencilField} {kind : Kind} {k : StencilField} {value : String}
    {rest rest' : List Char} (comment : kind ≠ .comment) (nonempty : kind ≠ .empty) :
    s.TakesField ⟨kind, k.word.toList, value.toList, rest⟩ next rest' ↔
      next = s.insert k value ∧ rest' = rest := by
  have known : stencilField? k.word.toList = some k := WordFamily.find?_word k
  have whole : s.TakesField ⟨kind, k.word.toList, value.toList, rest⟩ next rest' ↔ _ :=
    takesField_iff_of_some comment nonempty known
  rw [whole, String.ofList_toList]

theorem takesField_iff_of_none {s next : Settings StencilField} {ph : Phrase} {rest : List Char}
    (none : ph.field? = none) : s.TakesField ph next rest ↔ next = s ∧ rest = ph.rest := by
  unfold Settings.TakesField
  rw [none]
  constructor
  · rintro ⟨rfl, rfl⟩
    exact ⟨rfl, rfl⟩
  · rintro ⟨rfl, rfl⟩
    exact ⟨rfl, rfl⟩

def pairsText (pairs : List (String × String)) : List Char :=
  pairs.flatMap fun (key, value) =>
    '"' :: (key.toList ++ ['"', ' ', '=', ' ', '"'] ++ value.toList ++ ['"', ' '])

theorem Tags.toList_line (t : Tags) :
    t.line.toList = Keyword.tags.word.toList ++ ' ' :: '{' :: ' ' :: (pairsText t.toList ++ ['}']) := by
  have joined (texts : List String) : (String.join texts).toList = texts.flatMap String.toList := by
    induction texts with
    | nil => rfl
    | cons text texts ih =>
      rw [List.flatMap_cons, ← ih]
      simp
  simp [line, joined, pairsText, List.flatMap_map, inQuotes]

theorem Tags.toList_insertAll (t : Tags) (pairs : List (String × String))
    (h : ((t.toList ++ pairs).map Prod.fst).Nodup) : (t.insertAll pairs).toList = t.toList ++ pairs := by
  have placed (key value : String) (entries : List (String × String))
      (absent : key ∉ entries.map Prod.fst) :
      put key value entries = entries ++ [(key, value)] := by
    fun_induction put key value entries with
    | case1 => rfl
    | case2 v rest => simp at absent
    | case3 k v rest other ih =>
      rw [List.map_cons, List.mem_cons, not_or] at absent
      rw [ih absent.2]
      rfl
  induction pairs generalizing t with
  | nil => simp [insertAll]
  | cons pair pairs ih =>
    obtain ⟨key, value⟩ := pair
    have absent : key ∉ t.toList.map Prod.fst := by
      rw [List.map_append, List.map_cons] at h
      intro member
      exact (List.nodup_append.mp h).2.2 key member key List.mem_cons_self rfl
    have inserted : (t.insert key value).toList = t.toList ++ [(key, value)] := placed key value _ absent
    rw [insertAll_cons, ih, inserted, List.append_assoc, List.singleton_append]
    rw [inserted, List.append_assoc, List.singleton_append]
    exact h

theorem Tags.insertAll_toList (t : Tags) : Tags.empty.insertAll t.toList = t := by
  have same := toList_insertAll .empty t.toList (by simpa [empty] using t.nodup_keys)
  cases t with
  | mk pairs nodup =>
    cases whole : Tags.empty.insertAll pairs with
    | mk pairs' nodup' =>
      rw [whole] at same
      obtain rfl : pairs' = pairs := by simpa [empty] using same
      rfl

theorem readsTags_space (cs : List Char) (pairs : List (String × String)) :
    ReadsTags (' ' :: cs) pairs ↔ ReadsTags cs pairs := by
  have same : afterTrivia (' ' :: cs) = afterTrivia cs := afterTrivia_cons rfl cs
  constructor
  · intro reads
    cases reads with
    | done blank => exact .done (same ▸ blank)
    | pair key sign value more => exact .pair (same ▸ key) sign value more
  · intro reads
    cases reads with
    | done blank => exact .done (same ▸ blank)
    | pair key sign value more => exact .pair (same ▸ key) sign value more

theorem readsTags_unique {cs : List Char} {first second : List (String × String)} (h : ReadsTags cs first)
    (h' : ReadsTags cs second) : first = second := by
  have read := (readsTags_iff (r := ⟨0, cs⟩)).mp h
  have read' := (readsTags_iff (r := ⟨0, cs⟩)).mp h'
  exact (Prod.mk.inj (read.symm.trans read')).1

theorem tagToken?_quoted {text : String} (h : IsStringBody text) (rest : List Char) :
    tagToken? ('"' :: (text.toList ++ '"' :: rest)) = some (text.toList, rest) := by
  have closes := afterQuote?_append rest h
  rw [List.append_assoc] at closes
  have closes' : afterQuote? (text.toList ++ '"' :: rest) = some rest := closes
  have length : (text.toList ++ '"' :: rest).length - rest.length - 1 = text.toList.length := by
    rw [List.length_append, List.length_cons]
    omega
  simp only [tagToken?, closes', length, List.take_left]

theorem readsTags_pairsText {pairs : List (String × String)}
    (h : ∀ pair ∈ pairs, IsStringBody pair.1 ∧ IsStringBody pair.2) :
    ReadsTags (pairsText pairs) pairs := by
  induction pairs with
  | nil => exact .done (by simp [pairsText, afterTrivia, afterSpaces, afterComment?])
  | cons pair pairs ih =>
    obtain ⟨key, value⟩ := pair
    obtain ⟨keyBody, valueBody⟩ := h (key, value) List.mem_cons_self
    have later := ih fun other member => h other (List.mem_cons_of_mem _ member)
    have text : pairsText ((key, value) :: pairs) =
        '"' :: (key.toList ++ '"' :: ' ' :: '=' :: ' ' :: '"' ::
        (value.toList ++ '"' :: ' ' :: pairsText pairs)) := by
      simp [pairsText]
    have quote : afterTrivia ('"' :: (value.toList ++ '"' :: ' ' :: pairsText pairs)) =
        '"' :: (value.toList ++ '"' :: ' ' :: pairsText pairs) := afterTrivia_of_sign rfl (by decide) _
    have readKey := tagToken?_quoted keyBody
      (' ' :: '=' :: ' ' :: '"' :: (value.toList ++ '"' :: ' ' :: pairsText pairs))
    have readValue := tagToken?_quoted valueBody (' ' :: pairsText pairs)
    have read : ReadsTags (pairsText ((key, value) :: pairs))
        ((String.ofList key.toList, String.ofList value.toList) :: pairs) := .pair
      (by rw [text, afterTrivia_of_sign rfl (by decide)]; exact readKey)
      (by rw [afterTrivia_cons rfl, afterTrivia_of_sign rfl (by decide)])
      (by rw [afterTrivia_cons rfl, quote]; exact readValue)
      ((readsTags_space _ _).mpr later)
    rwa [String.ofList_toList, String.ofList_toList] at read

theorem isNeutral_pairsText {pairs : List (String × String)}
    (h : ∀ pair ∈ pairs, IsStringBody pair.1 ∧ IsStringBody pair.2) : IsNeutral (pairsText pairs) := by
  refine IsNeutral.flatMap fun pair member => ?_
  obtain ⟨keyBody, valueBody⟩ := h pair member
  have sign : IsNeutral [' ', '=', ' '] := isNeutral_of_isPlain (by decide)
  have space : IsNeutral [' '] := isNeutral_of_isPlain (by decide)
  have split : '"' :: (pair.1.toList ++ ['"', ' ', '=', ' ', '"'] ++ pair.2.toList ++ ['"', ' ']) =
      ('"' :: (pair.1.toList ++ ['"'])) ++
          ([' ', '=', ' '] ++ (('"' :: (pair.2.toList ++ ['"'])) ++ [' '])) := by
    simp
  change IsNeutral ('"' :: (pair.1.toList ++ ['"', ' ', '=', ' ', '"'] ++ pair.2.toList ++ ['"', ' ']))
  rw [split]
  exact (isNeutral_string keyBody).append (sign.append ((isNeutral_string valueBody).append space))

section

variable {σ : Type} {takes : σ → Phrase → σ → List Char → Prop} {fill : Block → σ} {last : σ}

theorem TakesClauses.state_iff_of_some (clauses : TakesClauses takes fill) (b : Block) {ph : Phrase} {k : RenderState}
    {rest : List Char} {next : σ} (comment : ph.kind ≠ .comment) (nonempty : ph.kind ≠ .empty)
    (word : keyword? ph.name = none) (known : renderState? ph.name = some k) :
    takes (fill b) ph next rest ↔
      next = fill { b with states := b.states.insert k (String.ofList ph.value) } ∧ rest = ph.rest := by
  have plain : ∀ key ∈ keyword? ph.name, key.isClause := by simp [word]
  rw [clauses _ _ _ _ plain]
  constructor
  · rintro ⟨b', taken, rfl⟩
    rcases (Block.takes_state_iff comment word known).mp taken with ⟨-, rfl, rfl⟩ | ⟨empty, -⟩
    · exact ⟨rfl, rfl⟩
    · exact absurd empty nonempty
  · rintro ⟨rfl, rfl⟩
    exact ⟨_, (Block.takes_state_iff comment word known).mpr (.inl ⟨nonempty, rfl, rfl⟩), rfl⟩

theorem TakesClauses.state_iff (clauses : TakesClauses takes fill) (b : Block) {k : RenderState}
    {value : String} {kind : Kind} {rest rest' : List Char} {next : σ} (comment : kind ≠ .comment)
    (nonempty : kind ≠ .empty) :
    takes (fill b) ⟨kind, k.word.toList, value.toList, rest⟩ next rest' ↔
      next = fill { b with states := b.states.insert k value } ∧ rest' = rest := by
  have known : renderState? k.word.toList = some k := WordFamily.find?_word k
  have whole : takes (fill b) ⟨kind, k.word.toList, value.toList, rest⟩ next rest' ↔ _ :=
    clauses.state_iff_of_some b comment nonempty (isName_renderState k).2 known
  rw [whole, String.ofList_toList]

theorem reads_states (clauses : TakesClauses takes fill) {entries : List (RenderState × String)}
    (intact : ∀ entry ∈ entries, isSingleValue entry.2.toList) (b : Block) (unit depth : Nat)
    (tail : List Char) :
    Reads takes (fill b) (rowsText unit ((settingRows entries).map (Row.shift depth)) ++ tail) last ↔
      Reads takes (fill { b with states := b.states.insertAll entries }) tail last := by
  refine reads_settings (fun states => fill { b with states }) (fun k => ?_) ?_ intact b.states unit
    depth tail
  · have word := isName_renderState k
    exact ⟨word.1, by rw [sentinel?, show keyword? (WordFamily.word k).toList = none from word.2]⟩
  · exact fun s k value kind rest next rest' comment nonempty =>
      clauses.state_iff { b with states := s } comment nonempty

theorem reads_fields {entries : List (StencilField × String)} {fields : Settings StencilField}
    (intact : ∀ entry ∈ entries, isSingleValue entry.2.toList) (s : Settings StencilField)
    (unit depth : Nat)
    (tail : List Char) :
    Reads Settings.TakesField s
      (rowsText unit ((settingRows entries).map (Row.shift depth)) ++ tail) fields ↔
      Reads Settings.TakesField (s.insertAll entries) tail fields :=
  reads_settings id isName_stencilField
    (fun _ _ _ _ _ _ _ comment nonempty => takesField_iff comment nonempty) intact s unit depth tail

theorem reads_stencilInside {s fields : Settings StencilField} (intact : s.IsIntact) (unit depth : Nat) :
    Reads Settings.TakesField .empty (insideText unit depth s.rows) fields ↔ fields = s := by
  rw [insideText, List.cons_append, reads_break, Settings.rows_eq, reads_fields intact, reads_nothing,
    Settings.insertAll_entries, eq_comm]

theorem keyword?_tags : keyword? Keyword.tags.word.toList = some .tags := by decide

theorem keyword?_stencil : keyword? Keyword.stencil.word.toList = some .stencil := by decide

theorem TakesClauses.tags_iff (clauses : TakesClauses takes fill) (b : Block) {ph : Phrase}
    {pairs : List (String × String)} {next : σ} {rest : List Char} (block : ph.kind = .block)
    (word : keyword? ph.name = some .tags) (reads : ReadsTags ph.tagsText pairs) :
    takes (fill b) ph next rest ↔
      next = fill { b with tags := b.tags.insertAll pairs } ∧ rest = ph.rest := by
  have clause : ∀ k ∈ keyword? ph.name, k.isClause := by simp [word, Keyword.isClause]
  have comment : ph.kind ≠ .comment := by simp [block]
  rw [clauses _ _ _ _ clause]
  constructor
  · rintro ⟨b', taken, rfl⟩
    obtain ⟨-, rfl, pairs', reads', rfl⟩ := (Block.takes_tags_iff comment word).mp taken
    rw [readsTags_unique reads' reads]
    exact ⟨rfl, rfl⟩
  · rintro ⟨rfl, rfl⟩
    exact ⟨_, (Block.takes_tags_iff comment word).mpr ⟨block, rfl, _, reads, rfl⟩, rfl⟩

theorem reads_tags (clauses : TakesClauses takes fill) {t : Tags} (intact : t.IsIntact) (b : Block)
    (unit depth : Nat) (tail : List Char) :
    Reads takes (fill b) (rowsText unit (t.rows.map (Row.shift depth)) ++ tail) last ↔
      Reads takes (fill { b with tags := b.tags.insertAll t.toList }) tail last := by
  unfold Tags.rows
  by_cases none : t.isEmpty
  · have nothing : t.toList = [] := List.isEmpty_iff.mp none
    simp [none, nothing, rowsText, Tags.insertAll]
  have inside := isNeutral_pairsText intact
  have space : IsNeutral [' '] := isNeutral_of_isPlain (by decide)
  have spaced : IsNeutral (' ' :: pairsText t.toList) := space.append inside
  have text : rowsText unit ([Row.ofString t.line].map (Row.shift depth)) ++ tail =
      List.replicate (unit * depth) ' ' ++ (Keyword.tags.word.toList ++ ' ' ::
        (List.replicate 0 ' ' ++ '{' :: ((' ' :: pairsText t.toList) ++ '}' :: '\n' :: tail))) := by
    rw [List.map_singleton, rowsText_cons, List.append_assoc, Row.ofString, Tags.toList_line,
      Row.text_shift_append (by simp)]
    simp [rowsText]
  have word : sentinel? Keyword.tags.word.toList = Option.none := by rw [sentinel?, keyword?_tags]
  have first := Phrase.first?_of_free (isName_keyword .tags) word isSpace_space
    (List.replicate 0 ' ' ++ '{' :: ((' ' :: pairsText t.toList) ++ '}' :: '\n' :: tail))
  rw [Phrase.ofWord_block spaced.closes] at first
  rw [if_neg none, text, reads_margin, reads_of_only first
    (fill { b with tags := b.tags.insertAll t.toList }) ('\n' :: tail), reads_break]
  intro next rest
  have spacedPairs := (readsTags_space _ _).mpr (readsTags_pairsText intact)
  refine clauses.tags_iff b rfl keyword?_tags ?_
  rwa [Phrase.tagsText_block]

theorem TakesClauses.stencil_iff (clauses : TakesClauses takes fill) (b : Block) {ph : Phrase}
    {inside : List Char} {s : Settings StencilField} {next : σ} {rest : List Char}
    (comment : ph.kind ≠ .comment) (word : keyword? ph.name = some .stencil)
    (interior : ph.interior? = some inside)
    (only : ∀ fields, Reads Settings.TakesField b.stencil inside fields ↔ fields = s) :
    takes (fill b) ph next rest ↔ next = fill { b with stencil := s } ∧ rest = ph.rest := by
  have clause : ∀ k ∈ keyword? ph.name, k.isClause := by simp [word, Keyword.isClause]
  rw [clauses _ _ _ _ clause]
  constructor
  · rintro ⟨b', taken, rfl⟩
    obtain ⟨rfl, ⟨inside', fields, found, reads, rfl⟩ | ⟨outside, -⟩⟩ :=
      (Block.takes_stencil_iff comment word).mp taken
    · obtain rfl := Option.some.inj (interior.symm.trans found)
      rw [(only fields).mp reads]
      exact ⟨rfl, rfl⟩
    · rw [interior] at outside
      simp at outside
  · rintro ⟨rfl, rfl⟩
    exact ⟨_, (Block.takes_stencil_iff comment word).mpr
      ⟨rfl, .inl ⟨_, s, interior, (only s).mpr rfl, rfl⟩⟩, rfl⟩

theorem reads_stencil (clauses : TakesClauses takes fill) {s : Settings StencilField}
    (intact : s.IsIntact)
    (closes : Closes (flushText s.rows)) (b : Block) (empty : b.stencil = .empty) (unit depth : Nat)
    (tail : List Char) :
    Reads takes (fill b) (rowsText unit ((stencilRows s).map (Row.shift depth)) ++ tail) last ↔
      Reads takes (fill { b with stencil := s }) tail last := by
  unfold stencilRows
  by_cases none : s.isEmpty
  · have nothing : s = .empty := by
      rw [← Settings.insertAll_entries s, List.isEmpty_iff.mp none]
      rfl
    rw [if_pos none, nothing, ← empty]
    rfl
  have word : sentinel? Keyword.stencil.word.toList = Option.none := by rw [sentinel?, keyword?_stencil]
  have first := Phrase.first?_of_free (isName_keyword .stencil) word isSpace_break
    (List.replicate (unit * depth) ' ' ++ '{' :: (insideText unit depth s.rows ++ '}' :: '\n' :: tail))
  rw [Phrase.ofWord_block ((closes_insideText unit depth s.rows).mpr closes)] at first
  rw [if_neg none, rowsText_nest _ _ _ (by decide)]
  simp only [List.append_assoc, List.cons_append, List.nil_append]
  rw [reads_margin, reads_of_only first (fill { b with stencil := s }) ('\n' :: tail), reads_break]
  intro next rest
  refine clauses.stencil_iff b (by simp) keyword?_stencil (Phrase.interior?_block _ _ _) fun fields => ?_
  rw [empty]
  exact reads_stencilInside intact unit depth

theorem rowsText_lines (unit depth : Nat) (lines : List String) :
    rowsText unit ((lines.map Row.ofString).map (Row.shift depth)) =
      linesText ((lines.map String.toList).map (indentLine (unit * depth))) := by
  induction lines with
  | nil => rfl
  | cons line lines ih =>
    simp only [List.map_cons, rowsText_cons, linesText_cons, ih]
    simp [Row.text, Row.shift, Row.ofString, indentLine]

theorem isProgramLine_iff {line : String} :
    isProgramLine line ↔ '\n' ∉ line.toList ∧
      sameWord (firstWord line.toList) writtenClosing = false := by
  simp [isProgramLine]

theorem indented_of_isProgramLine {lines : List String} (h : ∀ line ∈ lines, isProgramLine line)
    (n : Nat) :
    ∀ line ∈ (lines.map String.toList).map (indentLine n),
      '\n' ∉ line ∧ sameWord (firstWord line) writtenClosing = false := by
  intro line member
  obtain ⟨raw, inRaw, rfl⟩ := List.mem_map.mp member
  obtain ⟨source, inLines, rfl⟩ := List.mem_map.mp inRaw
  obtain ⟨single, other⟩ := isProgramLine_iff.mp (h source inLines)
  exact ⟨not_mem_indentLine single n, by rw [firstWord_indentLine, other]⟩

def writtenProgram (unit depth : Nat) (sentinel : Sentinel) (lines : List String)
    (tail : List Char) : List Char :=
  linesText ((lines.map String.toList).map (indentLine (unit * depth))) ++
    (List.replicate (unit * depth) ' ' ++ (sentinel.closing.toList ++ '\n' :: tail))

theorem rowsText_program (unit depth : Nat) (sentinel : Sentinel) (lines : List String)
    (tail : List Char) :
    rowsText unit ((programRows sentinel (some lines)).map (Row.shift depth)) ++ tail =
      List.replicate (unit * depth) ' ' ++ (sentinel.word.toList ++
        '\n' :: writtenProgram unit depth sentinel lines tail) := by
  have word : sentinel.word.toList ≠ [] := by cases sentinel <;> decide
  have closing : sentinel.closing.toList ≠ [] := by cases sentinel <;> decide
  rw [programRows, List.map_append, List.map_cons, rowsText_append, rowsText_cons, rowsText_lines,
    List.append_assoc, List.append_assoc, Row.ofString, Row.text_shift_append word, List.map_singleton,
    rowsText_cons, List.append_assoc, Row.ofString, Row.text_shift_append closing]
  rfl

theorem isName_sentinel (sentinel : Sentinel) :
    isName sentinel.word.toList ∧ keyword? sentinel.word.toList = some (.program sentinel) := by
  cases sentinel <;> decide

theorem TakesClauses.program_iff (clauses : TakesClauses takes fill) (b : Block) {sentinel : Sentinel}
    (written : sentinel.closing.toList = writtenClosing) {lines : List String}
    (intact : ∀ line ∈ lines, isProgramLine line) {space : Char} (separates : isSpace space)
    (n : Nat) (tail : List Char) {next : σ} {rest : List Char} :
    takes (fill b) ⟨.program sentinel, sentinel.word.toList, [],
        '\n' :: (linesText ((lines.map String.toList).map (indentLine n)) ++
          (List.replicate n ' ' ++ (sentinel.closing.toList ++ space :: tail)))⟩ next rest ↔
      next = fill { b with program := some (realign lines) } ∧ rest = space :: tail := by
  have word : keyword? sentinel.word.toList = some (.program sentinel) := (isName_sentinel sentinel).2
  have plain := indented_of_isProgramLine intact n
  obtain ⟨here, after⟩ := fromClosingLine?_here n tail writtenClosing_ne_nil not_isSpace_writtenClosing
    separates
  generalize front : linesText ((lines.map String.toList).map (indentLine n)) = body at *
  rw [written]
  generalize ends : List.replicate n ' ' ++ (writtenClosing ++ space :: tail) = last at *
  have closes : fromClosingLine? sentinel.closing.toList (afterLine ('\n' :: (body ++ last))) =
      some last := by
    rw [written, afterLine, if_pos rfl, ← front, fromClosingLine?_append _ plain, here]
  have lined : programLines (('\n' :: (body ++ last)).take
      (('\n' :: (body ++ last)).length - last.length)) = realign lines := by
    rw [← List.cons_append, List.length_append, Nat.add_sub_cancel, List.take_left, ← front,
      programLines_linesText fun line member => (plain line member).1, align_indentLine]
    rfl
  have clause : ∀ k ∈ keyword? sentinel.word.toList, k.isClause := by simp [word, Keyword.isClause]
  rw [clauses _ _ _ _ clause]
  constructor
  · rintro ⟨b', taken, rfl⟩
    obtain ⟨found, closes', rfl, rfl⟩ := (Block.takes_program_iff (by simp) word).mp taken
    obtain rfl := Option.some.inj (closes.symm.trans closes')
    exact ⟨by rw [lined], after⟩
  · rintro ⟨rfl, rfl⟩
    exact ⟨_, (Block.takes_program_iff (by simp) word).mpr ⟨_, closes, after.symm, rfl⟩, by rw [lined]⟩

theorem reads_program (clauses : TakesClauses takes fill) {sentinel : Sentinel}
    (written : sentinel.closing.toList = writtenClosing) {program : Option (List String)}
    (intact : ∀ lines ∈ program, ∀ line ∈ lines, isProgramLine line) (b : Block)
    (empty : b.program = none)
    (unit depth : Nat) (tail : List Char) :
    Reads takes (fill b)
      (rowsText unit ((programRows sentinel program).map (Row.shift depth)) ++ tail) last ↔
      Reads takes (fill { b with program := program.map realign }) tail last := by
  cases program with
  | none =>
    have same : { b with program := Option.map realign none } = b := by rw [Option.map_none, ← empty]
    rw [same]
    rfl
  | some lines =>
  obtain ⟨name, word⟩ := isName_sentinel sentinel
  have first := Phrase.first?_of_isName name isSpace_break (writtenProgram unit depth sentinel lines tail)
  have opens : sentinel? sentinel.word.toList = some sentinel := by rw [sentinel?, word]
  rw [opens] at first
  rw [rowsText_program, reads_margin, reads_of_only first
    (fill { b with program := (some lines).map realign }) ('\n' :: tail), reads_break]
  exact fun next rest =>
    clauses.program_iff b written (intact lines rfl) isSpace_break (unit * depth) tail

/-- An intact block is read back where it stands. -/
theorem reads_block (clauses : TakesClauses takes fill) (sentinel : Sentinel)
    (written : sentinel.closing.toList = writtenClosing) {b : Block} (intact : b.IsIntact)
    (unit depth : Nat)
    (tail : List Char) :
    Reads takes (fill .empty) (rowsText unit ((b.rows sentinel).map (Row.shift depth)) ++ tail) last ↔
      Reads takes (fill b.realigned) tail last := by
  unfold Block.rows
  simp only [List.map_append, rowsText_append, List.append_assoc]
  rw [reads_tags clauses intact.tags, Settings.rows_eq, reads_states clauses intact.states,
    reads_stencil clauses intact.stencil intact.stencilCloses _ rfl,
    reads_program clauses written intact.program _ rfl]
  have tags : Block.empty.tags.insertAll b.tags.toList = b.tags := Tags.insertAll_toList b.tags
  have states : Block.empty.states.insertAll b.states.entries = b.states :=
    Settings.insertAll_entries b.states
  simp only [tags, states]
  rfl

end

theorem keyword?_name : keyword? Keyword.name.word.toList = some .name := by decide

theorem keyword?_pass : keyword? Keyword.pass.word.toList = some .pass := by decide

theorem keyword?_subShader : keyword? Keyword.subShader.word.toList = some .subShader := by decide

theorem Pass.takes_name_iff {held next : Pass} {ph : Phrase} {rest : List Char} {name : String}
    (comment : ph.kind ≠ .comment) (word : keyword? ph.name = some .name) (value : ph.nameValue = name) :
    held.Takes ph next rest ↔ next = { held with name := some name } ∧ rest = ph.rest := by
  subst value
  constructor
  · intro taken
    cases taken with
    | name => exact ⟨rfl, rfl⟩
    | clause other => exact absurd word (other.resolve_left comment)
  · rintro ⟨rfl, rfl⟩
    exact .name comment word

theorem reads_name {name : Option String} (intact : ∀ text ∈ name, IsStringBody text) {last : Pass}
    (unit depth : Nat) (tail : List Char) :
    Reads Pass.Takes (.named none) (rowsText unit ((nameRows name).map (Row.shift depth)) ++ tail) last ↔
      Reads Pass.Takes (.named name) tail last := by
  cases name with
  | none => rfl
  | some name =>
    have text : rowsText unit ((nameRows (some name)).map (Row.shift depth)) ++ tail =
        List.replicate (unit * depth) ' ' ++ (Keyword.name.word.toList ++
          ' ' :: ('"' :: (name.toList ++ '"' :: '\n' :: tail))) := by
      rw [nameRows, List.map_singleton, rowsText_cons, List.append_assoc, Row.ofString,
        Row.text_shift_append (by simp [Keyword.word, WordFamily.word])]
      simp [rowsText, inQuotes]
    have word : sentinel? Keyword.name.word.toList = none := by rw [sentinel?, keyword?_name]
    have first := Phrase.first?_of_free (isName_keyword .name) word isSpace_space
      ('"' :: (name.toList ++ '"' :: '\n' :: tail))
    rw [Phrase.ofWord_quoted (intact name rfl)] at first
    have value := Phrase.nameValue_quoted .quoted Keyword.name.word.toList name.toList ('\n' :: tail)
    rw [text, reads_margin, reads_of_only first (.named (some name)) ('\n' :: tail), reads_break]
    exact fun next rest => Pass.takes_name_iff (by simp) keyword?_name (by rw [value, String.ofList_toList])

theorem isNeutral_nameRows {name : Option String} (h : ∀ text ∈ name, IsStringBody text) :
    IsNeutral (rowsText 0 (nameRows name)) := by
  cases name with
  | none => exact isNeutral_nil
  | some name =>
    have text : rowsText 0 (nameRows (some name)) = ['n', 'a', 'm', 'e', ' '] ++
        ('"' :: (name.toList ++ ['"']) ++ ['\n']) := by
      simp [rowsText, nameRows, Row.text, Row.ofString, inQuotes, Keyword.word, WordFamily.word]
    have word : IsNeutral ['n', 'a', 'm', 'e', ' '] := isNeutral_of_isPlain (by decide)
    rw [text]
    exact word.append ((isNeutral_string (h name rfl)).append isNeutral_break)

theorem Pass.IsIntact.reads_inside {p last : Pass} (intact : p.IsIntact) (unit depth : Nat) :
    Reads Pass.Takes (.named none) (insideText unit depth p.innerRows) last ↔ last = p.realigned := by
  unfold insideText innerRows
  rw [List.cons_append, reads_break, List.map_append, rowsText_append, List.append_assoc,
    reads_name intact.name]
  have block : Reads Pass.Takes (.named p.name) _ last ↔ _ := reads_block (Pass.takesClauses p.name)
    Pass.sentinel rfl intact.block unit (depth + 1) (List.replicate (unit * depth) ' ')
  rw [block, reads_nothing, eq_comm]
  rfl

theorem reads_children {σ γ : Type} {takes : σ → Phrase → σ → List Char → Prop} {last : σ}
    (word : Keyword)
    (free : sentinel? word.word.toList = none) {rows : γ → List Row} {final : γ → γ} (put : List γ → σ)
    {unit depth : Nat} {items : List γ} (closes : ∀ item ∈ items, Closes (flushText (rows item)))
    (child : ∀ item ∈ items, ∀ (done : List γ) (ph : Phrase) (next : σ) (rest : List Char),
      ph.kind ≠ .comment → keyword? ph.name = some word →
      ph.interior? = some (insideText unit depth (rows item)) →
      (takes (put done) ph next rest ↔ next = put (done ++ [final item]) ∧ rest = ph.rest))
    (done : List γ) (tail : List Char) :
    Reads takes (put done) (rowsText unit
        ((items.flatMap fun item => nest word.word (rows item)).map (Row.shift depth)) ++ tail) last ↔
      Reads takes (put (done ++ items.map final)) tail last := by
  induction items generalizing done with
  | nil =>
    rw [List.map_nil, List.append_nil]
    rfl
  | cons item items ih =>
    have later := ih (fun other member => closes other (List.mem_cons_of_mem _ member))
      (fun other member => child other (List.mem_cons_of_mem _ member)) (done ++ [final item])
    have inside := (closes_insideText unit depth (rows item)).mpr (closes item List.mem_cons_self)
    have filled : word.word.toList ≠ [] := fun empty => by
      have name := isName_keyword word
      rw [empty] at name
      simp [isName] at name
    rw [List.flatMap_cons, List.map_append, rowsText_append, rowsText_nest _ _ _ filled]
    simp only [List.append_assoc, List.cons_append, List.nil_append]
    have first := Phrase.first?_of_free (isName_keyword word) free isSpace_break
      (List.replicate (unit * depth) ' ' ++ '{' :: (insideText unit depth (rows item) ++ '}' :: '\n' ::
        (rowsText unit ((items.flatMap fun item => nest word.word (rows item)).map
          (Row.shift depth)) ++ tail)))
    rw [Phrase.ofWord_block inside] at first
    -- The block closes, so the first statement is the child and nothing of the children after it.
    rw [reads_margin, reads_of_only first _ _ fun next rest =>
      child item List.mem_cons_self done _ next rest
      (by simp) (WordFamily.find?_word word) (Phrase.interior?_block _ _ _), reads_break, later,
      List.append_assoc, List.map_cons, List.singleton_append]

theorem SubShader.takes_pass_iff {held next : SubShader} {ph : Phrase} {inside rest : List Char}
    {p : Pass} (comment : ph.kind ≠ .comment) (word : keyword? ph.name = some .pass)
    (interior : ph.interior? = some inside)
    (only : ∀ last, Reads Pass.Takes (.named none) inside last ↔ last = p) :
    held.Takes ph next rest ↔ next = { held with passes := held.passes ++ [p] } ∧ rest = ph.rest := by
  constructor
  · intro taken
    cases taken with
    | pass _ _ found reads =>
      obtain rfl := Option.some.inj (interior.symm.trans found)
      rw [(only _).mp reads]
      exact ⟨rfl, rfl⟩
    | droppedPass _ _ outside => simp [interior] at outside
    | clause other => exact absurd word (other.resolve_left comment)
  · rintro ⟨rfl, rfl⟩
    exact .pass comment word interior ((only _).mpr rfl)

theorem reads_passes {passes : List Pass} (intact : ∀ p ∈ passes, p.IsIntact) (b : Block)
    {last : SubShader}
    (unit depth : Nat) (tail : List Char) :
    Reads SubShader.Takes ⟨b, []⟩
      (rowsText unit ((passes.flatMap Pass.rows).map (Row.shift depth)) ++ tail) last ↔
      Reads SubShader.Takes ⟨b, passes.map Pass.realigned⟩ tail last := by
  have word : sentinel? Keyword.pass.word.toList = none := by rw [sentinel?, keyword?_pass]
  refine reads_children .pass word (SubShader.mk b) (fun p member => (intact p member).closes) ?_ [] tail
  intro p member done ph next rest comment name interior
  exact SubShader.takes_pass_iff comment name interior fun last =>
    (intact p member).reads_inside unit depth

theorem SubShader.IsIntact.reads_inside {s last : SubShader} (intact : s.IsIntact) (unit depth : Nat) :
    Reads SubShader.Takes .empty (insideText unit depth s.innerRows) last ↔ last = s.realigned := by
  unfold insideText innerRows
  have block : Reads SubShader.Takes .empty _ last ↔ _ := reads_block (SubShader.takesClauses [])
    Shader.sentinel rfl intact.block unit (depth + 1)
      (rowsText unit ((s.passes.flatMap Pass.rows).map (Row.shift (depth + 1))) ++
        List.replicate (unit * depth) ' ')
  rw [List.cons_append, reads_break, List.map_append, rowsText_append, List.append_assoc, block,
    reads_passes intact.passes, reads_nothing, eq_comm]
  rfl

theorem Shader.takes_subShader_iff {held next : Shader} {ph : Phrase} {inside rest : List Char}
    {sub : SubShader} (comment : ph.kind ≠ .comment) (word : keyword? ph.name = some .subShader)
    (interior : ph.interior? = some inside)
    (only : ∀ last, Reads SubShader.Takes .empty inside last ↔ last = sub) :
    held.Takes ph next rest ↔
      next = { held with subShaders := held.subShaders ++ [sub] } ∧ rest = ph.rest := by
  constructor
  · intro taken
    cases taken with
    | subShader _ _ found reads =>
      obtain rfl := Option.some.inj (interior.symm.trans found)
      rw [(only _).mp reads]
      exact ⟨rfl, rfl⟩
    | droppedSubShader _ _ outside => simp [interior] at outside
    | properties _ other => simp [word] at other
    | clause other => exact absurd word (other.resolve_left comment).2
  · rintro ⟨rfl, rfl⟩
    exact .subShader comment word interior ((only _).mpr rfl)

theorem reads_subShaders {subs : List SubShader} (intact : ∀ sub ∈ subs, sub.IsIntact) (b : Block)
    (name : String) {last : Shader} (unit depth : Nat) (tail : List Char) :
    Reads Shader.Takes ⟨b, name, []⟩
        (rowsText unit ((subs.flatMap SubShader.rows).map (Row.shift depth)) ++ tail) last ↔
      Reads Shader.Takes ⟨b, name, subs.map SubShader.realigned⟩ tail last := by
  have word : sentinel? Keyword.subShader.word.toList = none := by rw [sentinel?, keyword?_subShader]
  refine reads_children .subShader word (Shader.mk b name)
    (fun sub member => (intact sub member).closes) ?_ [] tail
  intro sub member done ph next rest comment known interior
  exact Shader.takes_subShader_iff comment known interior fun last =>
    (intact sub member).reads_inside unit depth

theorem Shader.IsIntact.reads_inside {s last : Shader} (intact : s.IsIntact) (unit depth : Nat) :
    Reads Shader.Takes (.named s.name) (insideText unit depth s.innerRows) last ↔ last = s.realigned := by
  unfold insideText innerRows
  have block : Reads Shader.Takes (.named s.name) _ last ↔ _ :=
    reads_block (Shader.takesClauses s.name [])
    Shader.sentinel rfl intact.block unit (depth + 1)
      (rowsText unit ((s.subShaders.flatMap SubShader.rows).map (Row.shift (depth + 1))) ++
        List.replicate (unit * depth) ' ')
  rw [List.cons_append, reads_break, List.map_append, rowsText_append, List.append_assoc, block,
    reads_subShaders intact.subShaders, reads_nothing, eq_comm]
  rfl

/-- A written shader with any text after its block. -/
def documentText (unit : Nat) (s : Shader) (tail : List Char) : List Char :=
  Keyword.shader.word.toList ++ ' ' :: '"' :: (s.name.toList ++ '"' :: '\n' :: '{' ::
    (insideText unit 0 s.innerRows ++ '}' :: tail))

theorem Shader.rowsText_rows (unit : Nat) (s : Shader) :
    rowsText unit s.rows = documentText unit s ['\n'] := by
  rw [← map_shift_zero s.rows, Shader.rows, rowsText_nest _ _ _ (by simp [Keyword.word, WordFamily.word])]
  simp [documentText, inQuotes]

theorem keyword?_shader : keyword? Keyword.shader.word.toList = some .shader := by decide

theorem heads_of_first? {cs : List Char} {ph header : Phrase} (first : Phrase.first? cs = some ph)
    (comment : ph.kind ≠ .comment) : Heads cs header ↔ header = ph := by
  constructor
  · intro heads
    cases heads with
    | here found => exact Option.some.inj (found.symm.trans first)
    | past found is =>
      obtain rfl := Option.some.inj (found.symm.trans first)
      exact absurd is comment
  · rintro rfl
    exact .here first comment

theorem Shader.first?_documentText (unit : Nat) (s : Shader) (tail : List Char) :
    Phrase.first? (documentText unit s tail) = some (.ofWord Keyword.shader.word.toList
      ('"' :: (s.name.toList ++ '"' :: '\n' :: '{' ::
        (insideText unit 0 s.innerRows ++ '}' :: tail)))) := by
  have word : sentinel? Keyword.shader.word.toList = none := by rw [sentinel?, keyword?_shader]
  exact Phrase.first?_of_free (isName_keyword .shader) word isSpace_space _

theorem Shader.denotes_documentText_iff_reads {s last : Shader} (name : IsStringBody s.name)
    (unit : Nat) (tail : List Char) :
    Denotes (documentText unit s tail) last ↔ ∃ inside rest,
      '{' :: (insideText unit 0 s.innerRows ++ '}' :: tail) = '{' :: inside ++ '}' :: rest ∧
      afterBlock? ('{' :: (insideText unit 0 s.innerRows ++ '}' :: tail)) = some rest ∧
      Reads Shader.Takes (.named s.name) inside last := by
  have first := first?_documentText unit s tail
  rw [Phrase.ofWord_quoted name] at first
  have skipped : afterTrivia ('\n' :: '{' :: (insideText unit 0 s.innerRows ++ '}' :: tail)) =
      '{' :: (insideText unit 0 s.innerRows ++ '}' :: tail) := by
    rw [afterTrivia_cons rfl, afterTrivia_of_sign rfl (by decide)]
  constructor
  · rintro ⟨header, inside, rest, heads, -, split, ends, reads⟩
    obtain rfl := (heads_of_first? first (by simp)).mp heads
    simp only [Phrase.blockText, reduceCtorEq, if_false, skipped] at split ends
    simp only [Phrase.shaderName, reduceCtorEq, if_false, Phrase.nameValue_quoted,
      String.ofList_toList] at reads
    exact ⟨inside, rest, split, ends, reads⟩
  · rintro ⟨inside, rest, split, ends, reads⟩
    refine ⟨_, inside, rest, .here first (by simp), keyword?_shader, ?_, ?_, ?_⟩
    · simpa only [Phrase.blockText, reduceCtorEq, if_false, skipped] using split
    · simpa only [Phrase.blockText, reduceCtorEq, if_false, skipped] using ends
    · simpa only [Phrase.shaderName, reduceCtorEq, if_false, Phrase.nameValue_quoted,
        String.ofList_toList] using reads

/-- An intact shader is read back from its text, whatever follows its block. -/
theorem Shader.denotes_documentText {s last : Shader} (intact : s.IsIntact) (unit : Nat)
    (tail : List Char) : Denotes (documentText unit s tail) last ↔ last = s.realigned := by
  have closes := (closes_insideText unit 0 s.innerRows).mpr intact.closes
  rw [denotes_documentText_iff_reads intact.name]
  constructor
  · rintro ⟨inside, rest, split, ends, reads⟩
    obtain rfl := Option.some.inj ((afterBlock?_of_closes closes tail).symm.trans ends)
    obtain rfl : insideText unit 0 s.innerRows = inside :=
      List.append_cancel_right (List.cons.inj split).2
    exact (intact.reads_inside unit 0).mp reads
  · rintro rfl
    exact ⟨_, tail, rfl, afterBlock?_of_closes closes tail, (intact.reads_inside unit 0).mpr rfl⟩

/-- An intact shader without shared indentation is read back from its rendering. -/
theorem Shader.parse_render_of_isIntact {s : Shader} (intact : s.IsIntact) (aligned : s.realigned = s) :
    Shader.parse s.render = .ok s := by
  rw [parse_iff_denotes, toList_render, rowsText_rows, denotes_documentText intact, aligned]

end ShaderText
