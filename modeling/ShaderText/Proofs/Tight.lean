import ShaderText.Proofs.Weight

/-! Reading without text to spare. When the text of a tree is read as the tree, every statement has to
pay for an item: one that is read as something else leaves too little text for the rest. The induction
goes from one item to the next, and into a block as soon as the block is known not to end too late.
Main statement: written text that is read as its tree is the text of an intact tree.
-/
namespace ShaderText

theorem IsCut.of_spaces {cs : List Char} {n : Nat} (h : IsCut cs (List.replicate n ' ')) :
    cs = List.replicate n ' ' := by
  have cut : IsCut cs (List.replicate n ' ' ++ []) := by rwa [List.append_nil]
  obtain ⟨rest, rfl, missing, whole, -⟩ := cut.of_append fun member =>
    absurd (List.eq_of_mem_replicate member) (by decide)
  rw [(List.append_eq_nil_iff.mp whole.symm).1, List.append_nil]

theorem Phrase.kind_ofWord (word after : List Char) : (ofWord word after).kind ≠ .comment := by
  unfold ofWord Remainder.ofValue
  split <;> simp

theorem Phrase.weight_ofWord_le {word : List Char} {space : Char} (name : isName word)
    (free : sentinel? word = none) (separates : isSpace space) (n : Nat) (after : List Char) :
    ShaderText.weight word + ShaderText.weight (ofWord word after).value +
      ShaderText.weight (ofWord word after).rest ≤
        ShaderText.weight (List.replicate n ' ' ++ (word ++ space :: after)) := by
  have first := first?_of_free name free separates after
  rw [← first?_margin n] at first
  exact weight_le_of_first? first

section

variable {σ : Type} {takes : σ → Phrase → σ → List Char → Prop} {last : σ}

theorem exists_takes_of_reads {held : σ} {n : Nat} {word after : List Char} {space : Char}
    (name : isName word)
    (free : sentinel? word = none) (separates : isSpace space)
    (h : Reads takes held (List.replicate n ' ' ++ (word ++ space :: after)) last) :
    ∃ next rest, takes held (.ofWord word after) next rest ∧ Reads takes next rest last := by
  have first := Phrase.first?_of_free name free separates after
  rw [reads_margin, reads_iff_of_some first] at h
  exact h

theorem exists_takes_of_cut {held : σ} {n : Nat} {word cs content : List Char} {space : Char}
    (name : isName word) (free : sentinel? word = none) (separates : isSpace space)
    (noBrace : '}' ∉ word) (cut : IsCut cs (List.replicate n ' ' ++ (word ++ space :: content)))
    (reads : Reads takes held cs last) :
    ∃ after next rest, cs = List.replicate n ' ' ++ (word ++ space :: after) ∧ IsCut after content ∧
      takes held (.ofWord word after) next rest ∧ Reads takes next rest last ∧
      weight word + weight (Phrase.ofWord word after).value + weight (Phrase.ofWord word after).rest ≤
        weight cs := by
  have sign : '}' ≠ space := by
    rintro rfl
    simp [isSpace] at separates
  have margin : '}' ∉ List.replicate n ' ' ++ (word ++ [space]) := by
    simp [List.mem_replicate, noBrace, sign]
  have whole (tail : List Char) : List.replicate n ' ' ++ (word ++ space :: tail) =
      (List.replicate n ' ' ++ (word ++ [space])) ++ tail := by simp
  rw [whole] at cut
  obtain ⟨after, rfl, cut'⟩ := cut.of_append margin
  rw [← whole] at reads ⊢
  obtain ⟨next, rest, taken, more⟩ := exists_takes_of_reads name free separates reads
  exact ⟨after, next, rest, rfl, cut', taken, more, Phrase.weight_ofWord_le name free separates n after⟩

theorem settings_tight {κ : Type} [WordFamily κ] [DecidableEq κ] (put : Settings κ → σ)
    (owed : Settings κ → Nat) (goal s : Settings κ) (spare : Nat)
    (name : ∀ k : κ, isName (WordFamily.word k).toList ∧ sentinel? (WordFamily.word k).toList = none)
    (noBrace : ∀ k : κ, '}' ∉ (WordFamily.word k).toList)
    (heavy : ∀ k : κ, 0 < weight (WordFamily.word k).toList)
    (one : ∀ (s : Settings κ) (k : κ) (ph : Phrase) (next : σ) (rest : List Char),
      ph.kind ≠ .comment → ph.name = (WordFamily.word k).toList → takes (put s) ph next rest →
      (ph.kind ≠ .empty ∧ next = put (s.insert k (String.ofList ph.value)) ∧ rest = ph.rest) ∨
        (next = put s ∧ weight rest ≤ weight ph.rest))
    (bound : ∀ s cs, Reads takes (put s) cs last → owed s ≤ weight cs + spare)
    (pays : ∀ s k (value : String), owed s ≤
      owed (s.insert k value) + (weight (WordFamily.word k).toList + weight value.toList))
    (wrong : ∀ s k value, goal.get? k ≠ some value → owed s ≤ owed (s.insert k value))
    {entries : List (κ × String)} (wanted : ∀ entry ∈ entries, goal.get? entry.1 = some entry.2)
    {unit depth : Nat} {cs text : List Char}
    (cut : IsCut cs (rowsText unit ((settingRows entries).map (Row.shift depth)) ++ text))
    (reads : Reads takes (put s) cs last) (tight : weight cs + spare ≤ owed s) :
    (∀ entry ∈ entries, isSingleValue entry.2.toList) ∧
      ∃ cs', cs = rowsText unit ((settingRows entries).map (Row.shift depth)) ++ cs' ∧ IsCut cs' text ∧
        Reads takes (put (s.insertAll entries)) cs' last ∧
            weight cs' + spare ≤ owed (s.insertAll entries) := by
  induction entries generalizing s cs with
  | nil => exact ⟨by simp, cs, rfl, cut, reads, tight⟩
  | cons entry entries ih =>
    obtain ⟨k, value⟩ := entry
    obtain ⟨word, free⟩ := name k
    have row (tail : List Char) :
        rowsText unit ((settingRows ((k, value) :: entries)).map (Row.shift depth)) ++ tail =
          List.replicate (unit * depth) ' ' ++ ((WordFamily.word k).toList ++ ' ' :: (value.toList ++
            '\n' :: (rowsText unit ((settingRows entries).map (Row.shift depth)) ++ tail))) := by
      rw [settingRows, List.map_cons, List.map_cons, rowsText_cons, List.append_assoc,
        Row.text_shift_append (by simp)]
      simp [settingRows]
    rw [row] at cut
    obtain ⟨after, next, rest, rfl, cut', taken, more, spent⟩ :=
      exists_takes_of_cut word free isSpace_space (noBrace k) cut reads
    have positive := heavy k
    rcases one s k (.ofWord (WordFamily.word k).toList after) next rest
      (Phrase.kind_ofWord _ _) rfl taken with ⟨nonempty, rfl, rfl⟩ | ⟨rfl, dropped⟩
    · have later := bound _ _ more
      by_cases right : String.ofList (Phrase.ofWord (WordFamily.word k).toList after).value = value
      · have same : (Phrase.ofWord (WordFamily.word k).toList after).value = value.toList := by
          rw [← right, String.toList_ofList]
        obtain ⟨single, rest, rfl, cut''⟩ := Phrase.isSingleValue_of_ofWord nonempty same cut'
        rw [Phrase.ofWord_of_isSingleValue single isSpace_break] at more
        rw [String.ofList_toList, reads_break] at more
        have paid := pays s k value
        have weighed : weight (List.replicate (unit * depth) ' ' ++ ((WordFamily.word k).toList ++ ' ' ::
            (value.toList ++ '\n' :: rest))) =
            weight (WordFamily.word k).toList + weight value.toList + weight rest := by
          simp [weight_append, weight_cons, weight_replicate_space, show isHeavy ' ' = false by decide,
            show isHeavy '\n' = false by decide, Nat.add_assoc]
        obtain ⟨singles, cs', rfl, later', reads', tight'⟩ :=
          ih _ (fun other member => wanted other (List.mem_cons_of_mem _ member)) cut'' more (by omega)
        refine ⟨?_, cs', ?_, later', reads', tight'⟩
        · intro entry member
          rcases List.mem_cons.mp member with rfl | member
          · exact single
          · exact singles entry member
        · rw [row]
      -- Another value is paid for and leaves as much owed as before.
      · have other : goal.get? k ≠
            some (String.ofList (Phrase.ofWord (WordFamily.word k).toList after).value) := by
          rw [show goal.get? k = some value from wanted (k, value) List.mem_cons_self, ne_eq,
            Option.some.injEq]
          exact Ne.symm right
        have unpaid := wrong s k _ other
        omega
    · have later := bound _ _ more
      omega

end

theorem split_of_tagToken?_quote {cs token rest : List Char}
    (h : tagToken? ('"' :: cs) = some (token, rest)) :
    cs = token ++ '"' :: rest ∧ IsStringBody (String.ofList token) := by
  simp only [tagToken?] at h
  split at h
  · simp at h
  · rename_i rest' closes
    obtain ⟨rfl, rfl⟩ := Prod.mk.inj (Option.some.inj h)
    obtain ⟨inside, rfl⟩ := eq_append_of_afterQuote? closes
    have length : (inside ++ '"' :: rest').length - rest'.length - 1 = inside.length := by
      rw [List.length_append, List.length_cons]
      omega
    rw [length, List.take_left]
    refine ⟨rfl, afterQuote?_of_append rest' ?_⟩
    rw [String.toList_ofList, List.append_assoc]
    exact closes

theorem IsCut.of_append_left {cs front text : List Char} (h : IsCut (front ++ cs) (front ++ text)) :
    IsCut cs text := by
  obtain ⟨missing, whole, kind⟩ := h
  rw [List.append_assoc] at whole
  exact ⟨missing, List.append_cancel_left whole, kind⟩

theorem Tags.eq_of_insert_pays {goal held : Tags} {entries : List (String × String)}
    {key value x y : String}
    (whole : goal.toList = held.toList ++ (key, value) :: entries)
    (order : (held.insert x y).keys <+: goal.keys)
    (pays : goal.owedEntries (held.insert x y) < goal.owedEntries held) : x = key ∧ y = value := by
  have wanted : (x, y) ∈ goal.toList ∧ held.get? x ≠ some y := by
    by_contra other
    have unpaid := goal.owedEntries_le_insert_of_ne held fun member : (x, y) ∈ goal.toList => by tauto
    omega
  obtain ⟨member, missing⟩ := wanted
  have found := get?_of_mem member
  have absent : x ∉ held.keys := by
    intro inHeld
    obtain ⟨pair, inPairs, same⟩ := List.mem_map.mp inHeld
    have inGoal : pair ∈ goal.toList := by
      rw [whole]
      exact List.mem_append_left _ inPairs
    have found' := get?_of_mem inGoal
    have held' := get?_of_mem inPairs
    rw [same] at found' held'
    rw [found] at found'
    rw [← found'] at held'
    exact missing held'
  have keys : goal.keys = held.keys ++ key :: entries.map Prod.fst := by
    unfold Tags.keys
    rw [whole, List.map_append, List.map_cons]
  rw [keys_insert, if_neg absent, keys, List.prefix_append_right_inj] at order
  obtain rfl : x = key := (List.cons_prefix_cons.mp order).1
  have next : (x, value) ∈ goal.toList := by
    rw [whole]
    simp
  have found' := get?_of_mem next
  rw [found] at found'
  exact ⟨rfl, Option.some.inj found'⟩

theorem Tags.toList_insert_of_not_mem {held : Tags} {key value : String} (absent : key ∉ held.keys) :
    (held.insert key value).toList = held.toList ++ [(key, value)] := by
  refine held.toList_insertAll [(key, value)] ?_
  rw [List.map_append]
  refine List.nodup_append.mpr ⟨held.nodup_keys, by simp, fun a inHeld b single => ?_⟩
  obtain rfl : b = key := by simpa using single
  exact fun equal => absent (equal ▸ inHeld)

theorem Tags.eq_of_toList {t u : Tags} (h : t.toList = u.toList) : t = u := by
  cases t
  cases u
  obtain rfl : _ = _ := h
  rfl

theorem readsTags_tight {goal : Tags} (held : Tags) {entries pairs : List (String × String)}
    {cs text : List Char}
    (whole : goal.toList = held.toList ++ entries) (reads : ReadsTags cs pairs)
    (cut : IsCut cs (pairsText entries ++ '}' :: text))
    (order : (held.insertAll pairs).keys <+: goal.keys)
    (tight : weight cs + goal.owedEntries (held.insertAll pairs) ≤ goal.owedEntries held) :
    pairs = entries ∧ cs = pairsText entries ∧
      ∀ pair ∈ entries, IsStringBody pair.1 ∧ IsStringBody pair.2 := by
  induction entries generalizing held pairs cs with
  | nil =>
    have same : held = goal := Tags.eq_of_toList (by rw [whole, List.append_nil])
    rw [same, Tags.owedEntries_self] at tight
    cases reads with
    | done blank =>
      refine ⟨rfl, ?_, by simp⟩
      obtain ⟨missing, split, -⟩ := cut
      cases cs with
      | nil => rfl
      | cons c cs =>
        obtain ⟨rfl, -⟩ := List.cons.inj split
        rw [afterTrivia_of_sign rfl (by decide)] at blank
        simp at blank
    | pair key sign value _ =>
      have paid := weight_pair_le key sign value
      omega
  | cons entry entries ih =>
    obtain ⟨key, value⟩ := entry
    have text' : pairsText ((key, value) :: entries) ++ '}' :: text = '"' :: (key.toList ++
        ('"' :: ' ' :: '=' :: ' ' :: '"' ::
            (value.toList ++ ('"' :: ' ' :: (pairsText entries ++ '}' :: text))))) := by
      simp [pairsText]
    rw [text'] at cut
    obtain ⟨cs, rfl, cut'⟩ := cut.of_cons (by decide)
    have opens := afterTrivia_of_sign (c := '"') rfl (by decide) cs
    cases reads with
    | done blank => simp [opens] at blank
    | @pair _ x afterKey afterSign y rest pairs readKey sign readValue more =>
      have paid := weight_pair_le readKey sign readValue
      have later := goal.owedEntries_le_of_reads (held.insert (String.ofList x) (String.ofList y)) more
      have order' : (held.insert (String.ofList x) (String.ofList y)).keys <+: goal.keys :=
        (Tags.keys_prefix_insertAll _ pairs).trans order
      rw [Tags.insertAll_cons] at order tight
      -- Keys never change their order, so the pair that pays for its text is the one owed next.
      obtain ⟨sameKey, sameValue⟩ := Tags.eq_of_insert_pays whole order' (by omega)
      have spent := goal.owedEntries_le_insert held key value
      obtain rfl : x = key.toList := by rw [← sameKey, String.toList_ofList]
      obtain rfl : y = value.toList := by rw [← sameValue, String.toList_ofList]
      simp only [String.ofList_toList] at *
      rw [opens] at readKey
      obtain ⟨rfl, keyBody⟩ := split_of_tagToken?_quote readKey
      have cutSign : IsCut ('"' :: afterKey) (['"', ' ', '=', ' ', '"'] ++ _) := cut'.of_append_left
      obtain ⟨after, between, cut''⟩ := cutSign.of_append (by decide)
      obtain rfl : afterKey = ' ' :: '=' :: ' ' :: '"' :: after := by simpa using between
      rw [afterTrivia_cons rfl, afterTrivia_of_sign rfl (by decide)] at sign
      obtain rfl : ' ' :: '"' :: after = afterSign := by simpa using sign
      rw [afterTrivia_cons rfl, afterTrivia_of_sign rfl (by decide)] at readValue
      obtain ⟨rfl, valueBody⟩ := split_of_tagToken?_quote readValue
      have cutRest : IsCut ('"' :: rest) (['"', ' '] ++ _) := cut''.of_append_left
      obtain ⟨cs', ends, cut'''⟩ := cutRest.of_append (by decide)
      obtain rfl : rest = ' ' :: cs' := by simpa using ends
      rw [readsTags_space] at more
      have absent : key ∉ held.keys := by
        have nodup := goal.nodup_keys
        rw [whole, List.map_append, List.map_cons] at nodup
        exact fun member => (List.nodup_append.mp nodup).2.2 key member key List.mem_cons_self rfl
      have whole' : goal.toList = (held.insert key value).toList ++ entries := by
        rw [Tags.toList_insert_of_not_mem absent, whole, List.append_assoc, List.singleton_append]
      have spaced : weight (' ' :: cs') = weight cs' := by rw [weight_cons]; rfl
      obtain ⟨rfl, rfl, bodies⟩ := ih _ whole' more cut''' order (by omega)
      rw [String.ofList_toList] at keyBody valueBody
      refine ⟨rfl, by simp [pairsText], fun pair member => ?_⟩
      rcases List.mem_cons.mp member with rfl | member
      · exact ⟨keyBody, valueBody⟩
      · exact bodies pair member

theorem Phrase.split_of_tagsText {word after : List Char} (h : (ofWord word after).kind = .block) :
    ∃ inside, afterSpaces after = '{' :: inside ∧
      (inside = (ofWord word after).tagsText ++ '}' :: (ofWord word after).rest ∨
        (inside = (ofWord word after).tagsText ∧ (ofWord word after).rest = [])) := by
  obtain ⟨inside, opens, ends⟩ := ofWord_of_kind_block h
  have nonempty : (ofWord word after).kind ≠ .empty := by simp [h]
  obtain ⟨filled, split⟩ := ofWord_split nonempty
  refine ⟨inside, opens, ?_⟩
  have whole : inside = (ofWord word after).value.tail ++ (ofWord word after).rest := by
    rw [opens] at split
    cases value : (ofWord word after).value with
    | nil => exact absurd value filled
    | cons c cs =>
      rw [value] at split
      exact (List.cons.inj split).2
  unfold tagsText
  split
  · rename_i last
    obtain ⟨front, value⟩ := List.getLast?_eq_some_iff.mp last
    refine .inl ?_
    conv => lhs; rw [whole, value]
    rw [value, List.dropLast_concat, List.append_assoc]
    rfl
  · rename_i last
    cases closes : afterBlock? ('{' :: inside) with
    | none =>
      rw [closes] at ends
      refine .inr ⟨?_, ends⟩
      conv => lhs; rw [whole, ends]
      exact List.append_nil _
    | some rest =>
      rw [closes, Option.getD_some] at ends
      rw [afterBlock?_cons] at closes
      obtain ⟨front, split'⟩ := eq_append_of_afterClosing? closes
      rw [ends, split', ← List.singleton_append, ← List.append_assoc] at whole
      have value := List.append_cancel_right whole
      rw [← value] at last
      simp at last

theorem noBrace_margin (n : Nat) {word : List Char} (h : '}' ∉ word) :
    '}' ∉ List.replicate n ' ' ++ word := by
  simp [List.mem_replicate, h]

theorem not_closes_pairsText {pairs : List (String × String)}
    (h : ∀ pair ∈ pairs, IsStringBody pair.1 ∧ IsStringBody pair.2) (n : Nat) :
    ¬ Closes (List.replicate n ' ' ++ (Keyword.tags.word.toList ++ ' ' :: '{' :: ' ' :: pairsText pairs)) := by
  intro closes
  obtain ⟨mode, -, crossed⟩ := closes_iff.mp closes
  have margin : IsNeutral (List.replicate n ' ') :=
    isNeutral_of_isPlain (List.all_eq_true.mpr fun c member => by
      rw [List.eq_of_mem_replicate member]; decide)
  have braces : across? 1 .code (Keyword.tags.word.toList ++ [' ', '{', ' ']) = some (2, .code) := by
    decide
  have split : Keyword.tags.word.toList ++ ' ' :: '{' :: ' ' :: pairsText pairs =
      (Keyword.tags.word.toList ++ [' ', '{', ' ']) ++ pairsText pairs := by simp
  rw [split, across?_append, margin, Option.bind_some, across?_append, braces, Option.bind_some,
    (isNeutral_pairsText h).across?_eq (by decide)] at crossed
  simp at crossed

section

variable {σ : Type} {takes : σ → Phrase → σ → List Char → Prop} {fill : Block → σ} {last : σ}

/-- The tags line of a block, read without text to spare. The brace that ends the region must not be the
one that ends the tags. -/
theorem tags_tight (clauses : TakesClauses takes fill) {goal : Tags} (b : Block) (fresh : b.tags = .empty)
    (others : Nat)
    (bound : ∀ t cs, Reads takes (fill { b with tags := t }) cs last →
      t.keys <+: goal.keys ∧ goal.owedEntries t + others ≤ weight cs)
    {unit depth : Nat} {cs text : List Char}
    (cut : IsCut cs (rowsText unit (goal.rows.map (Row.shift depth)) ++ text))
    (scan : ∀ more, rowsText unit (goal.rows.map (Row.shift depth)) ++ text = cs ++ '}' :: '\n' :: more →
      Closes cs)
    (reads : Reads takes (fill b) cs last) (tight : weight cs ≤ rowsWeight goal.rows + others) :
    goal.IsIntact ∧ ∃ cs', cs = rowsText unit (goal.rows.map (Row.shift depth)) ++ cs' ∧ IsCut cs' text ∧
      Reads takes (fill { b with tags := goal }) cs' last := by
  by_cases none : goal.isEmpty
  · have empty : goal = .empty := Tags.eq_of_toList (List.isEmpty_iff.mp none)
    have rows : goal.rows = [] := by rw [Tags.rows, if_pos none]
    rw [rows] at cut
    refine ⟨fun pair member => ?_, cs, by rw [rows]; rfl, cut, ?_⟩
    · rw [empty] at member
      simp [Tags.empty] at member
    · rw [empty, ← fresh]
      exact reads
  have word : sentinel? Keyword.tags.word.toList = Option.none := by rw [sentinel?, keyword?_tags]
  have row (tail : List Char) : rowsText unit (goal.rows.map (Row.shift depth)) ++ tail =
      List.replicate (unit * depth) ' ' ++ (Keyword.tags.word.toList ++ ' ' :: '{' :: ' ' ::
        (pairsText goal.toList ++ '}' :: '\n' :: tail)) := by
    rw [Tags.rows, if_neg none, List.map_singleton, rowsText_cons, List.append_assoc, Row.ofString,
      Tags.toList_line, Row.text_shift_append (by simp)]
    simp [rowsText]
  rw [row] at cut
  obtain ⟨opening, next, rest, rfl, cutOpening, taken, more, spent⟩ :=
    exists_takes_of_cut (isName_keyword .tags) word isSpace_space (by decide) cut reads
  obtain ⟨after, rfl, cutAfter⟩ := cutOpening.of_cons (by decide)
  obtain ⟨inside, rfl, cut'⟩ := cutAfter.of_cons (by decide)
  generalize phrase : Phrase.ofWord Keyword.tags.word.toList ('{' :: ' ' :: inside) = ph at *
  have name : keyword? ph.name = some .tags := by rw [← phrase]; exact keyword?_tags
  have comment : ph.kind ≠ .comment := by rw [← phrase]; exact Phrase.kind_ofWord _ _
  obtain ⟨b', changed, rfl⟩ := (clauses b ph next rest (by simp [name, Keyword.isClause])).mp taken
  obtain ⟨block, rfl, pairs, pairsRead, rfl⟩ := (Block.takes_tags_iff comment name).mp changed
  obtain ⟨order, later⟩ := bound (b.tags.insertAll pairs) _ more
  have value := ph.weight_tagsText_le
  have entries := rowsWeight_tags goal
  have opens : owedWord .tags goal.isEmpty true = weight Keyword.tags.word.toList := by
    simp [owedWord, none]
  obtain ⟨region, opened, ends⟩ := Phrase.split_of_tagsText (by rw [phrase]; exact block)
  rw [phrase] at ends
  obtain rfl : ' ' :: inside = region := by
    rw [afterSpaces_of_not_isSpace (by decide)] at opened
    exact (List.cons.inj opened).2
  have cutTags : IsCut ph.tagsText (' ' :: (pairsText goal.toList ++ '}' :: '\n' :: text)) := by
    obtain ⟨missing, whole, kind⟩ := cut'
    rw [whole, ← List.cons_append]
    rcases ends with ends | ⟨ends, -⟩
    · refine ⟨'}' :: (ph.rest ++ missing), ?_, .inr ⟨_, rfl⟩⟩
      rw [ends, List.append_assoc]
      rfl
    · exact ⟨missing, by rw [ends], kind⟩
  obtain ⟨part, tagsText, cutPairs⟩ := cutTags.of_cons (by decide)
  have spaced : weight (' ' :: part) = weight part := by rw [weight_cons]; rfl
  rw [tagsText] at pairsRead value ends
  rw [readsTags_space] at pairsRead
  rw [fresh] at order later
  obtain ⟨rfl, rfl, bodies⟩ := readsTags_tight .empty rfl pairsRead cutPairs order (by omega)
  refine ⟨bodies, ?_⟩
  rcases ends with ends | ⟨ends, -⟩
  · obtain rfl : inside = pairsText goal.toList ++ '}' :: ph.rest := (List.cons.inj ends).2
    have closing : IsCut (['}'] ++ ph.rest) (['}'] ++ '\n' :: text) := cut'.of_append_left
    have after := closing.of_append_left
    obtain ⟨cs', rest, cut''⟩ := after.of_cons (by decide)
    refine ⟨cs', by rw [row, rest], cut'', ?_⟩
    rwa [fresh, Tags.insertAll_toList, rest, reads_break] at more
  -- The region ends at the brace of the tags, which the reader of the region counts as an inner one.
  · obtain rfl : inside = pairsText goal.toList := (List.cons.inj ends).2
    have closes := scan text (by rw [row]; simp only [List.append_assoc, List.cons_append])
    exact absurd closes (not_closes_pairsText bodies _)

/-- Whether all text in front of a closing brace weighs something. -/
def Guarded (text : List Char) : Prop := ∀ front rest, text = front ++ '}' :: rest → 0 < weight front

theorem guarded_of_noBrace {text : List Char} (h : '}' ∉ text) : Guarded text := by
  rintro front rest rfl
  simp at h

theorem Guarded.append {front text : List Char} (noBrace : '}' ∉ front)
    (h : 0 < weight front ∨ Guarded text) :
    Guarded (front ++ text) := by
  intro before rest split
  rcases List.append_eq_append_iff.mp split with ⟨more, rfl, whole⟩ | ⟨more, rfl, whole⟩
  · rw [weight_append]
    rcases h with heavy | guarded
    · omega
    · have := guarded more rest whole
      omega
  · cases more with
    | nil =>
      rw [List.append_nil] at h
      rcases h with heavy | guarded
      · exact heavy
      · exact absurd (guarded [] rest (by simpa using whole.symm)) (by simp)
    | cons c more =>
      obtain ⟨rfl, -⟩ := List.cons.inj whole
      simp at noBrace

/-- Whether rows begin with a word, so that no closing brace comes right after the rows before. -/
def StartWithWord (rows : List Row) : Prop :=
  rows = [] ∨ ∃ word content more, rows = ⟨0, word ++ content⟩ :: more ∧ '}' ∉ word ∧ 0 < weight word

theorem StartWithWord.guarded {rows : List Row} (h : StartWithWord rows) (unit depth : Nat)
    {text : List Char}
    (guarded : Guarded text) : Guarded (rowsText unit (rows.map (Row.shift depth)) ++ text) := by
  rcases h with rfl | ⟨word, content, more, rfl, noBrace, heavy⟩
  · exact guarded
  · have nonempty : word ++ content ≠ [] := by
      intro empty
      rw [(List.append_eq_nil_iff.mp empty).1] at heavy
      simp at heavy
    have whole : rowsText unit ((⟨0, word ++ content⟩ :: more).map (Row.shift depth)) ++ text =
        (List.replicate (unit * depth) ' ' ++ word) ++
          (content ++ '\n' :: (rowsText unit (more.map (Row.shift depth)) ++ text)) := by
      rw [List.map_cons, rowsText_cons, List.append_assoc, Row.text_shift_append nonempty]
      simp
    rw [whole]
    refine Guarded.append (noBrace_margin _ noBrace) (.inl ?_)
    rw [weight_append]
    omega

theorem startWithWord_nest {word : String} (rows : List Row) (noBrace : '}' ∉ word.toList)
    (heavy : 0 < weight word.toList) : StartWithWord (nest word rows) :=
  .inr ⟨word.toList, [], ⟨0, ['{']⟩ :: rows.map (Row.shift 1) ++ [⟨0, ['}']⟩],
    by simp [nest, Row.ofString], noBrace, heavy⟩

theorem startWithWord_flatMap {α : Type} {rows : α → List Row} (items : List α)
    (h : ∀ item, StartWithWord (rows item)) : StartWithWord (items.flatMap rows) := by
  induction items with
  | nil => exact .inl rfl
  | cons item items ih =>
    rw [List.flatMap_cons]
    rcases h item with empty | ⟨word, content, more, whole, noBrace, heavy⟩
    · rw [empty]
      exact ih
    · exact .inr ⟨word, content, more ++ items.flatMap rows, by rw [whole]; rfl, noBrace, heavy⟩

theorem startWithWord_program (sentinel : Sentinel) (program : Option (List String)) :
    StartWithWord (programRows sentinel program) := by
  cases program with
  | none => exact .inl rfl
  | some lines =>
    refine .inr ⟨sentinel.word.toList, [], lines.map .ofString ++ [.ofString sentinel.closing],
      ?_, ?_, ?_⟩
    · simp [programRows, Row.ofString]
    · cases sentinel <;> decide
    · rw [(weight_sentinel sentinel).1]
      decide

/-- A nested block that is light enough does not end after its own brace. -/
theorem isCut_inside {region inside rest block text : List Char} (split : region = inside ++ '}' :: rest)
    (cut : IsCut region (block ++ '}' :: '\n' :: text)) (guarded : Guarded text)
    (light : weight inside ≤ weight block) :
    IsCut inside block ∧ (∀ more, block = inside ++ '}' :: '\n' :: more → rest ≠ []) ∧
      (inside = block → ∃ cs', rest = '\n' :: cs' ∧ IsCut cs' text) := by
  obtain ⟨missing, whole, kind⟩ := cut
  rw [split, List.append_assoc] at whole
  refine ⟨?_, ?_, ?_⟩
  · rcases List.append_eq_append_iff.mp whole with ⟨more, longer, tail⟩ | ⟨more, shorter, tail⟩
    · cases more with
      | nil => exact ⟨[], by simpa using longer.symm, .inl rfl⟩
      | cons c more =>
        obtain ⟨-, tail⟩ := List.cons.inj tail
        have outside : 0 < weight more := by
          cases more with
          | nil => simp at tail
          | cons d more =>
            obtain ⟨rfl, later⟩ := List.cons.inj tail
            rw [weight_cons]
            have := guarded more (rest ++ missing) later
            omega
        rw [longer, weight_append, weight_cons] at light
        omega
    · refine ⟨more, shorter, ?_⟩
      cases more with
      | nil => exact .inl rfl
      | cons c more => exact .inr ⟨more, by rw [(List.cons.inj tail).1]⟩
  · rintro more rfl rfl
    rw [List.append_assoc] at whole
    have tail := (List.cons.inj (List.append_cancel_left whole)).2
    rcases kind with rfl | ⟨ends, rfl⟩ <;> simp at tail
  · rintro rfl
    have tail := (List.cons.inj (List.append_cancel_left whole)).2
    exact IsCut.of_cons ⟨missing, tail, kind⟩ (by decide)

theorem exists_takes_of_reads_nest {σ : Type} {takes : σ → Phrase → σ → List Char → Prop} {held last : σ}
    (word : Keyword) (free : sentinel? word.word.toList = none) (noBrace : '}' ∉ word.word.toList)
    (rows : List Row) {unit depth : Nat} {cs text : List Char} (guarded : Guarded text)
    (cut : IsCut cs (rowsText unit ((nest word.word rows).map (Row.shift depth)) ++ text))
    (reads : Reads takes held cs last) :
    ∃ ph next rest, ph.kind ≠ .comment ∧ keyword? ph.name = some word ∧ takes held ph next rest ∧
      Reads takes next rest last ∧ weight word.word.toList + weight ph.rest ≤ weight cs ∧
      ∀ inside, ph.interior? = some inside →
        weight word.word.toList + weight inside + weight ph.rest ≤ weight cs ∧
        (weight inside ≤ rowsWeight rows →
          IsCut inside (insideText unit depth rows) ∧
          (∀ more, insideText unit depth rows = inside ++ '}' :: '\n' :: more → Closes inside) ∧
          (inside = insideText unit depth rows → Closes inside ∧ ∃ cs', ph.rest = '\n' :: cs' ∧
            IsCut cs' text ∧ cs = rowsText unit ((nest word.word rows).map (Row.shift depth)) ++ cs')) := by
  have positive := weight_word_pos word
  have nonempty : word.word.toList ≠ [] := fun empty => by simp [empty] at positive
  have row (tail : List Char) : rowsText unit ((nest word.word rows).map (Row.shift depth)) ++ tail =
      List.replicate (unit * depth) ' ' ++ (word.word.toList ++ '\n' ::
        (List.replicate (unit * depth) ' ' ++ '{' :: (insideText unit depth rows ++ '}' :: '\n' :: tail))) := by
    rw [rowsText_nest _ _ _ nonempty]
    simp
  rw [row] at cut
  obtain ⟨after, next, rest, rfl, cutAfter, taken, more, spent⟩ :=
    exists_takes_of_cut (isName_keyword word) free isSpace_break noBrace cut reads
  obtain ⟨opening, rfl, cutOpening⟩ := cutAfter.of_append (by simp [List.mem_replicate])
  obtain ⟨region, rfl, cut'⟩ := cutOpening.of_cons (by decide)
  refine ⟨.ofWord word.word.toList (List.replicate (unit * depth) ' ' ++ '{' :: region), next, rest,
    Phrase.kind_ofWord _ _, WordFamily.find?_word word, taken, more, by omega, fun inside found => ?_⟩
  have value := Phrase.weight_interior?_le found
  refine ⟨by omega, fun light => ?_⟩
  obtain ⟨split, closes⟩ := Phrase.split_of_interior? found
  rw [afterSpaces_margin, afterSpaces_of_not_isSpace (by decide)] at split
  have region' := (List.cons.inj split).2
  have light' : weight inside ≤ weight (insideText unit depth rows) := by rwa [weight_insideText]
  obtain ⟨cutInside, inner, ends⟩ := isCut_inside region' cut' guarded light'
  refine ⟨cutInside, fun more short => closes (inner more short), fun same => ?_⟩
  obtain ⟨cs', rest', cut''⟩ := ends same
  refine ⟨closes (by simp [rest']), cs', rest', cut'', ?_⟩
  rw [row, region', same, rest']

theorem fields_tight {s fields : Settings StencilField} {unit depth : Nat} {cs : List Char}
    (cut : IsCut cs (insideText unit depth s.rows)) (reads : Reads Settings.TakesField .empty cs fields)
    (tight : weight cs + s.owed fields ≤ s.owed .empty) :
    s.IsIntact ∧ cs = insideText unit depth s.rows ∧ fields = s := by
  rw [insideText, List.cons_append, Settings.rows_eq] at cut
  obtain ⟨cs, rfl, cut'⟩ := cut.of_cons (by decide)
  rw [reads_break] at reads
  have light : weight ('\n' :: cs) = weight cs := by rw [weight_cons]; rfl
  obtain ⟨intact, cs', rfl, cut'', reads', -⟩ := settings_tight (fun t => t) s.owed s .empty
    (s.owed fields) isName_stencilField (fun k => by cases k <;> decide) weight_stencilField_pos
    (fun t k ph next rest comment name taken => by
      obtain ⟨rfl, rfl⟩ := taken
      have known : stencilField? k.word.toList = some k := WordFamily.find?_word k
      by_cases empty : ph.kind = .empty
      · exact .inr ⟨by simp [Phrase.field?, empty, Settings.insertAll], Nat.le_refl _⟩
      · have name' : ph.name = k.word.toList := name
        refine .inl ⟨empty, ?_, rfl⟩
        simp [Phrase.field?, empty, comment, name', known, Settings.insertAll])
    (fun t cs reads => by
      have paid := s.owed_le_of_reads reads
      omega)
    s.owed_le_insert (fun t _ _ => Settings.owed_le_insert_of_ne t)
    (fun entry member => Settings.mem_entries.mp member) cut' reads (by omega)
  obtain rfl := cut''.of_spaces
  rw [reads_nothing, Settings.insertAll_entries] at reads'
  refine ⟨intact, ?_, reads'.symm⟩
  rw [insideText, List.cons_append, Settings.rows_eq]

theorem states_tight (clauses : TakesClauses takes fill) {goal : Settings RenderState} (b : Block)
    (fresh : b.states = .empty) (others : Nat)
    (bound : ∀ s cs, Reads takes (fill { b with states := s }) cs last → goal.owed s + others ≤ weight cs)
    {unit depth : Nat} {cs text : List Char}
    (cut : IsCut cs (rowsText unit (goal.rows.map (Row.shift depth)) ++ text))
    (reads : Reads takes (fill b) cs last) (tight : weight cs ≤ rowsWeight goal.rows + others) :
    goal.IsIntact ∧ ∃ cs', cs = rowsText unit (goal.rows.map (Row.shift depth)) ++ cs' ∧ IsCut cs' text ∧
      Reads takes (fill { b with states := goal }) cs' last := by
  have owes := rowsWeight_settings goal
  rw [Settings.rows_eq] at cut tight ⊢
  have begun : b = { b with states := .empty } := by rw [← fresh]
  rw [begun] at reads
  obtain ⟨singles, cs', rfl, cut', reads', -⟩ := settings_tight (fun s => fill { b with states := s })
    (fun s => goal.owed s + others) goal .empty 0
    (fun k => ⟨(isName_renderState k).1, by
      rw [sentinel?, show keyword? (WordFamily.word k).toList = none from (isName_renderState k).2]⟩)
    (fun k => by cases k <;> decide) weight_renderState_pos
    (fun s k ph next rest comment name taken => by
      have word : keyword? ph.name = none := by rw [name]; exact (isName_renderState k).2
      have known : renderState? ph.name = some k := by rw [name]; exact WordFamily.find?_word k
      obtain ⟨b', changed, rfl⟩ := (clauses _ ph next rest (by simp [word])).mp taken
      rcases (Block.takes_state_iff comment word known).mp changed with ⟨filled, rfl, rfl⟩ | ⟨-, rfl, rfl⟩
      · exact .inl ⟨filled, rfl, rfl⟩
      · exact .inr ⟨rfl, ph.weight_afterUnknown_le⟩)
    bound
    (fun s k value => by
      have paid := goal.owed_le_insert s k value
      omega)
    (fun s k value other => by
      have unpaid := Settings.owed_le_insert_of_ne s other
      omega)
    (fun entry member => Settings.mem_entries.mp member) cut reads (by omega)
  rw [Settings.insertAll_entries] at reads'
  exact ⟨singles, cs', rfl, cut', reads'⟩

theorem stencil_tight (clauses : TakesClauses takes fill) {goal : Settings StencilField} (b : Block)
    (fresh : b.stencil = .empty) (others : Nat)
    (bound : ∀ t cs, Reads takes (fill { b with stencil := t }) cs last →
      owedWord .stencil goal.isEmpty t.isEmpty + goal.owed t + others ≤ weight cs)
    {unit depth : Nat} {cs text : List Char} (guarded : Guarded text)
    (cut : IsCut cs (rowsText unit ((stencilRows goal).map (Row.shift depth)) ++ text))
    (reads : Reads takes (fill b) cs last) (tight : weight cs ≤ rowsWeight (stencilRows goal) + others) :
    goal.IsIntact ∧ Closes (flushText goal.rows) ∧
      ∃ cs', cs = rowsText unit ((stencilRows goal).map (Row.shift depth)) ++ cs' ∧ IsCut cs' text ∧
        Reads takes (fill { b with stencil := goal }) cs' last := by
  by_cases none : goal.isEmpty
  · have nothing : goal.entries = [] := List.isEmpty_iff.mp none
    have empty : goal = .empty := by
      rw [← Settings.insertAll_entries goal, nothing]
      rfl
    have rows : stencilRows goal = [] := by rw [stencilRows, if_pos none]
    rw [rows] at cut
    refine ⟨fun entry member => by simp [nothing] at member, ?_, cs, by rw [rows]; rfl, cut, ?_⟩
    · rw [Settings.rows_eq, nothing]
      decide
    · rw [empty, ← fresh]
      exact reads
  have word : sentinel? Keyword.stencil.word.toList = Option.none := by rw [sentinel?, keyword?_stencil]
  have owes := rowsWeight_stencil goal
  have opens : owedWord .stencil goal.isEmpty true = weight Keyword.stencil.word.toList := by
    simp [owedWord, none]
  have inner := rowsWeight_settings goal
  rw [← Settings.rows_eq] at inner
  rw [stencilRows, if_neg none] at cut ⊢
  obtain ⟨ph, next, rest, comment, name, taken, more, spent, nested⟩ :=
    exists_takes_of_reads_nest .stencil word (by decide) goal.rows guarded cut reads
  obtain ⟨b', changed, rfl⟩ := (clauses b ph next rest (by simp [name, Keyword.isClause])).mp taken
  obtain ⟨rfl, ⟨inside, fields, found, fieldsRead, rfl⟩ | ⟨-, dropped⟩⟩ :=
    (Block.takes_stencil_iff comment name).mp changed
  · have later := bound fields _ more
    obtain ⟨paid, light⟩ := nested inside found
    obtain ⟨cutInside, -, ends⟩ := light (by omega)
    rw [fresh] at fieldsRead
    obtain ⟨intact, same, rfl⟩ := fields_tight cutInside fieldsRead (by omega)
    obtain ⟨closes, cs', rest, cut', whole⟩ := ends same
    rw [same] at closes
    rw [rest, reads_break] at more
    exact ⟨intact, (closes_insideText unit depth fields.rows).mp closes, cs', whole, cut', more⟩
  · rw [dropped] at more
    have later := bound b.stencil _ more
    have positive := weight_word_pos .stencil
    have yet : b.stencil.isEmpty = true := by rw [fresh]; rfl
    rw [yet, opens, fresh] at later
    omega

theorem eq_indented_of_cut {sentinel : Sentinel} {lines : List String} {front : List (List Char)}
    {unit depth : Nat} {last text : List Char} (lined : ∀ line ∈ lines, '\n' ∉ line.toList)
    (single : ∀ line ∈ front, '\n' ∉ line) (length : lines.length = front.length)
    (cut : IsCut (linesText front ++ last) (writtenProgram unit depth sentinel lines text)) :
    front = (lines.map String.toList).map (indentLine (unit * depth)) ∧
      ∃ cs', last = List.replicate (unit * depth) ' ' ++ (sentinel.closing.toList ++ '\n' :: cs') ∧
        IsCut cs' text := by
  obtain ⟨missing, whole, kind⟩ := cut
  rw [writtenProgram, List.append_assoc] at whole
  obtain ⟨same, ends⟩ := linesText_inj whole (by simpa using length) (fun line member => by
    obtain ⟨raw, inRaw, rfl⟩ := List.mem_map.mp member
    obtain ⟨source, inLines, rfl⟩ := List.mem_map.mp inRaw
    exact not_mem_indentLine (lined source inLines) _) single
  have cutLast : IsCut last
      ((List.replicate (unit * depth) ' ' ++ (sentinel.closing.toList ++ ['\n'])) ++ text) :=
    ⟨missing, by rw [← ends]; simp, kind⟩
  have noBrace : '}' ∉ sentinel.closing.toList := by cases sentinel <;> decide
  obtain ⟨cs', rfl, cut'⟩ := cutLast.of_append (noBrace_margin _ (by simp [noBrace]))
  exact ⟨same.symm, cs', by simp, cut'⟩

theorem program_tight (clauses : TakesClauses takes fill) {sentinel : Sentinel}
    (written : sentinel.closing.toList = writtenClosing) {program : Option (List String)}
    (lined : ∀ lines ∈ program, ∀ line ∈ lines, '\n' ∉ line.toList) (b : Block) (fresh : b.program = none)
    (others : Nat)
    (bound : ∀ p cs, Reads takes (fill { b with program := p }) cs last →
      owedProgram (program.map realign) p + others ≤ weight cs)
    {unit depth : Nat} {cs text : List Char}
    (cut : IsCut cs (rowsText unit ((programRows sentinel program).map (Row.shift depth)) ++ text))
    (reads : Reads takes (fill b) cs last)
    (tight : weight cs ≤ rowsWeight (programRows sentinel program) + others) :
    (∀ lines ∈ program, ∀ line ∈ lines, isProgramLine line) ∧
      ∃ cs', cs = rowsText unit ((programRows sentinel program).map (Row.shift depth)) ++ cs' ∧
        IsCut cs' text ∧
        Reads takes (fill { b with program := program.map realign }) cs' last := by
  cases program with
  | none =>
    refine ⟨by simp, cs, rfl, cut, ?_⟩
    rw [Option.map_none, ← fresh]
    exact reads
  | some lines =>
  obtain ⟨name, word⟩ := isName_sentinel sentinel
  have noBrace : '}' ∉ sentinel.word.toList := by cases sentinel <;> decide
  rw [rowsText_program] at cut
  have row : List.replicate (unit * depth) ' ' ++ (sentinel.word.toList ++
      '\n' :: writtenProgram unit depth sentinel lines text) =
      (List.replicate (unit * depth) ' ' ++ (sentinel.word.toList ++ ['\n'])) ++
        writtenProgram unit depth sentinel lines text := by simp
  rw [row] at cut
  obtain ⟨after, rfl, cut'⟩ := cut.of_append (noBrace_margin _ (by simp [noBrace]))
  have front : (List.replicate (unit * depth) ' ' ++ (sentinel.word.toList ++ ['\n'])) ++ after =
      List.replicate (unit * depth) ' ' ++ (sentinel.word.toList ++ '\n' :: after) := by simp
  rw [front] at reads tight
  have opens : sentinel? sentinel.word.toList = some sentinel := by rw [sentinel?, word]
  have first := Phrase.first?_of_isName name isSpace_break after
  rw [opens] at first
  rw [reads_margin] at reads
  obtain ⟨next, rest, taken, more⟩ := (reads_iff_of_some first).mp reads
  obtain ⟨b', changed, rfl⟩ := (clauses b _ next rest (by simp [word, Keyword.isClause])).mp taken
  obtain ⟨last', closes, rfl, rfl⟩ := (Block.takes_program_iff (by simp) word).mp changed
  have skip : afterLine ('\n' :: after) = after := by simp [afterLine]
  dsimp only at closes more
  have paid := weight_program_le closes
  rw [skip] at closes
  obtain ⟨front', split, plain⟩ := exists_linesText_of_fromClosingLine? closes
  have body : ('\n' :: after).take (('\n' :: after).length - last'.length) =
      '\n' :: linesText front' := by
    rw [split, ← List.cons_append, List.length_append, Nat.add_sub_cancel, List.take_left]
  rw [body, programLines_linesText fun line member => (plain line member).1] at more paid
  have later := bound _ _ more
  have weighed : weight (List.replicate (unit * depth) ' ' ++ (sentinel.word.toList ++ '\n' :: after)) =
      weight ('\n' :: after) + 2 := by
    rw [weight_append, weight_append, weight_replicate_space, (weight_sentinel sentinel).1]
    omega
  have owes := rowsWeight_program sentinel (some lines)
  have right : (some lines).map realign = some ((align front').map String.ofList) := by
    by_contra other
    have unpaid := owedProgram_le_of_ne none other
    omega
  have length : lines.length = front'.length := by
    have same := congrArg List.length (Option.some.inj right)
    simpa [realign, length_align] using same
  rw [split] at cut'
  obtain ⟨same, cs', rfl, cut''⟩ :=
    eq_indented_of_cut (lined lines rfl) (fun line member => (plain line member).1) length cut'
  rw [written] at more plain
  have after := (fromClosingLine?_here
    (unit * depth) cs' writtenClosing_ne_nil not_isSpace_writtenClosing isSpace_break).2
  refine ⟨fun lines' member line inLines => ?_, cs', ?_, cut'', ?_⟩
  · obtain rfl := Option.some.inj member
    have inFront : indentLine (unit * depth) line.toList ∈ front' := by
      rw [same]
      exact List.mem_map_of_mem (List.mem_map_of_mem inLines)
    have other := (plain _ inFront).2
    rw [firstWord_indentLine] at other
    exact isProgramLine_iff.mpr ⟨lined lines rfl line inLines, other⟩
  · rw [rowsText_program, writtenProgram, split, same]
    simp
  · rw [after, reads_break] at more
    rwa [right]

/-- The items of a block, read without text to spare. What is owed for anything but the block is `others`. -/
theorem block_tight (clauses : TakesClauses takes fill) (sentinel : Sentinel)
    (written : sentinel.closing.toList = writtenClosing) {b : Block}
    (lined : ∀ lines ∈ b.program, ∀ line ∈ lines, '\n' ∉ line.toList) (others : Nat)
    (bound : ∀ b' cs, Reads takes (fill b') cs last →
      b.realigned.Leads b' ∧ b.realigned.owed b' + others ≤ weight cs)
    {unit depth : Nat} {cs text : List Char} (guarded : Guarded text)
    (cut : IsCut cs (rowsText unit ((b.rows sentinel).map (Row.shift depth)) ++ text))
    (scan : ∀ more, rowsText unit ((b.rows sentinel).map (Row.shift depth)) ++ text =
      cs ++ '}' :: '\n' :: more →
      Closes cs)
    (reads : Reads takes (fill .empty) cs last)
    (tight : weight cs ≤ rowsWeight (b.rows sentinel) + others) :
    b.IsIntact ∧ ∃ cs', cs = rowsText unit ((b.rows sentinel).map (Row.shift depth)) ++ cs' ∧
      IsCut cs' text ∧
      Reads takes (fill b.realigned) cs' last := by
  have rows : rowsWeight (b.rows sentinel) = rowsWeight b.tags.rows + (rowsWeight b.states.rows +
      (rowsWeight (stencilRows b.stencil) + rowsWeight (programRows sentinel b.program))) := by
    simp only [Block.rows, rowsWeight_append]
    omega
  have split : rowsText unit ((b.rows sentinel).map (Row.shift depth)) =
      rowsText unit (b.tags.rows.map (Row.shift depth)) ++
        (rowsText unit (b.states.rows.map (Row.shift depth)) ++
        (rowsText unit ((stencilRows b.stencil).map (Row.shift depth)) ++
          rowsText unit ((programRows sentinel b.program).map (Row.shift depth)))) := by
    simp only [Block.rows, List.map_append, rowsText_append, List.append_assoc]
  have states := rowsWeight_settings b.states
  have stencil := rowsWeight_stencil b.stencil
  have program := rowsWeight_program sentinel b.program
  have yet : (Settings.empty : Settings StencilField).isEmpty = true := rfl
  rw [← Settings.rows_eq] at states
  simp only [split, List.append_assoc] at cut scan ⊢
  rw [rows] at tight
  -- Each part pays for itself while the parts after it are still owed in full.
  obtain ⟨tags, cs₁, rfl, cut₁, reads₁⟩ := tags_tight clauses .empty rfl
    (rowsWeight b.states.rows + (rowsWeight (stencilRows b.stencil) +
      rowsWeight (programRows sentinel b.program)) + others)
    (fun t cs reads => by
      obtain ⟨order, paid⟩ := bound _ _ reads
      simp only [Block.owed, Block.realigned, Block.empty, yet] at paid
      exact ⟨order, by omega⟩) cut scan reads (by omega)
  rw [weight_append, weight_rowsText] at tight
  obtain ⟨singles, cs₂, rfl, cut₂, reads₂⟩ := states_tight clauses { Block.empty with tags := b.tags } rfl
    (rowsWeight (stencilRows b.stencil) + rowsWeight (programRows sentinel b.program) + others)
    (fun s cs reads => by
      have paid := (bound _ _ reads).2
      simp only [Block.owed, Block.realigned, Block.empty, yet] at paid
      omega) cut₁ reads₁ (by omega)
  rw [weight_append, weight_rowsText] at tight
  have guarded₃ := (startWithWord_program sentinel b.program).guarded unit depth guarded
  obtain ⟨fields, closes, cs₃, rfl, cut₃, reads₃⟩ := stencil_tight clauses
    { Block.empty with tags := b.tags, states := b.states } rfl
    (rowsWeight (programRows sentinel b.program) + others)
    (fun t cs reads => by
      have paid := (bound _ _ reads).2
      simp only [Block.owed, Block.realigned, Block.empty] at paid
      omega) guarded₃ cut₂ reads₂ (by omega)
  rw [weight_append, weight_rowsText] at tight
  obtain ⟨plain, cs₄, rfl, cut₄, reads₄⟩ := program_tight clauses written lined
    { Block.empty with tags := b.tags, states := b.states, stencil := b.stencil } rfl others
    (fun p cs reads => by
      have paid := (bound _ _ reads).2
      simp only [Block.owed, Block.realigned] at paid
      omega) cut₃ reads₃ (by omega)
  exact ⟨⟨tags, singles, fields, closes, plain⟩, cs₄, rfl, cut₄, reads₄⟩

end

/-- The child blocks of a body, read without text to spare. Each is known to be read as it should, so it
is enough that a child read as what it should be is the text that was written. -/
theorem children_tight {σ γ : Type} {takes : σ → Phrase → σ → List Char → Prop} {last : σ}
    (word : Keyword)
    (free : sentinel? word.word.toList = none) (noBrace : '}' ∉ word.word.toList) (rows : γ → List Row)
    (final : γ → γ) (cost : γ → Nat) (intact : γ → Prop) (readsInside : List Char → γ → Prop)
    (put : List γ → σ) {all : List γ}
    (child : ∀ (done : List γ) (ph : Phrase) (next : σ) (rest : List Char), ph.kind ≠ .comment →
      keyword? ph.name = some word → takes (put done) ph next rest → rest = ph.rest ∧
        ((∃ inside item, ph.interior? = some inside ∧ readsInside inside item ∧
          next = put (done ++ [item])) ∨
          next = put done))
    (bound : ∀ done cs, Reads takes (put done) cs last →
      done <+: all ∧ ((all.drop done.length).map cost).sum ≤ weight cs)
    (priced : ∀ item, cost (final item) = weight word.word.toList + rowsWeight (rows item))
    {unit depth : Nat} {items : List γ}
    (inner : ∀ item ∈ items, ∀ inside, IsCut inside (insideText unit depth (rows item)) →
      (∀ more, insideText unit depth (rows item) = inside ++ '}' :: '\n' :: more → Closes inside) →
      readsInside inside (final item) →
      inside = insideText unit depth (rows item) ∧ (Closes (flushText (rows item)) → intact item))
    {done : List γ} (total : all = done ++ items.map final) {cs text : List Char} (guarded : Guarded text)
    (cut : IsCut cs (rowsText unit
      ((items.flatMap fun item => nest word.word (rows item)).map (Row.shift depth)) ++ text))
    (reads : Reads takes (put done) cs last)
    (tight : weight cs ≤ rowsWeight (items.flatMap fun item => nest word.word (rows item))) :
    (∀ item ∈ items, intact item) ∧ ∃ cs', cs = rowsText unit
      ((items.flatMap fun item => nest word.word (rows item)).map (Row.shift depth)) ++ cs' ∧
          IsCut cs' text := by
  induction items generalizing done cs with
  | nil => exact ⟨by simp, cs, rfl, cut⟩
  | cons item items ih =>
    have positive := weight_word_pos word
    have remaining := rowsWeight_children word items priced
    rw [List.flatMap_cons, List.map_append, rowsText_append, List.append_assoc] at cut
    rw [List.flatMap_cons, rowsWeight_append, rowsWeight_nest] at tight
    have guarded' := (startWithWord_flatMap items fun other =>
      startWithWord_nest (rows other) noBrace positive).guarded unit depth guarded
    obtain ⟨ph, next, rest, comment, name, taken, more, spent, nested⟩ :=
      exists_takes_of_reads_nest word free noBrace (rows item) guarded' cut reads
    obtain ⟨rfl, ⟨inside, item', found, insideRead, rfl⟩ | rfl⟩ :=
      child done ph next rest comment name taken
    -- What is read next must be the next child, and its text is too light to reach into the one after.
    · obtain ⟨order, later⟩ := bound _ _ more
      rw [total, List.prefix_append_right_inj, List.map_cons] at order
      obtain rfl : item' = final item := (List.cons_prefix_cons.mp order).1
      have total' : all = (done ++ [final item]) ++ items.map final := by
        rw [total, List.append_assoc, List.map_cons, List.singleton_append]
      rw [total', List.drop_left, ← remaining] at later
      obtain ⟨paid, light⟩ := nested inside found
      obtain ⟨cutInside, inner', ends⟩ := light (by omega)
      obtain ⟨same, intact'⟩ := inner item List.mem_cons_self inside cutInside inner' insideRead
      obtain ⟨closes, cs', rest, cut', whole⟩ := ends same
      rw [same] at closes
      have here := intact' ((closes_insideText unit depth (rows item)).mp closes)
      rw [rest, reads_break] at more
      rw [whole, weight_append, weight_rowsText, rowsWeight_nest] at tight
      obtain ⟨intacts, cs'', rfl, cut''⟩ :=
        ih (fun other member => inner other (List.mem_cons_of_mem _ member)) total' cut' more (by omega)
      refine ⟨fun other member => ?_, cs'', ?_, cut''⟩
      · rcases List.mem_cons.mp member with rfl | member
        · exact here
        · exact intacts other member
      · rw [whole, List.flatMap_cons, List.map_append, rowsText_append, List.append_assoc]
    -- A child that is dropped is still owed, and its word is gone.
    · have later := (bound _ _ more).2
      rw [total, List.drop_left, List.map_cons, List.map_cons, List.sum_cons, ← remaining, priced] at later
      omega

end ShaderText
