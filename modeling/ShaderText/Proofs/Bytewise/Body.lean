import ShaderText.Outline
import ShaderText.Proofs.Bytewise.Tags

/-! Blocks and bodies by bytes. The inside of a block is told by its two ends, and one loop takes the
statements of all kinds of body one after another. Main statement: where a step of the loop does what
the reader of statements does, the loop comes to an end and holds what the entries of the body leave.
-/
namespace ShaderText.Bytewise

variable (document : String)

/-- The ends of the text between the braces of a block value. -/
def interior? (word : String) (e : Extent) : Option (Except ParseError (Nat × Nat)) := do
  if e.kind = .block then
    let value ← slice? document.toList e.value.start e.value.stop
    if byteSize value < 2 then fail? document e.value.start (.unterminatedBlock word)
    else
      let last ← byte? document (e.value.stop - 1)
      if last = code '}' then return .ok (e.value.start + 1, e.value.stop - 1)
      else fail? document e.value.start (.unterminatedBlock word)
  else fail? document e.name.start (.missingBlock word)

/-- Puts the tags of a statement to those there are. The block need not be closed. -/
def takeTags? (tags : Tags) (e : Extent) : Option (Except ParseError Tags) := do
  if e.kind = .block then
    if ← holdsSign? document '{' e.value.start e.value.stop then
      let last ← byte? document (e.value.stop - 1)
      readTags? document tags (e.value.start + 1)
        (if last = code '}' ∧ 1 < e.value.size then e.value.stop - 1 else e.value.stop)
    else fail? document e.name.start .malformedTags
  else fail? document e.name.start .malformedTags

variable {document}

theorem Spans.exists_last {s : Char} (ascii : s.toNat ≤ 127) {cs : List Char} {pos stop : Nat}
    (h : Spans document.toList pos cs stop) (filled : cs ≠ []) :
    ∃ b, byte? document (stop - 1) = some b ∧ (b = code s ↔ cs.getLast? = some s) := by
  have split := List.dropLast_concat_getLast filled
  generalize cs.getLast filled = c at split
  rw [← split] at h ⊢
  have size := c.utf8Size_pos
  obtain ⟨b, member, read⟩ := h.split.2.byte?_eq (i := c.utf8Size - 1) (by omega)
  have stop_eq := h.split.2.stop_eq
  simp only [byteSize_cons, byteSize_nil, Nat.add_zero] at stop_eq
  refine ⟨b, ?_, ?_⟩
  · rw [← read, stop_eq]
    congr 1
    omega
  · rw [eq_code_iff member ascii, List.getLast?_concat, Option.some.injEq]

theorem exists_inside {opening closing : Char} (ascii : opening.toNat ≤ 127 ∧ closing.toNat ≤ 127) {v : Region}
    (h : v.LiesIn document.toList) (opens : v.chars.head? = some opening) :
    ∃ last, byte? document (v.stop - 1) = some last ∧
      (last = code closing ∧ 1 < byteSize v.chars ↔ v.chars.tail.getLast? = some closing) ∧
      (Region.mk (v.start + 1) v.chars.tail).LiesIn document.toList ∧
      (Region.mk (v.start + 1) v.chars.tail).stop = v.stop := by
  obtain ⟨inside, begins⟩ := List.head?_eq_some_iff.mp opens
  obtain ⟨start, chars⟩ := v
  subst begins
  obtain ⟨last, read, closes⟩ := Spans.exists_last ascii.2 h (List.cons_ne_nil _ _)
  have unit := utf8Size_of_ascii ascii.1
  have stop : (Region.mk (start + 1) inside).stop = (Region.mk start (opening :: inside)).stop := by
    simp only [Region.stop, byteSize_cons, unit]
    omega
  have lies := Spans.tail h
  rw [unit, ← stop] at lies
  refine ⟨last, read, ?_, lies, stop⟩
  cases inside with
  | nil => simp [unit]
  | cons c cs =>
    have size := c.utf8Size_pos
    have long : 1 < byteSize (opening :: c :: cs) := by
      simp only [byteSize_cons, unit]
      omega
    rw [closes, List.getLast?_cons_cons]
    exact and_iff_left long

theorem liesIn_dropLast {closing : Char} (ascii : closing.toNat ≤ 127) {r : Region}
    (h : r.LiesIn document.toList) (closes : r.chars.getLast? = some closing) :
    (Region.mk r.start r.chars.dropLast).LiesIn document.toList ∧
      (Region.mk r.start r.chars.dropLast).stop = r.stop - 1 := by
  obtain ⟨front, split⟩ := List.getLast?_eq_some_iff.mp closes
  obtain ⟨start, chars⟩ := r
  subst split
  rw [List.dropLast_concat]
  refine ⟨(Spans.split h).1, ?_⟩
  simp only [Region.stop, byteSize_append, byteSize_cons, byteSize_nil, utf8Size_of_ascii ascii]
  omega

theorem exists_block {s : Statement} {r : Region} (found : Statement.first? r = some s)
    (h : r.LiesIn document.toList) (block : s.kind = .block) :
    ∃ last, byte? document (s.value.stop - 1) = some last ∧
      (last = code '}' ∧ 1 < byteSize s.value.chars ↔ s.value.chars.tail.getLast? = some '}') ∧
      (Region.mk (s.value.start + 1) s.value.chars.tail).LiesIn document.toList ∧
      (Region.mk (s.value.start + 1) s.value.chars.tail).stop = s.value.stop :=
  exists_inside ⟨by decide, by decide⟩ (liesIn_first? h found).value (Statement.head?_value found block)

theorem interior?_eq {s : Statement} {r : Region} (found : Statement.first? r = some s)
    (h : r.LiesIn document.toList) (word : String) :
    interior? document word (.ofStatement s) =
      some (((s.interior word).mapError (·.locate document.toList)).map fun inside =>
        (inside.start, inside.stop)) := by
  have lies := liesIn_first? h found
  rw [interior?, Statement.interior, Extent.ofStatement]
  by_cases block : s.kind = .block
  · obtain ⟨last, read, closes, inside, stop⟩ := exists_block found h block
    have value : slice? document.toList s.value.span.start s.value.span.stop = some s.value.chars :=
      slice?_of_liesIn lies.value
    change byte? document (s.value.span.stop - 1) = some last at read
    have fails := fail?_eq (α := Nat × Nat) (.unterminatedBlock word) lies.value
    change fail? document s.value.span.start _ = _ at fails
    simp only [block, if_true, value, read, fails, Option.bind_eq_bind, Option.bind_some]
    by_cases closed : s.value.chars.tail.getLast? = some '}'
    · obtain ⟨isBrace, long⟩ := closes.mpr closed
      have end_ := (liesIn_dropLast (by decide) inside closed).2
      rw [stop] at end_
      rw [if_neg (Nat.not_lt.mpr long), if_pos isBrace, if_pos closed]
      simp only [mapError_ok, Except.map, end_]
      rfl
    · rw [if_neg closed]
      split
      · rfl
      · rw [if_neg fun isBrace => closed (closes.mp ⟨isBrace, by omega⟩)]
        rfl
  · rw [if_neg block, if_neg block]
    exact fail?_eq _ lies.name

theorem liesIn_interior {s : Statement} {r inside : Region} {word : String} (found : Statement.first? r = some s)
    (h : r.LiesIn document.toList) (ok : s.interior word = .ok inside) : inside.LiesIn document.toList := by
  unfold Statement.interior at ok
  split at ok
  · rename_i block
    dsimp only at ok
    split at ok
    · rename_i closed
      obtain ⟨-, -, -, tail, -⟩ := exists_block found h block
      exact Except.ok.inj ok ▸ (liesIn_dropLast (by decide) tail closed).1
    · simp at ok
  · simp at ok

theorem takeTags?_eq {s : Statement} {r : Region} (found : Statement.first? r = some s)
    (h : r.LiesIn document.toList) (tags : Tags) :
    takeTags? document tags (.ofStatement s) = some (settle document s.tags.2 (tags.insertAll s.tags.1)) := by
  have lies := liesIn_first? h found
  rw [takeTags?, Statement.tags, Extent.ofStatement]
  by_cases block : s.kind = .block
  · have opens := Statement.head?_value found block
    obtain ⟨last, read, closes, inside, stop⟩ := exists_block found h block
    have brace := holdsSign?_eq (s := '{') (by decide) lies.value
    change holdsSign? document '{' s.value.span.start s.value.span.stop = _ at brace
    change byte? document (s.value.span.stop - 1) = some last at read
    rw [if_pos block, brace, decide_eq_true opens, if_pos block]
    have size : s.value.span.size = byteSize s.value.chars := rfl
    simp only [Option.bind_eq_bind, Option.bind_some, if_true, read, size, closes]
    by_cases closed : s.value.chars.tail.getLast? = some '}'
    · obtain ⟨front, end_⟩ := liesIn_dropLast (by decide) inside closed
      have reads := readTags?_eq front tags
      rw [end_, stop] at reads
      rw [if_pos closed, if_pos closed]
      exact reads
    · have reads := readTags?_eq inside tags
      rw [stop] at reads
      rw [if_neg closed, if_neg closed]
      exact reads
  · rw [if_neg block, if_neg block]
    exact fail?_eq _ lies.name

/-- What a step makes of what is held, and where the loop goes on. -/
abbrev Step (β : Type) : Type := β → Extent → List Char → Option (Except ParseError (β × Nat))

def Step.overComments {β : Type} (take : Step β) : Step β := fun held e name =>
  if e.kind = .comment then some (.ok (held, e.stop)) else take held e name

variable (document)

/-- Takes the statements between two places, one after another. -/
def readBody? {β : Type} (take : Step β) (held : β) (pos stop : Nat) : Option (Except ParseError β) := do
  match ← scanStatement? document pos stop with
  | none => return .ok held
  | some e =>
    let name ← slice? document.toList e.name.start e.name.stop
    match ← take.overComments held e name with
    | .error error => return .error error
    | .ok (held, next) => if pos < next ∧ next ≤ stop then readBody? take held next stop else none
termination_by stop - pos

/-- Whether a step takes every statement in front of an end as a body does, where `add` is what an item
does to what is held. -/
structure Serves {α β : Type} (stop : Nat) (take : Step β) (body : Body α) (add : β → α → β) : Prop where
  takes {r : Region} {s : Statement} (held : β) : Statement.first? r = some s → r.LiesIn document.toList →
    r.stop = stop → s.kind ≠ .comment → take held (.ofStatement s) s.name.chars =
      some (settle document (body.fault? (body.read s).1) (add held (body.read s).1, (body.read s).2.start))
  comment {s : Statement} (held : β) : s.kind = .comment →
    body.fault? (body.read s).1 = none ∧ add held (body.read s).1 = held ∧ (body.read s).2 = s.rest
  onward (s : Statement) : (body.read s).2 = s.rest.onward (body.read s).2.chars

variable {document}

theorem onward_chars (r : Region) : r.onward r.chars = r := by
  show Region.mk (r.start + byteSize r.chars - byteSize r.chars) r.chars = r
  rw [Nat.add_sub_cancel]

theorem Serves.liesIn_read {α β : Type} {stop : Nat} {take : Step β} {body : Body α} {add : β → α → β}
    (serves : Serves document stop take body add) {r : Region} {s : Statement} (h : r.LiesIn document.toList)
    (ends : r.stop = stop) (found : Statement.first? r = some s) :
    (body.read s).2.LiesIn document.toList ∧ (body.read s).2.stop = stop ∧
      r.start < (body.read s).2.start ∧ (body.read s).2.start ≤ stop := by
  have lies := liesIn_first? h found
  have suffix := body.read_suffix s
  have size := byteSize_le_of_suffix suffix
  have stays : (s.rest.onward (body.read s).2.chars).stop = stop :=
    (Region.stop_onward suffix).trans (lies.stop_eq.trans ends)
  have further : s.rest.start ≤ (s.rest.onward (body.read s).2.chars).start := by
    show s.rest.start ≤ s.rest.start + byteSize s.rest.chars - _
    omega
  rw [serves.onward s]
  refine ⟨liesIn_onward lies.rest suffix, stays, Nat.lt_of_lt_of_le lies.start_lt further, ?_⟩
  rw [← stays]
  exact Nat.le_add_right _ _

theorem Serves.step {α β : Type} {stop : Nat} {take : Step β} {body : Body α} {add : β → α → β}
    (serves : Serves document stop take body add) {r : Region} (h : r.LiesIn document.toList)
    (ends : r.stop = stop) (held : β) :
    readBody? document take held r.start stop =
      match Statement.first? r with
      | none => some (.ok held)
      | some s =>
        match body.fault? (body.read s).1 with
        | some fault => some (.error (fault.locate document.toList))
        | none => readBody? document take (add held (body.read s).1) (body.read s).2.start stop := by
  have scanned := scanStatement?_eq h
  rw [ends] at scanned
  rw [readBody?, scanned]
  cases found : Statement.first? r with
  | none => rfl
  | some s =>
    have lies := liesIn_first? h found
    have name : slice? document.toList s.name.span.start s.name.span.stop = some s.name.chars :=
      slice?_of_liesIn lies.name
    have taken : take.overComments held (.ofStatement s) s.name.chars =
        some (settle document (body.fault? (body.read s).1) (add held (body.read s).1, (body.read s).2.start)) := by
      unfold Step.overComments
      split
      · rename_i isComment
        obtain ⟨noFault, kept, next⟩ := serves.comment held isComment
        rw [noFault, kept, next, ← lies.next]
        rfl
      · exact serves.takes held found h ends ‹_›
    obtain ⟨-, -, further, within⟩ := serves.liesIn_read h ends found
    simp only [Option.map_some, Option.bind_eq_bind, Option.bind_some]
    simp only [Extent.ofStatement] at name taken ⊢
    simp only [name, taken, Option.bind_some]
    cases body.fault? (body.read s).1 with
    | some fault => rfl
    | none => exact if_pos ⟨further, within⟩

theorem readBody?_eq {α β : Type} {stop : Nat} {take : Step β} {body : Body α} {add : β → α → β}
    (serves : Serves document stop take body add) {r : Region} (h : r.LiesIn document.toList)
    (ends : r.stop = stop) (held : β) :
    readBody? document take held r.start stop =
      some (settle document (body.faultOf? (body.entries r))
        ((body.entries r).foldl (fun held entry => add held entry.item) held)) := by
  fun_induction Body.entries body r generalizing held with
  | case1 r none => rw [serves.step h ends, none]; rfl
  | case2 r s found said ih =>
    obtain ⟨lies, stays, -, -⟩ := serves.liesIn_read h ends found
    have later := ih lies stays (add held said.1)
    rw [serves.step h ends, found]
    show (match body.fault? said.1 with
      | some fault => some (Except.error (fault.locate document.toList))
      | none => readBody? document take (add held said.1) said.2.start stop) = _
    unfold Body.faultOf? at later ⊢
    rw [List.findSome?_cons]
    cases fault : body.fault? said.1 with
    | some fault => rfl
    | none =>
      simp only [Option.isSome_none, Bool.false_eq_true, if_false, List.foldl_cons]
      exact later

end ShaderText.Bytewise
