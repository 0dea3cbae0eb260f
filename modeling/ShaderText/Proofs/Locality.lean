import ShaderText.Proofs.Located
import ShaderText.Proofs.Respelling.Outline

/-! Children that are read for themselves. A pass or a sub-shader is read from the text between its braces,
and neither what stands in front of it nor what follows has a part in it. Main statement: blocks with the
same text, in whatever documents, give the same child, or errors of one cause that stand equally far behind
their opening braces.
-/
namespace ShaderText

open Bytewise

/-- The motion that carries the text from place `a` on to place `b` and changes no character. -/
def Motion.shift (a b : Nat) : Motion where
  image c := [c]
  image_alike c := .inr ⟨c, rfl, rfl⟩
  place n := n - a + b

namespace Motion

section Shift

variable (a b : Nat)

@[simp] theorem text_shift (cs : List Char) : (shift a b).text cs = cs := List.flatMap_singleton' cs

@[simp] theorem string_shift : (shift a b).string = id := by
  funext s
  rw [Respelling.string, text_shift, String.ofList_toList, id]

@[simp] theorem pair_shift : (shift a b).pair = id := by
  funext p
  rw [Respelling.pair, string_shift]
  rfl

theorem fault_shift (offset : Nat) (c : Cause) : (shift a b).fault ⟨a + offset, c⟩ = ⟨b + offset, c⟩ := by
  have place : (shift a b).place (a + offset) = b + offset := by
    show a + offset - a + b = b + offset
    omega
  have cause : (shift a b).cause c = c := by
    cases c with
    | missingShader found => exact congrArg Cause.missingShader (congrFun (string_shift a b) found)
    | _ => rfl
  rw [fault, place, cause]

variable {a}

theorem follows_shift {r : Region} (h : a ≤ r.start) : (shift a b).Follows r := by
  intro front back _
  rw [text_shift]
  show r.start + byteSize front - a + b = r.start - a + b + byteSize front
  omega

variable (a)

theorem add_clause_shift (block : Block) (said : Clause) : block.add ((shift a b).clause said) = block.add said := by
  cases said with
  | stencil entries =>
    have fields : (entries.map (shift a b).stencilEntry).filterMap (·.field?) = entries.filterMap (·.field?) := by
      rw [List.filterMap_map]
      apply congrArg (List.filterMap · entries)
      funext entry
      simp [stencilEntry]
    rw [clause, Block.add, Block.add, fields]
  | program sentinel lines => simp [clause, Block.add]
  | tags pairs fault? => simp [clause, Block.add]
  | state known value => simp [clause, Block.add]
  | _ => rfl

theorem add_passItem_shift (p : Pass) (item : PassItem) : p.add ((shift a b).passItem item) = p.add item := by
  cases item with
  | name value => simp [passItem, Pass.add]
  | clause said => rw [passItem, Pass.add, Pass.add, add_clause_shift]

end Shift

theorem foldl_entry {α β : Type} (m : Motion) {add : β → α → β} {move : α → α}
    (same : ∀ held item, add held (move item) = add held item) (entries : List (Entry α)) (held : β) :
    (entries.map (m.entry move)).foldl (fun held e => add held e.item) held =
      entries.foldl (fun held e => add held e.item) held := by
  rw [List.foldl_map]
  simp only [entry, same]

theorem add_subShaderItem_shift (a b : Nat) (s : SubShader) (item : SubShaderItem) :
    s.add ((shift a b).subShaderItem item) = s.add item := by
  cases item with
  | pass entries =>
    have pass : Pass.ofEntries (entries.map ((shift a b).entry (shift a b).passItem)) = Pass.ofEntries entries :=
      foldl_entry _ (add_passItem_shift a b) entries _
    rw [subShaderItem, SubShader.add, SubShader.add, pass]
  | droppedPass f => rfl
  | clause said => rw [subShaderItem, SubShader.add, SubShader.add, add_clause_shift]

end Motion

section Within

variable {document : String} {f : Fault}

/-- Whether an offset lies in a region or at one of its ends. -/
def Region.Reaches (r : Region) (offset : Nat) : Prop := r.start ≤ offset ∧ offset ≤ r.stop

theorem Statement.Fails.reaches {r : Region} {s : Statement} (h : s.Fails f) (lies : r.LiesIn document.toList)
    (found : first? r = some s) : r.Reaches f.offset := by
  have sits := (sitsIn_first? lies found).1
  have order := sits.ordered
  have next := sits.next
  cases h with
  | endless =>
    refine ⟨order.1, ?_⟩
    show s.name.start ≤ r.stop
    omega
  | tags _ wrong =>
    obtain ⟨here, -, offset, after, before⟩ := exists_place_of_tags lies found wrong
    rw [offset]
    exact ⟨by omega, by omega⟩

/-- A fault of a body stands in the text that is read as soon as the fault of a statement stands in the text
that the statement is found in. -/
theorem Bytewise.Serves.reaches {α β : Type} {stop : Nat} {take : Step β} {body : Body α} {add : β → α → β}
    (serves : Serves document stop take body add)
    (each : ∀ {r : Region} {s : Statement}, r.LiesIn document.toList → Statement.first? r = some s →
      body.fault? (body.read s).1 = some f → r.Reaches f.offset)
    {r : Region} (h : r.LiesIn document.toList) (ends : r.stop = stop)
    (found : body.faultOf? (body.entries r) = some f) : r.Reaches f.offset := by
  fun_induction Body.entries body r with
  | case1 => simp [Body.faultOf?] at found
  | case2 r s first said ih =>
    unfold Body.faultOf? at found ih
    rw [List.findSome?_cons] at found
    cases here : body.fault? said.1 with
    | some g =>
      rw [here] at found
      exact each h first (here.trans found)
    | none =>
      obtain ⟨lies, stays, further, -⟩ := serves.liesIn_read h ends first
      simp only [here, Option.isSome_none, Bool.false_eq_true, if_false] at found ih
      obtain ⟨after, before⟩ := ih lies stays found
      change said.2.stop = stop at stays
      change r.start < said.2.start at further
      exact ⟨by omega, by omega⟩

theorem reaches_passBody {r : Region} (h : r.LiesIn document.toList)
    (found : passBody.faultOf? (passBody.entries r) = some f) : r.Reaches f.offset :=
  (serves_takePass? r.stop).reaches
    (fun lies first wrong => (PassItem.fails_of_read wrong).reaches lies first) h rfl found

theorem reaches_interior {s : Statement} {word : String} {r inside : Region} (lies : r.LiesIn document.toList)
    (found : Statement.first? r = some s) (ok : s.interior word = .ok inside) {offset : Nat}
    (h : inside.Reaches offset) : r.Reaches offset := by
  have order := (Statement.sitsIn_first? lies found).1.ordered
  unfold Statement.interior at ok
  split at ok
  · rename_i block
    dsimp only at ok
    split at ok
    · rename_i closed
      obtain ⟨-, -, -, tail, stop⟩ := exists_block found lies block
      obtain ⟨-, stop'⟩ := liesIn_dropLast (by decide) tail closed
      obtain rfl := Except.ok.inj ok
      obtain ⟨after, before⟩ := h
      dsimp only at after stop'
      exact ⟨by omega, by omega⟩
    · contradiction
  · contradiction

theorem reaches_subShaderBody {r : Region} (h : r.LiesIn document.toList)
    (found : subShaderBody.faultOf? (subShaderBody.entries r) = some f) : r.Reaches f.offset := by
  apply (serves_takeSubShader? r.stop).reaches _ h rfl found
  intro place s lies first wrong
  rcases SubShaderItem.fault_cases wrong with ⟨inside, -, block, later⟩ | fails
  · exact reaches_interior lies first block (reaches_passBody (liesIn_interior first lies block) later)
  · exact fails.reaches lies first

end Within

/-- Two readings with the same result, or with errors of one cause that stand equally far behind the starts of
two values. -/
inductive ReadAlike {β : Type} (document document' : String) (v v' : Span) :
    Option (Except ParseError β) → Option (Except ParseError β) → Prop
  | ok (child : β) : ReadAlike document document' v v' (some (.ok child)) (some (.ok child))
  | error (offset : Nat) (cause : Cause) (inside : offset ≤ v.size) :
      ReadAlike document document' v v' (some (.error (Fault.locate ⟨v.start + offset, cause⟩ document.toList)))
        (some (.error (Fault.locate ⟨v'.start + offset, cause⟩ document'.toList)))

/-- A body that depends on its text alone: its faults stand in the text, and when the text is moved its items
move along without a change to what they add. -/
structure Body.IsLocal {α β : Type} (body : Body α) (take : String → Nat → Step β) (add : β → α → β)
    (move : Motion → α → α) : Prop where
  serves (document : String) (stop : Nat) : Serves document stop (take document stop) body add
  reaches {document : String} {r : Region} {f : Fault} : r.LiesIn document.toList →
    body.faultOf? (body.entries r) = some f → r.Reaches f.offset
  commutes (m : Motion) : m.Commutes body (move m)
  add_move (a b : Nat) (held : β) (item : α) : add held (move (.shift a b) item) = add held item

theorem isLocal_passBody : passBody.IsLocal takePass? Pass.add Motion.passItem where
  serves _ := serves_takePass?
  reaches := reaches_passBody
  commutes _ := Motion.commutes_passBody
  add_move := Motion.add_passItem_shift

theorem isLocal_subShaderBody : subShaderBody.IsLocal takeSubShader? SubShader.add Motion.subShaderItem where
  serves _ := serves_takeSubShader?
  reaches := reaches_subShaderBody
  commutes _ := Motion.commutes_subShaderBody
  add_move := Motion.add_subShaderItem_shift

section Reading

variable {document document' : String} {s s' : Statement} {r r' : Region}

theorem readBlock?_alike {α β : Type} {body : Body α} {take : String → Nat → Step β} {add : β → α → β}
    {move : Motion → α → α} (h : body.IsLocal take add move) (word : String) (empty : β)
    (lies : r.LiesIn document.toList) (found : Statement.first? r = some s) (block : s.kind = .block)
    (lies' : r'.LiesIn document'.toList) (found' : Statement.first? r' = some s') (block' : s'.kind = .block)
    (same : s.value.chars = s'.value.chars) :
    ReadAlike document document' s.value.span s'.value.span
      (readBlock? document word (take document) empty (.ofStatement s))
      (readBlock? document' word (take document') empty (.ofStatement s')) := by
  obtain ⟨inside, begins⟩ := List.head?_eq_some_iff.mp (Statement.head?_value found block)
  have value : s.value = ⟨s.value.start, '{' :: inside⟩ := by rw [← begins]
  have value' : s'.value = ⟨s'.value.start, '{' :: inside⟩ := by rw [← begins, same]
  rw [readBlock?_eq (h.serves document) found lies, readBlock?_eq (h.serves document') found' lies',
    Motion.interior_eq block value, Motion.interior_eq block' value']
  by_cases closed : inside.getLast? = some '}'
  · -- the inside of the one block is that of the other, moved
    have moved : (Motion.shift s.value.start s'.value.start).region ⟨s.value.start + 1, inside.dropLast⟩ =
        ⟨s'.value.start + 1, inside.dropLast⟩ := by
      rw [Motion.region, Motion.text_shift]
      apply congrArg (Region.mk · inside.dropLast)
      show s.value.start + 1 - s.value.start + s'.value.start = s'.value.start + 1
      omega
    have commutes := h.commutes (.shift s.value.start s'.value.start)
    have entries := commutes.entries (Motion.follows_shift s'.value.start (Nat.le_succ s.value.start) :
      (Motion.shift s.value.start s'.value.start).Follows ⟨s.value.start + 1, inside.dropLast⟩)
    obtain ⟨-, -, -, tail, stop⟩ := exists_block found lies block
    rw [begins, List.tail_cons] at tail stop
    obtain ⟨front, stop'⟩ := liesIn_dropLast (by decide) tail closed
    have child := Motion.foldl_entry (.shift s.value.start s'.value.start)
      (h.add_move s.value.start s'.value.start) (body.entries ⟨s.value.start + 1, inside.dropLast⟩) empty
    rw [if_pos closed, if_pos closed]
    dsimp only
    rw [← moved, entries, commutes.faultOf?, child]
    cases wrong : body.faultOf? (body.entries ⟨s.value.start + 1, inside.dropLast⟩) with
    | none => exact .ok _
    | some f =>
      obtain ⟨after, before⟩ := h.reaches front wrong
      obtain ⟨offset, cause⟩ := f
      dsimp only at after before stop'
      obtain ⟨offset, rfl⟩ := Nat.exists_eq_add_of_le (Nat.le_of_succ_le after)
      rw [Option.map_some, Motion.fault_shift]
      apply ReadAlike.error offset cause
      show offset ≤ byteSize s.value.chars
      have size : s.value.stop = s.value.start + byteSize s.value.chars := rfl
      omega
  · rw [if_neg closed, if_neg closed]
    exact .error 0 _ (Nat.zero_le _)

end Reading

theorem scanStatement?_within {document : String} {pos stop : Nat} (ordered : pos ≤ stop)
    (first : IsBoundary document.toList pos) (last : IsBoundary document.toList stop) :
    scanStatement? document pos stop =
      some ((Statement.first? (.within document.toList (.between pos stop))).map Extent.ofStatement) := by
  obtain ⟨lies, place⟩ := liesIn_within ordered first last
  have found := scanStatement?_eq lies
  rwa [place] at found

structure Bytewise.Extent.IsBlockOf (e : Extent) (document : String) : Prop where
  scanned : ∃ pos stop, pos ≤ stop ∧ IsBoundary document.toList pos ∧ IsBoundary document.toList stop ∧
    scanStatement? document pos stop = some (some e)
  block : e.kind = .block

theorem Bytewise.Extent.IsBlockOf.exists_statement {document : String} {e : Extent} (h : e.IsBlockOf document) :
    ∃ (r : Region) (s : Statement), r.LiesIn document.toList ∧ Statement.first? r = some s ∧
      e = .ofStatement s ∧ s.kind = .block := by
  obtain ⟨⟨pos, stop, ordered, first, last, scanned⟩, block⟩ := h
  rw [scanStatement?_within ordered first last, Option.some.injEq] at scanned
  obtain ⟨s, found, rfl⟩ := Option.map_eq_some_iff.mp scanned
  exact ⟨_, s, (liesIn_within ordered first last).1, found, rfl, block⟩

def readPass? (document : String) (e : Extent) : Option (Except ParseError Pass) :=
  readBlock? document Keyword.pass.word (takePass? document) (.named none) e

def readSubShader? (document : String) (e : Extent) : Option (Except ParseError SubShader) :=
  readBlock? document Keyword.subShader.word (takeSubShader? document) .empty e

/-- Two blocks with the same text are read alike as passes and as sub-shaders, in whatever documents they
stand: the text between their braces is all that is looked at. -/
theorem child_read_from_its_text {document document' : String} {e e' : Extent} (h : e.IsBlockOf document)
    (h' : e'.IsBlockOf document')
    (same : slice? document.toList e.value.start e.value.stop = slice? document'.toList e'.value.start e'.value.stop) :
    ReadAlike document document' e.value e'.value (readPass? document e) (readPass? document' e') ∧
      ReadAlike document document' e.value e'.value (readSubShader? document e) (readSubShader? document' e') := by
  obtain ⟨r, s, lies, found, rfl, block⟩ := h.exists_statement
  obtain ⟨r', s', lies', found', rfl, block'⟩ := h'.exists_statement
  have value : slice? document.toList s.value.span.start s.value.span.stop = some s.value.chars :=
    slice?_of_liesIn (liesIn_first? lies found).value
  have value' : slice? document'.toList s'.value.span.start s'.value.span.stop = some s'.value.chars :=
    slice?_of_liesIn (liesIn_first? lies' found').value
  have text : s.value.chars = s'.value.chars := Option.some.inj (value.symm.trans (same.trans value'))
  constructor
  · exact readBlock?_alike isLocal_passBody _ _ lies found block lies' found' block' text
  · exact readBlock?_alike isLocal_subShaderBody _ _ lies found block lies' found' block' text

theorem child_read_from_its_text_tags :
    let document := "Pass \x7bTags\x7ba=\x7d\x7d"
    let document' := "é \x7d pass\n\x7bTags\x7ba=\x7d\x7d/*"
    let e : Extent := ⟨.block, ⟨0, 4⟩, ⟨5, 10⟩⟩
    let e' : Extent := ⟨.block, ⟨5, 4⟩, ⟨10, 10⟩⟩
    e.IsBlockOf document ∧ e'.IsBlockOf document' ∧
      slice? document.toList e.value.start e.value.stop = slice? document'.toList e'.value.start e'.value.stop ∧
      ReadAlike document document' e.value e'.value (readPass? document e) (readPass? document' e') ∧
      ReadAlike document document' e.value e'.value (readSubShader? document e) (readSubShader? document' e') := by
  intro document document' e e'
  have scanned : scanStatement? document 0 15 = some (some e) := by
    rw [scanStatement?_within (by decide) (by decide) (by decide)]
    decide +kernel
  have scanned' : scanStatement? document' 4 22 = some (some e') := by
    rw [scanStatement?_within (by decide) (by decide) (by decide)]
    decide +kernel
  have h : e.IsBlockOf document := ⟨⟨0, 15, by decide, by decide, by decide, scanned⟩, rfl⟩
  have h' : e'.IsBlockOf document' := ⟨⟨4, 22, by decide, by decide, by decide, scanned'⟩, rfl⟩
  have same : slice? document.toList e.value.start e.value.stop =
      slice? document'.toList e'.value.start e'.value.stop := by decide
  exact ⟨h, h', same, child_read_from_its_text h h' same⟩

end ShaderText
