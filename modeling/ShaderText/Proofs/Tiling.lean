import ShaderText.Proofs.Bytewise.Statement

/-! The statements of a region cover it. Each one is found where the last one ends, and between them, as
between a name and its value, there are only spaces. Main statement: for every part of a document the
gaps, names and values, put together in their order, are the text of that part, character by character.
-/
namespace ShaderText

open Bytewise

/-- The characters between two places of a text. -/
def stretch (text : List Char) (start stop : Nat) : List Char := (Region.within text (.between start stop)).chars

section Stretch

variable {text cs : List Char} {start stop : Nat}

theorem Bytewise.Spans.stretch_eq (h : Spans text start cs stop) : stretch text start stop = cs := by
  obtain ⟨front, back, rfl, rfl, rfl⟩ := h
  rw [stretch, Region.within, Span.between, Nat.add_sub_cancel_left]
  dsimp only
  rw [dropBytes_byteSize_append, takeBytes_byteSize_append]

theorem Bytewise.Spans.le (h : Spans text start cs stop) : start ≤ stop := by
  rw [h.stop_eq]
  exact Nat.le_add_right _ _

theorem eq_nil_of_byteSize_le (h : byteSize cs ≤ 0) : cs = [] := by
  cases cs with
  | nil => rfl
  | cons c cs =>
    have size := c.utf8Size_pos
    simp only [byteSize_cons] at h
    omega

theorem spans_stretch (ordered : start ≤ stop) (first : IsBoundary text start) (last : IsBoundary text stop) :
    Spans text start (stretch text start stop) stop := by
  have split := takeBytes_append_dropBytes start text
  have split' := takeBytes_append_dropBytes stop text
  obtain ⟨middle, longer, rest⟩ : ∃ middle, takeBytes stop text = takeBytes start text ++ middle ∧
      dropBytes start text = middle ++ dropBytes stop text := by
    rcases List.append_eq_append_iff.mp (split.trans split'.symm) with ⟨middle, longer, rest⟩ | ⟨middle, shorter, rest⟩
    · exact ⟨middle, longer, rest⟩
    · have size := congrArg byteSize shorter
      rw [byteSize_append, first, last] at size
      have empty : byteSize middle ≤ 0 := by omega
      obtain rfl := eq_nil_of_byteSize_le empty
      exact ⟨[], by simpa using shorter.symm, by simpa using rest.symm⟩
  have spans : Spans text start middle stop := by
    refine ⟨takeBytes start text, dropBytes stop text, ?_, first.symm, ?_⟩
    · rw [← rest, split]
    · have size := congrArg byteSize longer
      rw [byteSize_append, first, last] at size
      exact size
  rw [spans.stretch_eq]
  exact spans

theorem within_eq {r : Region} (h : r.LiesIn text) : Region.within text (.between r.start r.stop) = r := by
  have chars : stretch text r.start r.stop = r.chars := Spans.stretch_eq h
  exact congrArg (Region.mk r.start) chars

end Stretch

theorem Remainder.exists_gap (cs afterName : List Char) :
    ∃ gap, afterName = gap ++ (ofName cs afterName).value ∧ gap.all isSpace := by
  have spaces : ∃ gap, afterName = gap ++ afterSpaces afterName ∧ gap.all isSpace :=
    ⟨afterName.takeWhile isSpace, List.takeWhile_append_dropWhile.symm, List.all_takeWhile⟩
  unfold ofName
  cases afterComment? cs with
  | some rest => exact ⟨[], rfl, rfl⟩
  | none =>
    cases sentinel? (cs.take (cs.length - afterName.length)) with
    | some s => exact ⟨[], rfl, rfl⟩
    | none =>
      dsimp only
      rw [(ofValue_suffix _).1]
      exact spaces

theorem Statement.exists_parts {r : Region} {s : Statement} (found : first? r = some s) :
    ∃ gap gap', r.chars = gap ++ (s.name.chars ++ (gap' ++ (s.value.chars ++ s.rest.chars))) ∧
      gap.all isSpace ∧ gap'.all isSpace ∧ s.name.chars ≠ [] ∧ s.name.start = r.start + byteSize gap ∧
      s.value.start = s.name.stop + byteSize gap' ∧ s.rest.start = s.value.stop := by
  obtain ⟨c, cs, begins⟩ := exists_cons_of_first? found
  rw [first?_of_afterSpaces begins] at found
  obtain rfl := Option.some.inj found
  have name : cs.dropWhile isNameChar <:+ c :: cs := (List.dropWhile_suffix _).trans (List.suffix_cons c cs)
  obtain ⟨-, rest⟩ := Remainder.ofName_suffix name
  obtain ⟨gap', between, spaces'⟩ := Remainder.exists_gap (c :: cs) (cs.dropWhile isNameChar)
  generalize Remainder.ofName (c :: cs) (cs.dropWhile isNameChar) = found at between rest
  obtain ⟨kind, value, rest'⟩ := found
  obtain ⟨inside, whole⟩ := rest
  dsimp only at between whole
  subst whole
  obtain ⟨word, isWord⟩ : ∃ word, c :: cs = (c :: word) ++ (gap' ++ (inside ++ rest')) := by
    refine ⟨cs.takeWhile isNameChar, ?_⟩
    rw [← between, List.cons_append, List.takeWhile_append_dropWhile]
  have front : r.chars = r.chars.takeWhile isSpace ++ (c :: cs) := by
    rw [← begins]
    exact List.takeWhile_append_dropWhile.symm
  have spaces : (r.chars.takeWhile isSpace).all isSpace := List.all_takeWhile
  obtain ⟨start, chars⟩ := r
  dsimp only at front spaces
  generalize chars.takeWhile isSpace = gap at front spaces
  subst front
  -- each part is cut off in front of the text that is left
  dsimp only
  rw [between, isWord, Region.onward_append, Region.upTo_append, ← List.append_assoc (c :: word) gap',
    Region.onward_append, Region.upTo_append, ← List.append_assoc _ inside, Region.onward_append]
  refine ⟨gap, gap', ?_, spaces, spaces', List.cons_ne_nil c word, rfl, ?_, ?_⟩
  · simp
  · simp [Region.stop, Nat.add_assoc]
  · simp [Region.stop, Nat.add_assoc]

/-- Where a statement ends: with its name or with its value, whichever goes further. -/
def Statement.stop (s : Statement) : Nat := max s.name.stop s.value.stop

/-- A statement has its place between `cursor` and `stop`, and in front of its name and its value there are
only spaces. -/
structure Statement.SitsIn (s : Statement) (text : List Char) (cursor stop : Nat) : Prop where
  ordered : cursor ≤ s.name.start ∧ s.name.start < s.name.stop ∧ s.name.stop ≤ s.value.start ∧
    s.value.start ≤ s.value.stop ∧ s.value.stop ≤ stop
  boundaries : ∀ place ∈ [s.name.start, s.name.stop, s.value.start, s.value.stop], IsBoundary text place
  name : stretch text s.name.start s.name.stop = s.name.chars
  value : stretch text s.value.start s.value.stop = s.value.chars
  beforeName : (stretch text cursor s.name.start).all isSpace
  beforeValue : (stretch text s.name.stop s.value.start).all isSpace
  next : s.stop = s.value.stop

section OneStatement

variable {text : List Char} {r : Region} {s : Statement}

theorem Statement.sitsIn_first? (h : r.LiesIn text) (found : first? r = some s) :
    s.SitsIn text r.start r.stop ∧ s.rest.LiesIn text ∧ s.rest.start = s.value.stop ∧ s.rest.stop = r.stop := by
  have lies := liesIn_first? h found
  obtain ⟨gap, gap', whole, spaces, spaces', nonempty, nameStart, valueStart, restStart⟩ := exists_parts found
  rw [Region.LiesIn, whole] at h
  have inFront : Spans text r.start gap s.name.start := by
    rw [nameStart]
    exact h.split.1
  have inBetween : Spans text s.name.stop gap' s.value.start := by
    have behind := h.split.2
    rw [← nameStart] at behind
    rw [valueStart]
    exact behind.split.2.split.1
  have order : s.name.start < s.name.stop := start_lt_stop_iff.mpr nonempty
  have toEnd : s.value.stop ≤ r.stop := by
    rw [← restStart, ← lies.stop_eq]
    exact lies.rest.le
  refine ⟨⟨⟨inFront.le, order, inBetween.le, lies.value.le, toEnd⟩, ?_, lies.name.stretch_eq, lies.value.stretch_eq,
    ?_, ?_, ?_⟩, lies.rest, restStart, lies.stop_eq⟩
  · simp only [List.forall_mem_cons, List.not_mem_nil, false_implies, implies_true, and_true]
    exact ⟨lies.name.isBoundary.1, lies.name.isBoundary.2, lies.value.isBoundary⟩
  · rw [inFront.stretch_eq]
    exact spaces
  · rw [inBetween.stretch_eq]
    exact spaces'
  · have value := lies.value.le
    have between := inBetween.le
    rw [Statement.stop]
    omega

theorem Statement.SitsIn.stretch_append {cursor stop : Nat} (h : s.SitsIn text cursor stop)
    (first : IsBoundary text cursor) (last : IsBoundary text stop) :
    stretch text cursor s.name.start ++ (stretch text s.name.start s.name.stop ++
      (stretch text s.name.stop s.value.start ++ (stretch text s.value.start s.value.stop ++
        stretch text s.value.stop stop))) = stretch text cursor stop := by
  obtain ⟨beforeName, inName, beforeValue, inValue, toEnd⟩ := h.ordered
  have boundaries := h.boundaries
  simp only [List.forall_mem_cons, List.not_mem_nil, false_implies, implies_true, and_true] at boundaries
  obtain ⟨nameStart, nameStop, valueStart, valueStop⟩ := boundaries
  have spans := (spans_stretch beforeName first nameStart).append
    ((spans_stretch (Nat.le_of_lt inName) nameStart nameStop).append
      ((spans_stretch beforeValue nameStop valueStart).append
        ((spans_stretch inValue valueStart valueStop).append (spans_stretch toEnd valueStop last))))
  exact spans.stretch_eq.symm

end OneStatement

/-- The statements found up to a place, each looked for where the one before it ends. -/
inductive Scans (text : List Char) (stop : Nat) : Nat → List Statement → Prop
  | done {cursor : Nat} (none : Statement.first? (.within text (.between cursor stop)) = none) :
      Scans text stop cursor []
  | step {cursor : Nat} {s : Statement} {rest : List Statement}
      (first : Statement.first? (.within text (.between cursor stop)) = some s) (onward : Scans text stop s.stop rest) :
      Scans text stop cursor (s :: rest)

/-- Statements that lie one behind the other up to a place, with only spaces between them and after the last one. -/
def Tiles (text : List Char) (stop : Nat) : Nat → List Statement → Prop
  | cursor, [] => cursor ≤ stop ∧ (stretch text cursor stop).all isSpace
  | cursor, s :: rest => s.SitsIn text cursor stop ∧ Tiles text stop s.stop rest

/-- The gaps, names and values of statements, put together in their order. -/
def assembled (text : List Char) (stop : Nat) : Nat → List Statement → List Char
  | cursor, [] => stretch text cursor stop
  | cursor, s :: rest =>
    stretch text cursor s.name.start ++ (stretch text s.name.start s.name.stop ++
      (stretch text s.name.stop s.value.start ++ (stretch text s.value.start s.value.stop ++
        assembled text stop s.stop rest)))

section Statements

variable {text : List Char}

theorem all_isSpace_of_first? {r : Region} (none : Statement.first? r = none) : r.chars.all isSpace := by
  unfold Statement.first? at none
  split at none
  · rename_i spaces
    have whole : r.chars.takeWhile isSpace ++ afterSpaces r.chars = r.chars := List.takeWhile_append_dropWhile
    rw [spaces, List.append_nil] at whole
    rw [← whole]
    exact List.all_takeWhile
  · contradiction

theorem liesIn_within {start stop : Nat} (ordered : start ≤ stop) (first : IsBoundary text start)
    (last : IsBoundary text stop) : (Region.within text (.between start stop)).LiesIn text ∧
      (Region.within text (.between start stop)).stop = stop :=
  (spans_stretch ordered first last).liesIn

theorem Region.LiesIn.scans {r : Region} (h : r.LiesIn text) : Scans text r.stop r.start r.statements := by
  fun_induction Region.statements r with
  | case1 r none =>
    apply Scans.done
    rw [within_eq h, none]
  | case2 r s first ih =>
    obtain ⟨sits, lies, start, stop⟩ := Statement.sitsIn_first? h first
    have onward := ih lies
    rw [start, stop, ← sits.next] at onward
    refine Scans.step ?_ onward
    rw [within_eq h, first]

/-- Whatever a scan finds tiles the stretch it went over. -/
theorem Scans.tiles {cursor stop : Nat} {found : List Statement} (h : Scans text stop cursor found)
    (ordered : cursor ≤ stop) (first : IsBoundary text cursor) (last : IsBoundary text stop) :
    Tiles text stop cursor found ∧ assembled text stop cursor found = stretch text cursor stop := by
  induction h with
  | done none => exact ⟨⟨ordered, all_isSpace_of_first? none⟩, rfl⟩
  | @step cursor s rest begins _ ih =>
    obtain ⟨lies, place⟩ := liesIn_within ordered first last
    obtain ⟨sits, -, -, -⟩ := Statement.sitsIn_first? lies begins
    rw [place] at sits
    have toEnd : s.stop ≤ stop := by
      rw [sits.next]
      exact sits.ordered.2.2.2.2
    have boundary : IsBoundary text s.stop := by
      rw [sits.next]
      exact sits.boundaries _ (by simp)
    obtain ⟨tiles, whole⟩ := ih toEnd boundary
    refine ⟨⟨sits, tiles⟩, ?_⟩
    rw [assembled, whole, sits.next]
    exact sits.stretch_append first last

/-- The statements of any part of a text tile it: one after another, from the end of the last, with nothing but spaces
in front of names and values and behind the last value. Put together, they are the text of that part. -/
theorem statements_tile (text : List Char) {start stop : Nat} (ordered : start ≤ stop) (first : IsBoundary text start)
    (last : IsBoundary text stop) :
    let found := (Region.within text (.between start stop)).statements
    Scans text stop start found ∧ Tiles text stop start found ∧
      assembled text stop start found = stretch text start stop := by
  obtain ⟨lies, place⟩ := liesIn_within ordered first last
  have scans : Scans text stop start (Region.within text (.between start stop)).statements := by
    have scans := lies.scans
    rwa [place] at scans
  exact ⟨scans, scans.tiles ordered first last⟩

theorem statements_tile_unclosed :
    let text := "é //λ\nCull Off /*b*/CGPROGRAM Tags\x7b \"λ\x7d;".toList
    let found := (Region.within text (.between 2 41)).statements
    2 ≤ 41 ∧ IsBoundary text 2 ∧ IsBoundary text 41 ∧ found.map (·.kind) = [.comment, .bare, .comment, .block] ∧
      Scans text 41 2 found ∧ Tiles text 41 2 found ∧ assembled text 41 2 found = stretch text 2 41 := by
  intro text found
  have first : IsBoundary text 2 := by decide +kernel
  have last : IsBoundary text 41 := by decide +kernel
  have kinds : found.map (·.kind) = [.comment, .bare, .comment, .block] := by decide +kernel
  exact ⟨by decide, first, last, kinds, statements_tile text (by decide) first last⟩

end Statements

end ShaderText
