import ShaderText.Proofs.Balanced
import ShaderText.Proofs.Faults
import ShaderText.Proofs.Tiling
import ShaderText.Proofs.Values

/-! Blocks that are accepted. The value of a block statement ends with the block or, if nothing closes the
block, with the text, and whether it was closed is told by its last character alone. Main statement: a closed
block is accepted, and its inside lies between its first brace and the one that closes it; a block that is
never closed is accepted if the text happens to end in a closing brace, and its statement is dropped otherwise.
-/
namespace ShaderText

open Bytewise

variable {s : Statement}

theorem Statement.interior_of_kind (block : s.kind = .block) (word : String) :
    s.interior word = if s.value.chars.tail.getLast? = some '}'
      then .ok ⟨s.value.start + 1, s.value.chars.tail.dropLast⟩
      else .error ⟨s.value.start, .unterminatedBlock word⟩ := if_pos block

theorem Statement.exists_interior_iff (block : s.kind = .block) (word : String) :
    (∃ inside, s.interior word = .ok inside) ↔ s.value.chars.tail.getLast? = some '}' := by
  rw [interior_of_kind block]
  split <;> simp_all

theorem Statement.interior_of_braced (block : s.kind = .block) (word : String) {inside : List Char}
    (braced : s.value.chars = '{' :: (inside ++ ['}'])) : s.interior word = .ok ⟨s.value.start + 1, inside⟩ := by
  rw [interior_of_kind block, braced]
  simp

/-- Reading a body from here on meets no fault and leaves what is held as it is. -/
def Body.PassesBy {α σ : Type} (body : Body α) (add : σ → α → σ) (r : Region) : Prop :=
  body.faultOf? (body.entries r) = none ∧
    ∀ held, (body.entries r).foldl (fun held entry => add held entry.item) held = held

/-- The child block that a statement names is dropped, whatever kind of child it is, and nothing is read behind it. -/
structure Statement.IsDropped (s : Statement) (r : Region) : Prop where
  pass : keyword? s.name.chars = some .pass → subShaderBody.PassesBy SubShader.add r
  subShader : keyword? s.name.chars = some .subShader → shaderBody.PassesBy Shader.add r
  stencil : keyword? s.name.chars = some .stencil → passBody.PassesBy Pass.add r ∧
    subShaderBody.PassesBy SubShader.add r ∧ shaderBody.PassesBy Shader.add r

section Dropped

variable {r : Region}

theorem Body.passesBy_of_last {α σ : Type} {body : Body α} {add : σ → α → σ} (found : Statement.first? r = some s)
    {item : α} (read : body.read s = (item, s.rest)) (fault : body.fault? item = none)
    (kept : ∀ held, add held item = held) (last : s.rest.chars = []) : body.PassesBy add r := by
  have ends : body.entries s.rest = [] := by
    rw [entries]
    split
    · rfl
    · rename_i next found'
      obtain ⟨c, cs, begins⟩ := Statement.exists_cons_of_first? found'
      rw [last] at begins
      contradiction
  have only : body.entries r = [⟨s, item⟩] := by
    rw [entries]
    split
    · simp_all
    · rename_i s' found'
      obtain rfl := Option.some.inj (found.symm.trans found')
      rw [read]
      simp [fault, ends]
  rw [PassesBy, only]
  exact ⟨by simp [faultOf?, fault], kept⟩

theorem Clause.read_of_stencil (word : keyword? s.name.chars = some .stencil) (block : s.kind = .block)
    {fault : Fault} (wrong : s.interior Keyword.stencil.word = .error fault) :
    read s = (.droppedStencil fault, s.rest) := by
  rw [read, if_neg (by simp [block]), word]
  simp only [wrong]

theorem Statement.isDropped_of_interior (found : first? r = some s) (block : s.kind = .block) {fault : String → Fault}
    (wrong : ∀ word, s.interior word = .error (fault word)) (last : s.rest.chars = []) : s.IsDropped r where
  -- the readers differ in the children they take, so each kind of child names its readers
  pass word := by
    have read : subShaderBody.read s = (.droppedPass (fault Keyword.pass.word), s.rest) := by
      show SubShaderItem.read s = _
      rw [SubShaderItem.read, if_pos ⟨by simp [block], word⟩, wrong]
    exact Body.passesBy_of_last found read rfl (fun _ => rfl) last
  subShader word := by
    have read : shaderBody.read s = (.droppedSubShader (fault Keyword.subShader.word), s.rest) := by
      show ShaderItem.read s = _
      rw [ShaderItem.read, if_neg (by simp [word]), if_pos ⟨by simp [block], word⟩, wrong]
    exact Body.passesBy_of_last found read rfl (fun _ => rfl) last
  stencil word := by
    have clause := Clause.read_of_stencil word block (wrong _)
    have inPass : passBody.read s = (.clause (.droppedStencil (fault Keyword.stencil.word)), s.rest) := by
      show PassItem.read s = _
      rw [PassItem.read, if_neg (by simp [word]), clause]
    have inSubShader : subShaderBody.read s = (.clause (.droppedStencil (fault Keyword.stencil.word)), s.rest) := by
      show SubShaderItem.read s = _
      rw [SubShaderItem.read, if_neg (by simp [word]), clause]
    have inShader : shaderBody.read s = (.clause (.droppedStencil (fault Keyword.stencil.word)), s.rest) := by
      show ShaderItem.read s = _
      rw [ShaderItem.read, if_neg (by simp [word]), if_neg (by simp [word]), clause]
    exact ⟨Body.passesBy_of_last found inPass rfl (fun _ => rfl) last,
      Body.passesBy_of_last found inSubShader rfl (fun _ => rfl) last,
      Body.passesBy_of_last found inShader rfl (fun _ => rfl) last⟩

end Dropped

theorem Remainder.ofName_of_block {cs afterName : List Char} (block : (ofName cs afterName).kind = .block) :
    ∃ inside, (ofName cs afterName).value = '{' :: inside ∧
      (ofName cs afterName).rest = (afterBlock? ('{' :: inside)).getD [] := by
  unfold ofName at *
  split at block
  · contradiction
  · split at block
    · contradiction
    · generalize afterSpaces afterName = value at *
      unfold ofValue at *
      split at block
      · contradiction
      · contradiction
      · exact ⟨_, rfl, rfl⟩
      · contradiction

/-- The value of a block ends with the block or, if nothing closes the block, with the text. -/
theorem Statement.block_cases {r : Region} (found : first? r = some s) (block : s.kind = .block) :
    (afterBlock? (s.value.chars ++ s.rest.chars) = none ∧ s.rest.chars = []) ∨
      (∃ inside, s.value.chars = '{' :: (inside ++ ['}'])) ∧
        afterBlock? (s.value.chars ++ s.rest.chars) = some s.rest.chars := by
  obtain ⟨c, cs, begins⟩ := exists_cons_of_first? found
  rw [first?_of_afterSpaces begins] at found
  obtain rfl := Option.some.inj found
  obtain ⟨inside, value, rest⟩ := Remainder.ofName_of_block block
  have name : cs.dropWhile isNameChar <:+ c :: cs := (List.dropWhile_suffix _).trans (List.suffix_cons c cs)
  have whole := take_append_of_suffix (Remainder.ofName_suffix name).2
  rw [value] at whole
  dsimp only [Region.upTo, Region.onward_chars]
  generalize (Remainder.ofName (c :: cs) (cs.dropWhile isNameChar)).rest = rest' at *
  rw [value]
  generalize ('{' :: inside).take _ = taken at *
  rw [whole]
  cases closes : afterBlock? ('{' :: inside) with
  | none =>
    rw [closes] at rest
    exact .inl ⟨rfl, rest⟩
  | some behind =>
    rw [closes] at rest
    obtain rfl : rest' = behind := rest
    rw [afterBlock?_cons] at closes
    obtain ⟨front, rfl⟩ := eq_append_of_afterClosing? closes
    have split : taken ++ rest' = '{' :: (front ++ ['}']) ++ rest' := by rw [whole]; simp
    exact .inr ⟨⟨front, List.append_cancel_right split⟩, rfl⟩

/-- Which blocks are accepted. A block statement in some part of a text is given an inside exactly if its block is
closed there or, when nothing closes the block, the part ends in a closing brace. The inside of a closed block lies
between its first brace and the brace that closes it, where reading goes on. A block that is given no inside has
no end, which is a recoverable fault, and its child is dropped. -/
theorem Statement.interior_exact (text : List Char) {start stop : Nat} (ordered : start ≤ stop)
    (first : IsBoundary text start) (last : IsBoundary text stop)
    (found : first? (.within text (.between start stop)) = some s) (block : s.kind = .block) (word : String) :
    let here := stretch text s.value.start stop
    ((∃ inside, s.interior word = .ok inside) ↔ (afterBlock? here).isSome ∨ here.tail.getLast? = some '}') ∧
      (∀ rest, afterBlock? here = some rest → ∃ inside, here = '{' :: (inside ++ '}' :: rest) ∧
        IsBlock ('{' :: (inside ++ ['}'])) ∧ s.interior word = .ok ⟨s.value.start + 1, inside⟩ ∧
        s.rest.chars = rest) ∧
      ((∀ inside, s.interior word ≠ .ok inside) →
        s.interior word = .error ⟨s.value.start, .unterminatedBlock word⟩ ∧
          (Cause.unterminatedBlock word).isRecoverable ∧ s.IsDropped (.within text (.between start stop))) := by
  intro here
  obtain ⟨lies, place⟩ := liesIn_within ordered first last
  have parts := liesIn_first? lies found
  have rest : Spans text s.value.stop s.rest.chars stop := by
    rw [parts.value_stop, ← place, ← parts.stop_eq]
    exact parts.rest
  have whole : here = s.value.chars ++ s.rest.chars := (parts.value.append rest).stretch_eq
  rw [whole, exists_interior_iff block]
  rcases block_cases found block with ⟨never, none⟩ | ⟨⟨inside, braced⟩, closes⟩
  · rw [never, none, List.append_nil]
    refine ⟨by simp, by simp, ?_⟩
    intro refused
    have noBrace : s.value.chars.tail.getLast? ≠ some '}' := fun brace =>
      (exists_interior_iff block word).mpr brace |>.elim refused
    have wrong (word : String) : s.interior word = .error ⟨s.value.start, .unterminatedBlock word⟩ := by
      rw [interior_of_kind block, if_neg noBrace]
    exact ⟨wrong word, rfl, isDropped_of_interior found block wrong none⟩
  · have accepted := interior_of_braced block word braced
    rw [closes]
    refine ⟨by simp [braced], ?_, fun refused => absurd accepted (refused _)⟩
    intro behind same
    obtain rfl := Option.some.inj same
    rw [braced] at closes ⊢
    obtain ⟨closed, isBlock, split⟩ := afterBlock?_eq_some_iff.mp closes
    obtain rfl : '{' :: (inside ++ ['}']) = closed := List.append_cancel_right split
    exact ⟨inside, by simp, isBlock, accepted, rfl⟩

theorem Statement.interior_exact_pass :
    let text := "é Pass \x7b \"\x7d\" \x7d Cull Off".toList
    (2 ≤ 24 ∧ IsBoundary text 2 ∧ IsBoundary text 24) ∧
      ∃ s, first? (.within text (.between 2 24)) = some s ∧ s.kind = .block ∧
        s.interior "Pass" = .ok ⟨9, " \"\x7d\" ".toList⟩ ∧ s.rest.chars = " Cull Off".toList := by
  intro text
  have first : IsBoundary text 2 := by decide +kernel
  have last : IsBoundary text 24 := by decide +kernel
  let s : Statement := ⟨.block, ⟨3, "Pass".toList⟩, ⟨8, "\x7b \"\x7d\" \x7d".toList⟩, ⟨15, " Cull Off".toList⟩⟩
  have found : first? (.within text (.between 2 24)) = some s := by decide +kernel
  obtain ⟨-, closed, -⟩ := interior_exact text (by decide) first last found rfl "Pass"
  obtain ⟨inside, braced, -, accepted, rest⟩ := closed " Cull Off".toList (by decide +kernel)
  have text_inside : stretch text 8 24 = '{' :: (" \"\x7d\" ".toList ++ '}' :: " Cull Off".toList) := by decide +kernel
  have same : inside = " \"\x7d\" ".toList := by
    rw [show s.value.start = 8 from rfl, text_inside] at braced
    exact (List.append_cancel_right (List.cons.inj braced).2).symm
  exact ⟨⟨by decide, first, last⟩, s, found, rfl, same ▸ accepted, rest⟩

theorem Statement.interior_exact_fails : ¬ ∀ (text : List Char) (start stop : Nat), start ≤ stop →
    IsBoundary text start → IsBoundary text stop → ∀ s, first? (.within text (.between start stop)) = some s →
      s.kind = .block → ∀ word, (∃ inside, s.interior word = .ok inside) ↔
        (afterBlock? (stretch text s.value.start stop)).isSome := by
  intro all
  let s : Statement := ⟨.block, ⟨0, "Pass".toList⟩, ⟨5, "\x7b\x7b\x7d".toList⟩, ⟨8, []⟩⟩
  have closes := (all "Pass \x7b\x7b\x7d".toList 0 8 (by decide) (by decide) (by decide) s (by decide +kernel) rfl
    "Pass").mp ⟨_, rfl⟩
  revert closes
  decide +kernel

end ShaderText
