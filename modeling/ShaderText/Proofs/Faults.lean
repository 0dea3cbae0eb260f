import ShaderText.Outline

/-! What can end the reading of a body. A statement does it with a program that is not closed or with a tag
that is not well formed. Main statement: a fault inside a body is one of these two, in whatever child block
it stands; so a shader that is missing is reported for the first name of the document only, which stands on
one line.
-/
namespace ShaderText

/-- The faults that end the reading of a body. -/
def Fault.IsInner (f : Fault) : Prop :=
  (∃ sentinel, f.cause = .unterminatedProgram sentinel) ∨ f.cause = .malformedTags

theorem Fault.IsInner.isRecoverable {f : Fault} (h : f.IsInner) : f.cause.isRecoverable = false := by
  rcases h with ⟨sentinel, cause⟩ | cause <;> rw [cause] <;> rfl

theorem Region.cause_of_tag {r : Region} {f : Fault} (h : r.tag = .error f) : f.cause = .malformedTags := by
  unfold tag at h
  split at h
  · exact Except.error.inj h ▸ rfl
  · dsimp only at h
    split at h
    · split at h
      · exact Except.error.inj h ▸ rfl
      · simp at h
    · exact Except.error.inj h ▸ rfl

theorem Region.cause_of_tags {r : Region} {f : Fault} (h : r.tags.2 = some f) : f.cause = .malformedTags := by
  fun_induction Region.tags r with
  | case1 => simp at h
  | case2 r place more fault wrong => exact Option.some.inj h ▸ cause_of_tag wrong
  | case3 r place more pair rest ok pairs fault? read ih =>
    rw [read] at ih
    exact ih h

theorem Statement.cause_of_tags {s : Statement} {f : Fault} (h : s.tags.2 = some f) :
    f.cause = .malformedTags := by
  unfold Statement.tags at h
  split at h
  · exact Region.cause_of_tags h
  · exact Option.some.inj h ▸ rfl

theorem Statement.isRecoverable_of_interior {s : Statement} {word : String} {f : Fault}
    (h : s.interior word = .error f) : f.cause.isRecoverable = true := by
  unfold Statement.interior at h
  split at h
  · dsimp only at h
    split at h
    · simp at h
    · exact Except.error.inj h ▸ rfl
  · exact Except.error.inj h ▸ rfl

def Statement.Says (s : Statement) (k : Keyword) : Prop :=
  s.kind ≠ .comment ∧ sameWord k.word.toList s.name.chars

theorem Statement.says_iff {s : Statement} {k : Keyword} :
    s.Says k ↔ s.kind ≠ .comment ∧ keyword? s.name.chars = some k :=
  and_congr_right fun _ => WordFamily.find?_eq_some_iff.symm

/-- The fault by which a statement ends the reading. -/
inductive Statement.Fails (s : Statement) : Fault → Prop
  | endless {sentinel : Sentinel} (word : s.Says (.program sentinel)) (never : Program.first? sentinel s.rest = none) :
      s.Fails ⟨s.name.start, .unterminatedProgram sentinel⟩
  | tags {f : Fault} (word : s.Says .tags) (wrong : s.tags.2 = some f) : s.Fails f

theorem Statement.Fails.isInner {s : Statement} {f : Fault} (h : s.Fails f) : f.IsInner := by
  cases h with
  | endless => exact .inl ⟨_, rfl⟩
  | tags _ wrong => exact .inr (cause_of_tags wrong)

section Reading

variable {s : Statement} {f : Fault}

theorem Clause.fails_of_read (h : (read s).1.fault? = some f) : s.Fails f := by
  have unknown : (readUnknown s).1.fault? = none := by
    unfold readUnknown
    split <;> rfl
  unfold read at h
  split at h
  · contradiction
  · rename_i known
    split at h
    · rename_i sentinel word
      split at h
      · rename_i never
        obtain rfl := Option.some.inj h
        exact .endless (Statement.says_iff.mpr ⟨known, word⟩) never
      · contradiction
    · rename_i word
      exact .tags (Statement.says_iff.mpr ⟨known, word⟩) h
    · split at h <;> contradiction
    · split at h
      · split at h
        · rw [unknown] at h
          contradiction
        · contradiction
      · rw [unknown] at h
        contradiction

theorem PassItem.fails_of_read (h : (read s).1.fault? = some f) : s.Fails f := by
  unfold read at h
  split at h
  · contradiction
  · exact Clause.fails_of_read h

theorem SubShaderItem.fault_cases (h : (read s).1.fault? = some f) :
    (∃ inside, s.Says .pass ∧ s.interior Keyword.pass.word = .ok inside ∧
      passBody.faultOf? (passBody.entries inside) = some f) ∨ s.Fails f := by
  unfold read at h
  split at h
  · rename_i word
    split at h
    · contradiction
    · rename_i inside block
      exact .inl ⟨inside, Statement.says_iff.mpr word, block, h⟩
  · exact .inr (Clause.fails_of_read h)

theorem ShaderItem.fault_cases (h : (read s).1.fault? = some f) :
    (∃ inside, s.Says .subShader ∧ s.interior Keyword.subShader.word = .ok inside ∧
      subShaderBody.faultOf? (subShaderBody.entries inside) = some f) ∨ s.Fails f := by
  unfold read at h
  split at h
  · contradiction
  · split at h
    · rename_i word
      split at h
      · contradiction
      · rename_i inside block
        exact .inl ⟨inside, Statement.says_iff.mpr word, block, h⟩
    · exact .inr (Clause.fails_of_read h)

end Reading

/-- Whether all faults that a body meets are inner ones. -/
def Body.IsInner {α : Type} (body : Body α) : Prop :=
  ∀ s f, body.fault? (body.read s).1 = some f → f.IsInner

theorem Body.IsInner.faultOf? {α : Type} {body : Body α} (h : body.IsInner) {r : Region} {f : Fault}
    (found : body.faultOf? (body.entries r) = some f) : f.IsInner := by
  fun_induction Body.entries body r with
  | case1 => simp [Body.faultOf?] at found
  | case2 r s first said ih =>
    unfold Body.faultOf? at found ih
    rw [List.findSome?_cons] at found
    cases here : body.fault? said.1 with
    | some g =>
      rw [here] at found
      exact Option.some.inj found ▸ h s g here
    | none =>
      simp only [here, Option.isSome_none, Bool.false_eq_true, if_false] at found ih
      exact ih found

theorem isInner_passBody : passBody.IsInner := fun _ _ found => (PassItem.fails_of_read found).isInner

theorem isInner_subShaderBody : subShaderBody.IsInner := by
  intro s f found
  rcases SubShaderItem.fault_cases found with ⟨inside, -, -, later⟩ | fails
  · exact isInner_passBody.faultOf? later
  · exact fails.isInner

theorem isInner_shaderBody : shaderBody.IsInner := by
  intro s f found
  rcases ShaderItem.fault_cases found with ⟨inside, -, -, later⟩ | fails
  · exact isInner_subShaderBody.faultOf? later
  · exact fails.isInner

theorem Outline.cause_of_shaderInterior {s : Statement} {f : Fault} (h : shaderInterior s = .error f) :
    f.cause = .missingBlock Keyword.shader.word ∨ f.cause = .unterminatedBlock Keyword.shader.word := by
  unfold shaderInterior at h
  dsimp only at h
  split at h
  · split at h
    · exact .inr (Except.error.inj h ▸ rfl)
    · simp at h
  · exact .inl (Except.error.inj h ▸ rfl)

theorem Outline.header_of_missingShader {document : List Char} {f : Fault} {found : String}
    (h : (ofText document).fault? = some f) (missing : f.cause = .missingShader found) :
    ∃ header, (Region.whole document).header? = some header ∧ found = header.name.text := by
  unfold ofText at h
  split at h
  · rw [← Option.some.inj h] at missing
    simp at missing
  · rename_i header first
    split at h
    · rw [← Option.some.inj h] at missing
      exact ⟨header, first, (Cause.missingShader.inj missing).symm⟩
    · split at h
      · rename_i g inside
        obtain rfl := Option.some.inj h
        rcases cause_of_shaderInterior inside with cause | cause <;> simp [cause] at missing
      · rcases isInner_shaderBody.faultOf? h with ⟨sentinel, cause⟩ | cause <;> simp [cause] at missing

end ShaderText
