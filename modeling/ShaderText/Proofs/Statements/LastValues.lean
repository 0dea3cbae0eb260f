import ShaderText.Proofs.Statements.SpeltWords

/-! Bodies of settings. A setting is a render state with its value or a stencil block with its fields; its words are
written in any case of their letters. Main statement: a body of settings, in whatever layout, holds for each word
the value that stands behind it last, and nothing else, so settings of different words may change places.
-/
namespace ShaderText

/-- Whether the last of some pairs with this key has this value. -/
def IsLastOf {κ : Type} (pairs : List (κ × String)) (key : κ) (value : String) : Prop :=
  ∃ front back, pairs = front ++ (key, value) :: back ∧ key ∉ back.map Prod.fst

section Last

variable {κ : Type} {pair : κ × String} {pairs : List (κ × String)} {key : κ} {value : String}

theorem not_isLastOf_nil : ¬ IsLastOf [] key value := by
  rintro ⟨front, back, whole, -⟩
  simp at whole

theorem isLastOf_cons : IsLastOf (pair :: pairs) key value ↔
    IsLastOf pairs key value ∨ (pair = (key, value) ∧ key ∉ pairs.map Prod.fst) := by
  constructor
  · rintro ⟨front, back, whole, last⟩
    cases front with
    | nil =>
      obtain ⟨rfl, rfl⟩ := List.cons.inj whole
      exact .inr ⟨rfl, last⟩
    | cons first front =>
      obtain ⟨-, rfl⟩ := List.cons.inj whole
      exact .inl ⟨front, back, rfl, last⟩
  · rintro (⟨front, back, rfl, last⟩ | ⟨rfl, last⟩)
    · exact ⟨pair :: front, back, rfl, last⟩
    · exact ⟨[], pairs, rfl, last⟩

theorem IsLastOf.mem (h : IsLastOf pairs key value) : (key, value) ∈ pairs := by
  obtain ⟨front, back, rfl, -⟩ := h
  simp

theorem isLastOf_iff_mem (distinct : (pairs.map Prod.fst).Nodup) :
    IsLastOf pairs key value ↔ (key, value) ∈ pairs := by
  refine ⟨IsLastOf.mem, fun member => ?_⟩
  obtain ⟨front, back, rfl⟩ := List.append_of_mem member
  rw [List.map_append, List.map_cons] at distinct
  exact ⟨front, back, rfl, (List.nodup_cons.mp (List.nodup_append.mp distinct).2.1).1⟩

namespace Settings

variable [DecidableEq κ]

theorem get?_insertAll (s : Settings κ) : (s.insertAll pairs).get? key = some value ↔
    IsLastOf pairs key value ∨ (key ∉ pairs.map Prod.fst ∧ s.get? key = some value) := by
  induction pairs generalizing s with
  | nil => simp [insertAll, not_isLastOf_nil]
  | cons pair pairs ih =>
    have first : s.insertAll (pair :: pairs) = (s.insert pair.1 pair.2).insertAll pairs := rfl
    rw [first, ih, isLastOf_cons, get?_insert, or_assoc]
    -- what is left is the pair in front, which counts if no later one has its key
    refine or_congr_right ?_
    by_cases same : key = pair.1
    · subst same
      simp [Prod.ext_iff, and_comm]
    · have other : pair ≠ (key, value) := fun equal => same (congrArg Prod.fst equal).symm
      simp [same, other]

theorem get?_insertAll_empty : (empty.insertAll pairs).get? key = some value ↔ IsLastOf pairs key value := by
  rw [get?_insertAll]
  simp [empty]

theorem insertAll_perm {others : List (κ × String)} (perm : pairs.Perm others) (distinct : (pairs.map Prod.fst).Nodup) :
    empty.insertAll pairs = empty.insertAll others := by
  have distinct' := (perm.map Prod.fst).nodup distinct
  ext key value
  rw [get?_insertAll_empty, get?_insertAll_empty, isLastOf_iff_mem distinct, isLastOf_iff_mem distinct',
    perm.mem_iff]

end Settings
end Last

/-- A statement of a body of settings. -/
inductive Setting
  | state (state : RenderState) (value : String)
  | stencil (fields : List (StencilField × String))

def IsFieldText (pair : StencilField × String) (cs : List Char) : Prop :=
  IsValueToken pair.2 ∧ IsPair pair.1.word.toList pair.2.toList cs

namespace Setting

def states : Setting → List (RenderState × String)
  | state known value => [(known, value)]
  | stencil _ => []

def fields : Setting → List (StencilField × String)
  | state _ _ => []
  | stencil pairs => pairs

/-- Whether a text is a setting in one of the ways to write it. -/
def IsText : Setting → List Char → Prop
  | state known value, cs => IsValueToken value ∧ IsPair known.word.toList value.toList cs
  | stencil pairs, cs => ∃ inside, IsBody IsFieldText pairs inside ∧
    IsPair Keyword.stencil.word.toList ('{' :: (inside ++ ['}'])) cs

end Setting

namespace Block

def set (b : Block) : Setting → Block
  | .state known value => { b with states := b.states.insert known value }
  | .stencil pairs => { b with stencil := b.stencil.insertAll pairs }

/-- The block that holds the last value of each word of some settings. -/
def ofSettings (settings : List Setting) : Block :=
  { Block.empty with
    states := Settings.empty.insertAll (settings.flatMap Setting.states)
    stencil := Settings.empty.insertAll (settings.flatMap Setting.fields) }

theorem foldl_set (settings : List Setting) (b : Block) :
    settings.foldl set b = { b with
      states := b.states.insertAll (settings.flatMap Setting.states)
      stencil := b.stencil.insertAll (settings.flatMap Setting.fields) } := by
  induction settings generalizing b with
  | nil => rfl
  | cons setting settings ih =>
    rw [List.foldl_cons, ih, List.flatMap_cons, List.flatMap_cons, Settings.insertAll_append,
      Settings.insertAll_append]
    cases setting <;> rfl

end Block

theorem isStep_field (held : Settings StencilField) (pair : StencilField × String) (cs : List Char)
    (h : IsFieldText pair cs) : IsStep Settings.TakesField held cs (held.insert pair.1 pair.2) := by
  obtain ⟨token, written⟩ := h
  have single := isSingleValue_of_isValueToken token
  obtain ⟨comment, nonempty⟩ := Remainder.kind_of_isSingleValue single
  refine written.isStep (isPlainWord_stencilField pair.1) single (closes_of_isValueToken token) ?_
  intro spelling rest same next rest'
  have known : stencilField? spelling = some pair.1 := WordFamily.find?_eq_some_iff.mpr same
  have takes : held.TakesField ⟨_, spelling, pair.2.toList, rest⟩ next rest' ↔ _ :=
    takesField_iff_of_some comment nonempty known
  rwa [String.ofList_toList] at takes

section Clauses

variable {σ : Type} {takes : σ → Phrase → σ → List Char → Prop} {fill : Block → σ}

theorem TakesClauses.isStep_state (clauses : TakesClauses takes fill) (b : Block) {known : RenderState} {value : String}
    {cs : List Char} (token : IsValueToken value) (written : IsPair known.word.toList value.toList cs) :
    IsStep takes (fill b) cs (fill (b.set (.state known value))) := by
  have single := isSingleValue_of_isValueToken token
  obtain ⟨comment, nonempty⟩ := Remainder.kind_of_isSingleValue single
  refine written.isStep (isPlainWord_renderState known) single (closes_of_isValueToken token) ?_
  intro spelling rest same next rest'
  have word : keyword? spelling = none := by
    rw [← (isName_renderState known).2, keyword?, keyword?, WordFamily.find?_congr same]
  have state : renderState? spelling = some known := WordFamily.find?_eq_some_iff.mpr same
  have taken : takes (fill b) ⟨_, spelling, value.toList, rest⟩ next rest' ↔ _ :=
    clauses.state_iff_of_some b comment nonempty word state
  rwa [String.ofList_toList] at taken

theorem TakesClauses.isStep_stencil (clauses : TakesClauses takes fill) (b : Block)
    {pairs : List (StencilField × String)} {inside cs : List Char} (body : IsBody IsFieldText pairs inside)
    (written : IsPair Keyword.stencil.word.toList ('{' :: (inside ++ ['}'])) cs) :
    IsStep takes (fill b) cs (fill (b.set (.stencil pairs))) := by
  have fields : ReadsAs Settings.TakesField b.stencil inside (b.stencil.insertAll pairs) :=
    body.readsAs id Settings.passesRemarks isStep_field b.stencil
  exact written.isStep_block (by simp) fields.closes fun ph comment word interior next rest =>
    clauses.stencil_iff b comment word interior fields.reads

theorem TakesClauses.isStep_setting (clauses : TakesClauses takes fill) (b : Block) (setting : Setting)
    (cs : List Char) (h : setting.IsText cs) : IsStep takes (fill b) cs (fill (b.set setting)) := by
  cases setting with
  | state known value => exact clauses.isStep_state b h.1 h.2
  | stencil pairs =>
    obtain ⟨inside, body, written⟩ := h
    exact clauses.isStep_stencil b body written

theorem TakesClauses.readsAs_settings (clauses : TakesClauses takes fill) (passes : PassesRemarks takes)
    {settings : List Setting} {cs : List Char} (h : IsBody Setting.IsText settings cs) :
    ReadsAs takes (fill .empty) cs (fill (.ofSettings settings)) := by
  have body := h.readsAs fill passes clauses.isStep_setting .empty
  rwa [Block.foldl_set] at body

end Clauses

/-- A statement of a body: a setting or a child block. -/
inductive Member (α : Type)
  | setting (setting : Setting)
  | child (inside : α)

namespace Member

variable {α : Type}

def setting? : Member α → Option Setting
  | setting said => some said
  | child _ => none

def child? : Member α → Option α
  | setting _ => none
  | child inside => some inside

/-- Whether a text is a member in one of the ways to write it, if it is known which texts the inside of a child may
have. -/
def IsText (k : Keyword) (inner : α → List Char → Prop) : Member α → List Char → Prop
  | setting said, cs => said.IsText cs
  | child content, cs => ∃ inside, inner content inside ∧ IsPair k.word.toList ('{' :: (inside ++ ['}'])) cs

end Member

/-- What the bodies of sub-shaders and of shaders hold. -/
abbrev SubShaderMembers := List (Member (List Setting))

abbrev ShaderMembers := List (Member SubShaderMembers)

namespace Pass

def ofSettings (settings : List Setting) : Pass := ⟨.ofSettings settings, none⟩

def IsText (settings : List Setting) (cs : List Char) : Prop := IsBody Setting.IsText settings cs

theorem readsAs_of_isText {settings : List Setting} {cs : List Char} (h : IsText settings cs) :
    ReadsAs Pass.Takes (.named none) cs (ofSettings settings) :=
  (Pass.takesClauses none).readsAs_settings Pass.passesRemarks h

end Pass

namespace SubShader

def put (s : SubShader) : Member (List Setting) → SubShader
  | .setting said => { s with toBlock := s.toBlock.set said }
  | .child settings => { s with passes := s.passes ++ [.ofSettings settings] }

def ofMembers (members : SubShaderMembers) : SubShader :=
  ⟨.ofSettings (members.filterMap Member.setting?), (members.filterMap Member.child?).map Pass.ofSettings⟩

def IsText (members : SubShaderMembers) (cs : List Char) : Prop := IsBody (Member.IsText .pass Pass.IsText) members cs

theorem foldl_put (members : SubShaderMembers) (s : SubShader) :
    members.foldl put s = ⟨(members.filterMap Member.setting?).foldl Block.set s.toBlock,
      s.passes ++ (members.filterMap Member.child?).map Pass.ofSettings⟩ := by
  induction members generalizing s with
  | nil => simp
  | cons member members ih =>
    rw [List.foldl_cons, ih]
    cases member <;> simp [put, List.filterMap_cons, Member.setting?, Member.child?]

theorem isStep_member (held : SubShader) (member : Member (List Setting)) (cs : List Char)
    (h : member.IsText .pass Pass.IsText cs) : IsStep SubShader.Takes held cs (held.put member) := by
  cases member with
  | setting said => exact (SubShader.takesClauses held.passes).isStep_setting held.toBlock said cs h
  | child settings =>
    obtain ⟨inside, inBody, written⟩ := h
    have read := Pass.readsAs_of_isText inBody
    exact written.isStep_block (by simp) read.closes fun ph comment word interior next rest =>
      takes_pass_iff comment word interior read.reads

theorem readsAs_of_isText {members : SubShaderMembers} {cs : List Char} (h : IsText members cs) :
    ReadsAs SubShader.Takes .empty cs (ofMembers members) := by
  have body : ReadsAs SubShader.Takes .empty cs (members.foldl put .empty) :=
    IsBody.readsAs id SubShader.passesRemarks isStep_member h .empty
  rwa [foldl_put, Block.foldl_set] at body

end SubShader

namespace Shader

def put (s : Shader) : Member SubShaderMembers → Shader
  | .setting said => { s with toBlock := s.toBlock.set said }
  | .child members => { s with subShaders := s.subShaders ++ [.ofMembers members] }

def ofMembers (name : String) (members : ShaderMembers) : Shader :=
  ⟨.ofSettings (members.filterMap Member.setting?), name, (members.filterMap Member.child?).map SubShader.ofMembers⟩

def IsText (members : ShaderMembers) (cs : List Char) : Prop :=
  IsBody (Member.IsText .subShader SubShader.IsText) members cs

theorem foldl_put (members : ShaderMembers) (s : Shader) :
    members.foldl put s = ⟨(members.filterMap Member.setting?).foldl Block.set s.toBlock, s.name,
      s.subShaders ++ (members.filterMap Member.child?).map SubShader.ofMembers⟩ := by
  induction members generalizing s with
  | nil => simp
  | cons member members ih =>
    rw [List.foldl_cons, ih]
    cases member <;> simp [put, List.filterMap_cons, Member.setting?, Member.child?]

theorem isStep_member (held : Shader) (member : Member SubShaderMembers) (cs : List Char)
    (h : member.IsText .subShader SubShader.IsText cs) : IsStep Shader.Takes held cs (held.put member) := by
  cases member with
  | setting said => exact (Shader.takesClauses held.name held.subShaders).isStep_setting held.toBlock said cs h
  | child members =>
    obtain ⟨inside, inBody, written⟩ := h
    have read := SubShader.readsAs_of_isText inBody
    exact written.isStep_block (by simp) read.closes fun ph comment word interior next rest =>
      takes_subShader_iff comment word interior read.reads

theorem readsAs_of_isText {members : ShaderMembers} {cs : List Char} (h : IsText members cs) (name : String) :
    ReadsAs Shader.Takes (.named name) cs (ofMembers name members) := by
  have body : ReadsAs Shader.Takes (.named name) cs (members.foldl put (.named name)) :=
    IsBody.readsAs id Shader.passesRemarks isStep_member h (.named name)
  rwa [foldl_put, Block.foldl_set] at body

end Shader

/-- Whether a document says a shader with a name and these members. Anything may stand behind its block. -/
def Shader.IsDocument (name : String) (members : ShaderMembers) (document : String) : Prop :=
  ∃ front header gap inside after, document.toList = front ++ (header ++ (gap ++ '{' :: (inside ++ '}' :: after))) ∧
    front.all isSpace ∧ IsStringBody name ∧ IsPair Keyword.shader.word.toList ('"' :: (name.toList ++ ['"'])) header ∧
    gap ≠ [] ∧ gap.all isSpace ∧ Shader.IsText members inside

theorem Shader.parse_of_isDocument {name : String} {members : ShaderMembers} {document : String}
    (h : IsDocument name members document) : Shader.parse document = .ok (.ofMembers name members) := by
  obtain ⟨front, header, gap, inside, after, whole, margin, isName, titled, filled, spaces, inBody⟩ := h
  have read := readsAs_of_isText inBody name
  have closed : afterQuote? (name.toList ++ ['"']) = some [] := isName
  have single : isSingleValue ('"' :: (name.toList ++ ['"'])) := by simp [isSingleValue, closed]
  have spaced := (isSpaced_of_all_isSpace filled spaces).append ('{' :: (inside ++ '}' :: after))
  obtain ⟨spelling, same, first⟩ := titled.first? (isPlainWord_keyword (by simp)) single spaced.isEnd
  have kind : (Remainder.ofValue ('"' :: (name.toList ++ ['"']))).kind = .quoted := rfl
  rw [kind] at first
  have opens : afterTrivia (gap ++ '{' :: (inside ++ '}' :: after)) = '{' :: inside ++ '}' :: after := by
    rw [(isTrivia_spaces spaces).passed, afterTrivia_of_sign rfl (by decide)]
    rfl
  have heads := (heads_congr (first?_spaces front margin _)).mpr ((heads_of_first? first (by simp)).mpr rfl)
  rw [parse_iff_denotes, whole]
  -- the quoted name is the value of the first statement, and the block stands behind it
  refine ⟨_, inside, after, heads, WordFamily.find?_eq_some_iff.mpr same, ?_, ?_, ?_⟩
  · simpa only [Phrase.blockText, reduceCtorEq, if_false] using opens
  · simp only [Phrase.blockText, reduceCtorEq, if_false, opens]
    exact afterBlock?_of_closes read.closes after
  · simp only [Phrase.shaderName, reduceCtorEq, if_false, Phrase.nameValue_quoted, String.ofList_toList]
    exact (read.reads _).mpr rfl

/-- The same settings in another order, each of another word. -/
structure Reordered (first second : List Setting) : Prop where
  states : (first.flatMap Setting.states).Perm (second.flatMap Setting.states)
  fields : (first.flatMap Setting.fields).Perm (second.flatMap Setting.fields)
  distinctStates : ((first.flatMap Setting.states).map Prod.fst).Nodup
  distinctFields : ((first.flatMap Setting.fields).map Prod.fst).Nodup

theorem Reordered.of_perm {first second : List Setting} (perm : first.Perm second)
    (states : ((first.flatMap Setting.states).map Prod.fst).Nodup)
    (fields : ((first.flatMap Setting.fields).map Prod.fst).Nodup) : Reordered first second :=
  ⟨perm.flatMap_right _, perm.flatMap_right _, states, fields⟩

theorem Reordered.ofSettings_eq {first second : List Setting} (h : Reordered first second) :
    Block.ofSettings second = Block.ofSettings first := by
  rw [Block.ofSettings, Block.ofSettings, Settings.insertAll_perm h.states h.distinctStates,
    Settings.insertAll_perm h.fields h.distinctFields]

/-- Members with the same settings in another order, and in their order children that are told to be the same. -/
structure Member.Reordered {α : Type} (same : α → α → Prop) (first second : List (Member α)) : Prop where
  settings : ShaderText.Reordered (first.filterMap Member.setting?) (second.filterMap Member.setting?)
  children : List.Forall₂ same (first.filterMap Member.child?) (second.filterMap Member.child?)

theorem map_eq_of_forall₂ {α β : Type} {same : α → α → Prop} {f : α → β} {first second : List α}
    (h : List.Forall₂ same first second) (maps : ∀ a b, same a b → f b = f a) : second.map f = first.map f := by
  induction h with
  | nil => rfl
  | cons here _ ih => rw [List.map_cons, List.map_cons, maps _ _ here, ih]

theorem SubShader.ofMembers_eq {first second : SubShaderMembers} (h : Member.Reordered Reordered first second) :
    ofMembers second = ofMembers first := by
  rw [ofMembers, ofMembers, h.settings.ofSettings_eq, map_eq_of_forall₂ h.children fun _ _ same => ?_]
  rw [Pass.ofSettings, Pass.ofSettings, same.ofSettings_eq]

theorem Shader.ofMembers_eq {first second : ShaderMembers}
    (h : Member.Reordered (Member.Reordered Reordered) first second) (name : String) :
    ofMembers name second = ofMembers name first := by
  rw [ofMembers, ofMembers, h.settings.ofSettings_eq,
    map_eq_of_forall₂ h.children fun _ _ same => SubShader.ofMembers_eq same]

/-- What a body of settings says, in any layout and in any body that blocks have. It holds for each render state the
value behind its last occurrence, likewise for each field of its stencil blocks, and nothing else; so settings of
different words may change places. This is so in every document whose bodies hold settings and child blocks: there
another order of the settings in any of its bodies leaves its tree, and with the tree its rendering. -/
theorem settings_hold_last_values {settings : List Setting} {r : Region}
    (h : IsBody Setting.IsText settings r.chars) :
    let b := Block.ofSettings settings
    ((∀ known value, b.states.get? known = some value ↔ IsLastOf (settings.flatMap Setting.states) known value) ∧
      (∀ field value, b.stencil.get? field = some value ↔ IsLastOf (settings.flatMap Setting.fields) field value) ∧
      b.tags = .empty ∧ b.program = none) ∧
    ((passBody.faultOf? (passBody.entries r) = none ∧ Pass.ofEntries (passBody.entries r) = ⟨b, none⟩) ∧
      (subShaderBody.faultOf? (subShaderBody.entries r) = none ∧
        SubShader.ofEntries (subShaderBody.entries r) = ⟨b, []⟩) ∧
      ∀ name, shaderBody.faultOf? (shaderBody.entries r) = none ∧
        Shader.ofEntries name (shaderBody.entries r) = ⟨b, name, []⟩) ∧
    (∀ settings', Reordered settings settings' → Block.ofSettings settings' = b) ∧
    ∀ name members document, Shader.IsDocument name members document →
      Shader.parse document = .ok (.ofMembers name members) ∧
        ∀ members' document', Member.Reordered (Member.Reordered Reordered) members members' →
          Shader.IsDocument name members' document' → Shader.parse document' = Shader.parse document := by
  intro b
  refine ⟨⟨fun _ _ => Settings.get?_insertAll_empty, fun _ _ => Settings.get?_insertAll_empty, rfl, rfl⟩,
    ⟨?_, ?_, fun name => ?_⟩, fun _ => Reordered.ofSettings_eq, fun name members document inDocument => ?_⟩
  · have body := (Pass.takesClauses none).readsAs_settings Pass.passesRemarks h
    exact Pass.reads_iff.mp ((body.reads _).mpr rfl)
  · have body := (SubShader.takesClauses []).readsAs_settings SubShader.passesRemarks h
    exact SubShader.reads_iff.mp ((body.reads _).mpr rfl)
  · have body := (Shader.takesClauses name []).readsAs_settings Shader.passesRemarks h
    exact Shader.reads_iff.mp ((body.reads _).mpr rfl)
  · have parsed := Shader.parse_of_isDocument inDocument
    refine ⟨parsed, fun members' document' reordered inDocument' => ?_⟩
    rw [parsed, Shader.parse_of_isDocument inDocument', Shader.ofMembers_eq reordered]

theorem settings_hold_last_values_cull :
    let settings : List Setting := [.state .cull "Off", .stencil [(.ref, "1")], .state .cull "[_C]"]
    let text := "cull Off /* é */ Stencil\x7bRef 1\x7d\nCULL[_C]".toList
    IsBody Setting.IsText settings text ∧
      (∀ value, (Block.ofSettings settings).states.get? .cull = some value ↔ value = "[_C]") ∧
      Pass.ofEntries (passBody.entries ⟨7, text⟩) = ⟨Block.ofSettings settings, none⟩ ∧
      Shader.parse "Shader \"T\" \x7bSubShader\x7bZWrite On\ncull Off\x7d\x7d" =
        Shader.parse "shader\"T\" \x7bSubShader\x7bcull Off ZWrite On\x7d\x7d" := by
  intro settings text
  have cull : Setting.IsText (.state .cull "Off") "cull Off".toList :=
    ⟨by decide, "cull".toList, [' '], by decide, rfl, by simp, by decide⟩
  have write : Setting.IsText (.state .zWrite "On") "ZWrite On".toList :=
    ⟨by decide, "ZWrite".toList, [' '], by decide, rfl, by simp, by decide⟩
  have bracket : Setting.IsText (.state .cull "[_C]") "CULL[_C]".toList :=
    ⟨by decide, "CULL".toList, [], by decide, rfl, fun _ => ⟨'[', rfl, by decide⟩, by decide⟩
  have ref : IsFieldText (.ref, "1") "Ref 1".toList :=
    ⟨by decide, "Ref".toList, [' '], by decide, rfl, by simp, by decide⟩
  have stencil : Setting.IsText (.stencil [(.ref, "1")]) "Stencil\x7bRef 1\x7d".toList :=
    ⟨_, .flush (.last ref), "Stencil".toList, [], by decide, rfl, fun _ => ⟨'{', rfl, by decide⟩, by decide⟩
  have noted : IsBreak ([' '] ++ ('/' :: '*' :: (" é ".toList ++ '*' :: '/' :: [' ']))) :=
    .note (by simp) rfl (by decide) (.spaces (by simp) rfl)
  have space : IsBreak [' '] := .spaces (by simp) rfl
  have line : IsBreak ['\n'] := .spaces (by simp) rfl
  have shape : text = "cull Off".toList ++ (([' '] ++ ('/' :: '*' :: (" é ".toList ++ '*' :: '/' :: [' ']))) ++
      ("Stencil\x7bRef 1\x7d".toList ++ (['\n'] ++ "CULL[_C]".toList))) := by decide
  have body : IsBody Setting.IsText settings text := by
    rw [shape]
    exact .flush (.cons cull noted (.cons stencil line (.last bracket)))
  let first : SubShaderMembers := [.setting (.state .cull "Off"), .setting (.state .zWrite "On")]
  let second : SubShaderMembers := [.setting (.state .zWrite "On"), .setting (.state .cull "Off")]
  have cullMember : Member.IsText .pass Pass.IsText (.setting (.state .cull "Off")) "cull Off".toList := cull
  have writeMember : Member.IsText .pass Pass.IsText (.setting (.state .zWrite "On")) "ZWrite On".toList := write
  have inFirst : SubShader.IsText first "cull Off ZWrite On".toList :=
    .flush (.cons cullMember space (.last writeMember))
  have inSecond : SubShader.IsText second "ZWrite On\ncull Off".toList :=
    .flush (.cons writeMember line (.last cullMember))
  have nested {members : SubShaderMembers} {inside : List Char} (h : SubShader.IsText members inside) :
      Shader.IsText [.child members] ("SubShader".toList ++ ([] ++ ('{' :: (inside ++ ['}'])))) :=
    .flush (.last ⟨inside, h, "SubShader".toList, [], by decide, rfl, fun _ => ⟨'{', rfl, by decide⟩, rfl⟩)
  have document : Shader.IsDocument "T" [.child first] "shader\"T\" \x7bSubShader\x7bcull Off ZWrite On\x7d\x7d" :=
    ⟨[], "shader\"T\"".toList, [' '], _, [], by decide, rfl, by decide,
      ⟨"shader".toList, [], by decide, rfl, fun _ => ⟨'"', rfl, by decide⟩, by decide⟩, by simp, rfl, nested inFirst⟩
  have document' : Shader.IsDocument "T" [.child second]
      "Shader \"T\" \x7bSubShader\x7bZWrite On\ncull Off\x7d\x7d" :=
    ⟨[], "Shader \"T\"".toList, [' '], _, [], by decide, rfl, by decide,
      ⟨"Shader".toList, [' '], by decide, rfl, by simp, by decide⟩, by simp, rfl, nested inSecond⟩
  have swapped : Reordered (first.filterMap Member.setting?) (second.filterMap Member.setting?) :=
    .of_perm (List.Perm.swap _ _ []) (by decide) (by decide)
  have reordered : Member.Reordered (Member.Reordered Reordered) [.child first] [.child second] :=
    ⟨.of_perm .nil .nil .nil, .cons ⟨swapped, .nil⟩ .nil⟩
  obtain ⟨⟨states, -⟩, ⟨inPass, -⟩, -, documents⟩ := settings_hold_last_values (r := ⟨7, text⟩) body
  have sameTree := (documents _ _ _ document).2 _ _ reordered document'
  refine ⟨body, fun value => ?_, inPass.2, sameTree⟩
  rw [states]
  simp [settings, Setting.states, isLastOf_cons, not_isLastOf_nil, eq_comm]

end ShaderText
