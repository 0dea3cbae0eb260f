import ShaderText.Shader.Parse

/-! Reading without places. What a document says does not depend on where its statements stand, so the
readers of statements, tags and bodies are stated here over characters alone, a body as a relation
between what is held before and after.
-/
namespace ShaderText

/-- A statement by its characters. -/
structure Phrase where
  kind : Kind
  name : List Char
  value : List Char
  rest : List Char

def Statement.phrase (s : Statement) : Phrase := ⟨s.kind, s.name.chars, s.value.chars, s.rest.chars⟩

namespace Phrase

def first? (cs : List Char) : Option Phrase :=
  match afterSpaces cs with
  | [] => none
  | c :: cs =>
    let found := Remainder.ofName (c :: cs) (cs.dropWhile isNameChar)
    some ⟨found.kind, c :: cs.takeWhile isNameChar,
      found.value.take (found.value.length - found.rest.length), found.rest⟩

/-- The text between the braces of a block value. -/
def interior? (ph : Phrase) : Option (List Char) :=
  if ph.kind = .block ∧ ph.value.tail.getLast? = some '}' then some ph.value.tail.dropLast else none

/-- The text that is read as tags. A block that is not closed counts up to its end. -/
def tagsText (ph : Phrase) : List Char :=
  if ph.value.tail.getLast? = some '}' then ph.value.tail.dropLast else ph.value.tail

def nameValue (ph : Phrase) : String :=
  match ph.value with
  | '"' :: rest => 
    if rest.getLast? = some '"' then String.ofList rest.dropLast else String.ofList ph.value
  | _ => String.ofList ph.value

/-- Where reading goes on after a statement without a meaning. -/
def afterUnknown (ph : Phrase) : List Char :=
  if ph.kind = .bare then (arguments ph.rest).2 else ph.rest

end Phrase

theorem take_sub_length_dropWhile {p : Char → Bool} (cs : List Char) :
    cs.take (cs.length - (cs.dropWhile p).length) = cs.takeWhile p := by
  have size := congrArg List.length (List.takeWhile_append_dropWhile (p := p) (l := cs))
  rw [List.length_append] at size
  rw [show cs.length - (cs.dropWhile p).length = (cs.takeWhile p).length by omega]
  exact List.prefix_iff_eq_take.mp (List.takeWhile_prefix p) |>.symm

theorem Statement.map_phrase_first? (r : Region) :
    (Statement.first? r).map Statement.phrase = Phrase.first? r.chars := by
  unfold Statement.first? Phrase.first?
  cases afterSpaces r.chars with
  | nil => rfl
  | cons c cs =>
    have shorter := (List.dropWhile_suffix isNameChar (l := cs)).length_le
    have name : (c :: cs).take (cs.length + 1 - (cs.dropWhile isNameChar).length) =
        c :: cs.takeWhile isNameChar := by
      rw [show cs.length + 1 - (cs.dropWhile isNameChar).length =
        cs.length - (cs.dropWhile isNameChar).length + 1 by omega, List.take_succ_cons,
        take_sub_length_dropWhile]
    simp [Statement.phrase, Region.upTo, Region.onward, name]

inductive ReadsTags : List Char → List (String × String) → Prop
  | done {cs : List Char} : afterTrivia cs = [] → ReadsTags cs []
  | pair {cs key afterKey afterSign value rest : List Char} {pairs : List (String × String)} :
      tagToken? (afterTrivia cs) = some (key, afterKey) → afterTrivia afterKey = '=' :: afterSign →
      tagToken? (afterTrivia afterSign) = some (value, rest) → ReadsTags rest pairs →
      ReadsTags cs ((String.ofList key, String.ofList value) :: pairs)

theorem tagToken?_nil : tagToken? [] = none := rfl

theorem Region.tag_eq_ok_iff {r rest : Region} {pair : String × String} :
    r.tag = .ok (pair, rest) ↔ ∃ key afterKey afterSign value afterValue,
      tagToken? r.chars = some (key, afterKey) ∧ afterTrivia afterKey = '=' :: afterSign ∧
      tagToken? (afterTrivia afterSign) = some (value, afterValue) ∧
      pair = (String.ofList key, String.ofList value) ∧
      (((r.onward afterKey).skipTrivia.onward afterSign).skipTrivia).onward afterValue = rest := by
  constructor
  · intro h
    unfold Region.tag at h
    split at h
    · simp at h
    · rename_i key afterKey readKey
      dsimp only at h
      split at h
      · rename_i afterSign sign
        split at h
        · simp at h
        · rename_i value afterValue readValue
          obtain ⟨rfl, rfl⟩ := Prod.mk.inj (Except.ok.inj h)
          exact ⟨key, afterKey, afterSign, value, afterValue, readKey, sign, readValue, rfl, rfl⟩
      · simp at h
  · rintro ⟨key, afterKey, afterSign, value, afterValue, readKey, sign, readValue, rfl, rfl⟩
    have sign' : ((r.onward afterKey).skipTrivia).chars = '=' :: afterSign := sign
    have value' : tagToken? ((((r.onward afterKey).skipTrivia).onward afterSign).skipTrivia).chars =
        some (value, afterValue) := readValue
    unfold Region.tag
    simp only [readKey, sign', value']

theorem readsTags_iff {r : Region} {pairs : List (String × String)} :
    ReadsTags r.chars pairs ↔ r.tags = (pairs, none) := by
  fun_induction Region.tags r generalizing pairs with
  | case1 r place =>
    rename_i empty
    have blank : afterTrivia r.chars = [] := List.isEmpty_iff.mp empty
    constructor
    · intro h
      cases h with
      | done => rfl
      | pair readKey => simp [blank, tagToken?_nil] at readKey
    · intro h
      obtain rfl := (Prod.mk.inj h).1
      exact .done blank
  | case2 r place nonempty fault =>
    rename_i wrong
    constructor
    · intro h
      cases h with
      | done blank => exact absurd (List.isEmpty_iff.mpr blank) nonempty
      | pair readKey sign readValue more =>
        have right := (Region.tag_eq_ok_iff (r := r.skipTrivia)).mpr
          ⟨_, _, _, _, _, readKey, sign, readValue, rfl, rfl⟩
        rw [wrong] at right
        simp at right
    · intro h
      simp at h
  | case3 r place nonempty pair rest ok pairs' fault? more =>
    rename_i ih
    obtain ⟨key, afterKey, afterSign, value, afterValue, readKey, sign, readValue, rfl, rfl⟩ :=
      Region.tag_eq_ok_iff.mp ok
    rw [more] at ih
    constructor
    · intro h
      cases h with
      | done blank => exact absurd (List.isEmpty_iff.mpr blank) nonempty
      | pair readKey' sign' readValue' more' =>
        obtain ⟨rfl, rfl⟩ := Prod.mk.inj (Option.some.inj (readKey.symm.trans readKey'))
        obtain ⟨-, rfl⟩ := List.cons.inj (sign.symm.trans sign')
        obtain ⟨rfl, rfl⟩ := Prod.mk.inj (Option.some.inj (readValue.symm.trans readValue'))
        obtain ⟨rfl, rfl⟩ := Prod.mk.inj (ih.mp more')
        rfl
    · intro h
      obtain ⟨rfl, rfl⟩ := Prod.mk.inj h
      exact .pair readKey sign readValue (ih.mpr rfl)

section

variable {σ : Type}

/-- Reading one statement after another. `takes` tells what a statement makes of what is held, and
where reading goes on. -/
inductive Reads (takes : σ → Phrase → σ → List Char → Prop) : σ → List Char → σ → Prop
  | done {held : σ} {cs : List Char} : Phrase.first? cs = none → Reads takes held cs held
  | step {held next last : σ} {cs rest : List Char} {ph : Phrase} :
      Phrase.first? cs = some ph → takes held ph next rest → Reads takes next rest last →
      Reads takes held cs last

variable {takes : σ → Phrase → σ → List Char → Prop} {held last : σ} {cs : List Char} {ph : Phrase}

theorem reads_iff_of_none (h : Phrase.first? cs = none) : Reads takes held cs last ↔ held = last := by
  constructor
  · intro reads
    cases reads with
    | done => rfl
    | step first => simp [h] at first
  · rintro rfl
    exact .done h

theorem reads_iff_of_some (h : Phrase.first? cs = some ph) :
    Reads takes held cs last ↔ ∃ next rest, takes held ph next rest ∧ Reads takes next rest last := by
  constructor
  · intro reads
    cases reads with
    | done ends => simp [h] at ends
    | step first taken more =>
      obtain rfl := Option.some.inj (h.symm.trans first)
      exact ⟨_, _, taken, more⟩
  · rintro ⟨next, rest, taken, more⟩
    exact .step h taken more

theorem Body.reads_iff {α : Type} (body : Body α) (add : σ → α → σ)
    (h : ∀ (held : σ) (s : Statement) (next : σ) (rest : List Char), takes held s.phrase next rest ↔
      body.fault? (body.read s).1 = none ∧ add held (body.read s).1 = next ∧
        (body.read s).2.chars = rest) (r : Region) (held last : σ) :
    Reads takes held r.chars last ↔ body.faultOf? (body.entries r) = none ∧
      (body.entries r).foldl (fun held entry => add held entry.item) held = last := by
  fun_induction Body.entries body r generalizing held with
  | case1 r =>
    rename_i ends
    have first : Phrase.first? r.chars = none := by
      rw [← Statement.map_phrase_first?, ends]
      rfl
    rw [reads_iff_of_none first]
    simp [faultOf?]
  | case2 r s =>
    rename_i starts found ih
    have first : Phrase.first? r.chars = some s.phrase := by
      rw [← Statement.map_phrase_first?, starts]
      rfl
    rw [reads_iff_of_some first]
    have taken := h held s
    cases fault : body.fault? (body.read s).1 with
    | some fault' =>
      simp only [fault, reduceCtorEq, false_and] at taken
      simp [found, faultOf?, fault, taken]
    | none =>
      simp only [fault, true_and] at taken
      simp only [found, taken, fault, Option.isSome_none, Bool.false_eq_true, if_false, faultOf?,
        List.findSome?_cons, List.foldl_cons]
      rw [← faultOf?, ← ih]
      constructor
      · rintro ⟨next, rest, ⟨rfl, rfl⟩, more⟩
        exact more
      · intro more
        exact ⟨_, _, ⟨rfl, rfl⟩, more⟩

end

def Phrase.field? (ph : Phrase) : Option (StencilField × String) :=
  if ph.kind = .comment ∨ ph.kind = .empty then none
  else (stencilField? ph.name).map fun field => (field, String.ofList ph.value)

def Settings.TakesField (held : Settings StencilField) (ph : Phrase) (next : Settings StencilField)
    (rest : List Char) : Prop :=
  held.insertAll ph.field?.toList = next ∧ ph.rest = rest

theorem Statement.field?_phrase (s : Statement) :
    s.phrase.field? = if s.kind = .comment then none else s.stencilField? := by
  have name : s.phrase.name = s.name.chars := rfl
  have kind : s.phrase.kind = s.kind := rfl
  unfold Phrase.field? Statement.stencilField?
  rw [name, kind]
  by_cases comment : s.kind = .comment
  · simp [comment]
  · by_cases empty : s.kind = .empty
    · cases ShaderText.stencilField? s.name.chars <;> simp [empty]
    · cases ShaderText.stencilField? s.name.chars <;>
        simp [comment, empty, Statement.phrase, Region.text]

theorem Settings.insertAll_append {κ : Type} [DecidableEq κ] (s : Settings κ)
    (first second : List (κ × String)) :
    s.insertAll (first ++ second) = (s.insertAll first).insertAll second :=
  List.foldl_append

theorem filterMap_field?_cons (s : Statement) (more : List Statement) :
    (((s :: more).filter (·.kind ≠ .comment)).map fun s => (⟨s, s.stencilField?⟩ : StencilEntry)).filterMap
        (·.field?) =
      (if s.kind = .comment then none else s.stencilField?).toList ++
        ((more.filter (·.kind ≠ .comment)).map fun s => (⟨s, s.stencilField?⟩ : StencilEntry)).filterMap
          (·.field?) := by
  by_cases comment : s.kind = .comment
  · simp [comment]
  · cases given : s.stencilField? <;> simp [comment, given]

theorem reads_fields_iff {r : Region} {held last : Settings StencilField} :
    Reads Settings.TakesField held r.chars last ↔
      held.insertAll (r.stencilEntries.filterMap (·.field?)) = last := by
  unfold Region.stencilEntries
  fun_induction Region.statements r generalizing held with
  | case1 r =>
    rename_i ends
    have first : Phrase.first? r.chars = none := by
      rw [← Statement.map_phrase_first?, ends]
      rfl
    rw [reads_iff_of_none first]
    rfl
  | case2 r s =>
    rename_i starts ih
    have first : Phrase.first? r.chars = some s.phrase := by
      rw [← Statement.map_phrase_first?, starts]
      rfl
    rw [reads_iff_of_some first, filterMap_field?_cons, ← Statement.field?_phrase, Settings.insertAll_append, ← ih]
    constructor
    · rintro ⟨next, rest, ⟨rfl, rfl⟩, more⟩
      exact more
    · intro more
      exact ⟨_, _, ⟨rfl, rfl⟩, more⟩

end ShaderText
