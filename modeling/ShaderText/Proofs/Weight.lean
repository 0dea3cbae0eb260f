import Mathlib.Algebra.Order.BigOperators.Group.List
import Mathlib.Algebra.Order.Ring.Nat
import Mathlib.Data.List.Nodup
import ShaderText.Proofs.ReadBack

/-! How much text a tree takes. Some characters weigh one, and spaces, quotes and braces weigh nothing.
While a text is read, what is still owed is the weight of all items of the tree that are not yet as
they are in the end. Main statement: what is owed never goes down by more than the weight of the text
that is read, so a text that is no heavier than its tree has none to spare.
-/
namespace ShaderText

/-- The characters that count. Every word of the language has one of them, and all words that open a
program have the same number, as have the two that close one. -/
def isHeavy (c : Char) : Bool := ['a', 'e', 'o', 'u', 'z', '='].contains c.toLower

def weight (cs : List Char) : Nat := cs.countP isHeavy

@[simp] theorem weight_nil : weight [] = 0 := rfl

theorem weight_append (first second : List Char) :
    weight (first ++ second) = weight first + weight second :=
  List.countP_append

theorem weight_cons (c : Char) (cs : List Char) :
    weight (c :: cs) = weight cs + if isHeavy c then 1 else 0 :=
  List.countP_cons

theorem weight_break (cs : List Char) : weight ('\n' :: cs) = weight cs := by
  rw [weight_cons]
  rfl

theorem weight_le_of_sublist {cs ds : List Char} (h : cs.Sublist ds) :
    weight cs ≤ weight ds := h.countP_le

theorem weight_eq_of_sameWord {a b : List Char} (h : sameWord a b) : weight a = weight b := by
  have folded (cs : List Char) :
      weight cs = (cs.map Char.toLower).countP fun c => ['a', 'e', 'o', 'u', 'z', '='].contains c := by
    rw [List.countP_map]
    rfl
  rw [folded, folded, sameWord_iff.mp h]

theorem weight_replicate_space (n : Nat) : weight (List.replicate n ' ') = 0 := by
  simp [weight, List.countP_replicate, show isHeavy ' ' = false by decide]

theorem weight_word_pos (k : Keyword) : 0 < weight k.word.toList := by
  cases k with
  | program s => cases s <;> decide
  | _ => decide

theorem weight_renderState_pos (k : RenderState) : 0 < weight k.word.toList := by cases k <;> decide

theorem weight_stencilField_pos (k : StencilField) : 0 < weight k.word.toList := by cases k <;> decide

theorem weight_sentinel (s : Sentinel) : weight s.word.toList = 2 ∧ weight s.closing.toList = 1 := by
  cases s <;> decide

theorem isHeavy_of_isBlank {c : Char} (h : isBlank c) : isHeavy c = false := by
  have small : c.toLower = c := by
    unfold Char.toLower
    split
    · rename_i upper
      have low : 65 ≤ c.val.toNat := UInt32.le_iff_toNat_le.mp upper.1
      have high : c.val.toNat ≤ 90 := UInt32.le_iff_toNat_le.mp upper.2
      simp only [isBlank, Char.toNat, Bool.or_eq_true, Bool.and_eq_true, decide_eq_true_eq,
        beq_iff_eq] at h
      omega
    · rfl
  cases heavy : isHeavy c with
  | false => rfl
  | true =>
    unfold isHeavy at heavy
    rw [small] at heavy
    simp only [List.contains_eq_mem, decide_eq_true_eq, List.mem_cons, List.not_mem_nil,
      or_false] at heavy
    rcases heavy with rfl | rfl | rfl | rfl | rfl | rfl <;> revert h <;> decide

theorem weight_of_isBlankText {cs : List Char} (h : isBlankText cs) : weight cs = 0 := by
  refine List.countP_eq_zero.mpr fun c member => ?_
  rw [isHeavy_of_isBlank (List.all_eq_true.mp h c member)]
  simp

theorem weight_linesText (lines : List (List Char)) :
    weight (linesText lines) = (lines.map weight).sum := by
  induction lines with
  | nil => rfl
  | cons line lines ih =>
    rw [linesText_cons, weight_append, weight_cons, ih]
    rfl

theorem weight_joinLines (lines : List (List Char)) :
    weight (joinLines lines) = (lines.map weight).sum := by
  fun_induction joinLines lines with
  | case1 => rfl
  | case2 line => simp
  | case3 line lines _ ih =>
    rw [weight_append, weight_cons, ih]
    rfl

theorem weight_untab (line : List Char) : weight (untab line) = weight line := by
  unfold weight untab
  rw [List.countP_map]
  refine List.countP_congr fun c _ => ?_
  by_cases tab : c = '\t'
  · subst tab
    decide
  · simp [tab]

theorem weight_outdent {k : Nat} {line : List Char} (h : isBlankText line = false → k ≤ indentOf line) :
    weight (outdent k line) = weight line := by
  by_cases blank : isBlankText line = true
  · rw [outdent, if_pos blank, weight_of_isBlankText blank]
    rfl
  · have split := eq_spaces_append_drop (h (by simpa using blank))
    obtain ⟨tail, blankTail, ends⟩ := trimEnd_append_blank (line.drop k)
    rw [outdent, if_neg blank]
    conv => rhs; rw [split, ends]
    rw [weight_append, weight_append, weight_replicate_space, weight_of_isBlankText blankTail]
    omega

theorem weight_linesText_align (lines : List (List Char)) :
    weight (linesText (align lines)) = weight (linesText lines) := by
  rw [weight_linesText, weight_linesText, align, List.map_map, List.map_map]
  refine congrArg List.sum (List.map_congr_left fun line member => ?_)
  simp only [Function.comp_apply]
  rw [weight_outdent (sharedIndent_le (List.mem_map_of_mem member)), weight_untab]

theorem weight_programLines_le (body : List Char) :
    weight (linesText ((programLines body).map String.toList)) ≤ weight body := by
  have text : (programText body).Sublist body := by
    unfold programText
    split
    · exact ((List.drop_sublist 1 _).trans (List.dropWhile_suffix isInLine).sublist)
    · exact List.Sublist.refl _
  have ended (cs : List Char) : (dropFinalBreak cs).Sublist cs := by
    unfold dropFinalBreak
    split
    · exact List.dropLast_sublist cs
    · exact List.Sublist.refl _
  have same : String.toList ∘ String.ofList = id := by
    funext cs
    simp
  unfold programLines
  split
  · exact Nat.zero_le _
  · rw [List.map_map, same, List.map_id, unindentText_eq_align, weight_linesText_align, weight_linesText,
      ← weight_joinLines, joinLines_splitLines]
    exact weight_le_of_sublist ((ended _).trans text)

/-- The weight of the entries that are not yet as they are in the end. -/
def Settings.owed {κ : Type} [WordFamily κ] (goal held : Settings κ) : Nat :=
  ((WordFamily.all : List κ).map fun k => match goal.get? k with
    | none => 0
    | some value =>
      if held.get? k = some value then 0 else weight (WordFamily.word k).toList + weight value.toList).sum

def Tags.owedEntry (held : Tags) (pair : String × String) : Nat :=
  if held.get? pair.1 = some pair.2 then 0 else weight pair.1.toList + weight pair.2.toList + 1

def Tags.owedEntries (goal held : Tags) : Nat := (goal.toList.map held.owedEntry).sum

/-- The weight of a word that is written once, in front of all that it opens. -/
def owedWord (word : Keyword) (isEmpty : Bool) (isEmptyYet : Bool) : Nat :=
  if !isEmpty && isEmptyYet then weight word.word.toList else 0

def owedProgram (goal held : Option (List String)) : Nat :=
  if held = goal then 0
  else match goal with
    | none => 0
    | some lines => weight (linesText (lines.map String.toList)) + 3

def Block.owed (goal held : Block) : Nat :=
  owedWord .tags goal.tags.isEmpty held.tags.isEmpty + goal.tags.owedEntries held.tags +
    goal.states.owed held.states + (owedWord .stencil goal.stencil.isEmpty held.stencil.isEmpty +
      goal.stencil.owed held.stencil) + owedProgram goal.program held.program

def owedName (goal held : Option String) : Nat :=
  if held = goal then 0
  else match goal with
    | none => 0
    | some name => weight Keyword.name.word.toList + weight name.toList

def Pass.owed (goal held : Pass) : Nat := owedName goal.name held.name + goal.toBlock.owed held.toBlock

def Pass.cost (p : Pass) : Nat := weight Keyword.pass.word.toList + p.owed (.named none)

def SubShader.owed (goal held : SubShader) : Nat :=
  goal.toBlock.owed held.toBlock + ((goal.passes.drop held.passes.length).map Pass.cost).sum

def SubShader.cost (s : SubShader) : Nat := weight Keyword.subShader.word.toList + s.owed .empty

def Shader.owed (goal held : Shader) : Nat :=
  goal.toBlock.owed held.toBlock + ((goal.subShaders.drop held.subShaders.length).map SubShader.cost).sum

theorem sum_map_le_add {α : Type} [DecidableEq α] {items : List α} (nodup : items.Nodup) {f g : α → Nat}
    (key : α) (more : Nat) (same : ∀ a ∈ items, a ≠ key → f a ≤ g a) (here : f key ≤ g key + more) :
    (items.map f).sum ≤ (items.map g).sum + more := by
  induction items with
  | nil => exact Nat.zero_le _
  | cons a items ih =>
    obtain ⟨absent, nodup'⟩ := List.nodup_cons.mp nodup
    simp only [List.map_cons, List.sum_cons]
    by_cases equal : a = key
    · subst equal
      have rest : (items.map f).sum ≤ (items.map g).sum :=
        List.sum_le_sum fun b member => same b (List.mem_cons_of_mem _ member) fun e =>
          absent (e ▸ member)
      omega
    · have first := same a List.mem_cons_self equal
      have rest := ih nodup' fun b member => same b (List.mem_cons_of_mem _ member)
      omega

namespace Settings

variable {κ : Type} [WordFamily κ]

theorem owed_self (goal : Settings κ) : goal.owed goal = 0 := by
  refine List.sum_eq_zero fun n member => ?_
  obtain ⟨k, -, rfl⟩ := List.mem_map.mp member
  cases goal.get? k <;> simp

variable [DecidableEq κ]

theorem owed_le_insert (goal held : Settings κ) (k : κ) (value : String) :
    goal.owed held ≤ goal.owed (held.insert k value) +
      (weight (WordFamily.word k).toList + weight value.toList) := by
  refine sum_map_le_add WordFamily.nodup_all k _ (fun j _ other => ?_) ?_
  · simp only [get?_insert, other, if_false]
    exact Nat.le_refl _
  · cases wanted : goal.get? k with
    | none => exact Nat.zero_le _
    | some v =>
      simp only [get?_insert, if_true, Option.some.injEq]
      by_cases right : value = v
      · subst right
        split <;> simp
      · rw [if_neg right]
        split <;> omega

theorem owed_le_insert_of_ne {goal : Settings κ} (held : Settings κ) {k : κ} {value : String}
    (wrong : goal.get? k ≠ some value) : goal.owed held ≤ goal.owed (held.insert k value) := by
  refine Nat.le_trans (sum_map_le_add WordFamily.nodup_all k 0 (fun j _ other => ?_) ?_) (Nat.le_refl _)
  · simp only [get?_insert, other, if_false]
    exact Nat.le_refl _
  · cases wanted : goal.get? k with
    | none => exact Nat.zero_le _
    | some v =>
      have other : value ≠ v := fun equal => wrong (by rw [wanted, equal])
      simp only [get?_insert, if_true, Option.some.injEq, other, if_false]
      split <;> omega

end Settings

namespace Tags

theorem get?_of_mem {t : Tags} {pair : String × String} (member : pair ∈ t.toList) :
    t.get? pair.1 = some pair.2 := by
  obtain ⟨pairs, nodup⟩ := t
  unfold get?
  induction pairs with
  | nil => simp at member
  | cons first pairs ih =>
    obtain ⟨key, value⟩ := first
    obtain ⟨absent, nodup⟩ : key ∉ pairs.map Prod.fst ∧ (pairs.map Prod.fst).Nodup :=
      List.nodup_cons.mp nodup
    rcases List.mem_cons.mp member with rfl | member
    · simp
    · have other : pair.1 ≠ key := fun equal => absent (by
        rw [← equal]
        exact List.mem_map_of_mem member)
      simpa [List.lookup_cons, beq_false_of_ne other] using ih nodup member

theorem owedEntries_self (goal : Tags) : goal.owedEntries goal = 0 := by
  refine List.sum_eq_zero fun n member => ?_
  obtain ⟨pair, inGoal, rfl⟩ := List.mem_map.mp member
  simp [owedEntry, get?_of_mem inGoal]

theorem nodup_toList (t : Tags) : t.toList.Nodup := List.Nodup.of_map Prod.fst t.nodup_keys

theorem owedEntry_insert_of_ne (held : Tags) {key value : String} {pair : String × String}
    (other : pair.1 ≠ key) : (held.insert key value).owedEntry pair = held.owedEntry pair := by
  simp [owedEntry, get?_insert, other]

theorem owedEntries_le_insert_of_ne (goal held : Tags) {key value : String}
    (wrong : (key, value) ∈ goal.toList → held.get? key = some value) :
    goal.owedEntries held ≤ goal.owedEntries (held.insert key value) := by
  refine List.sum_le_sum fun pair member => ?_
  by_cases other : pair.1 = key
  · subst other
    by_cases right : pair.2 = value
    · subst right
      simp [owedEntry, wrong member]
    · simp only [owedEntry, get?_insert, if_true, Option.some.injEq, Ne.symm right, if_false]
      split <;> omega
  · rw [owedEntry_insert_of_ne held other]

theorem owedEntries_le_insert (goal held : Tags) (key value : String) :
    goal.owedEntries held ≤
      goal.owedEntries (held.insert key value) + (weight key.toList + weight value.toList + 1) := by
  by_cases wanted : (key, value) ∈ goal.toList
  · refine sum_map_le_add goal.nodup_toList (key, value) _ (fun pair member other => ?_) ?_
    · have apart : pair.1 ≠ key := fun equal => other (by
        have found := get?_of_mem member
        rw [equal, get?_of_mem wanted] at found
        exact Prod.ext equal (Option.some.inj found).symm)
      rw [owedEntry_insert_of_ne held apart]
    · simp only [owedEntry, get?_insert, if_true]
      split <;> omega
  · have unpaid := goal.owedEntries_le_insert_of_ne held fun member => absurd member wanted
    omega

end Tags

theorem tagToken?_sublist {cs token rest : List Char} (h : tagToken? cs = some (token, rest)) :
    (token ++ rest).Sublist cs := by
  unfold tagToken? at h
  split at h
  · rename_i inside
    split at h
    · simp at h
    · rename_i rest' closes
      obtain ⟨rfl, rfl⟩ := Prod.mk.inj (Option.some.inj h)
      obtain ⟨front, rfl⟩ := eq_append_of_afterQuote? closes
      have length : (front ++ '"' :: rest').length - rest'.length - 1 = front.length := by
        rw [List.length_append, List.length_cons]
        omega
      rw [length, List.take_left]
      exact ((List.sublist_cons_self '"' rest').append_left front).cons _
  · dsimp only at h
    split at h
    · obtain ⟨rfl, rfl⟩ := Prod.mk.inj (Option.some.inj h)
      rw [List.takeWhile_append_dropWhile]
    · simp at h

theorem weight_afterTrivia_le (cs : List Char) : weight (afterTrivia cs) ≤ weight cs :=
  weight_le_of_sublist (afterTrivia_suffix cs).sublist

theorem weight_pair_le {cs key afterKey afterSign value rest : List Char}
    (readKey : tagToken? (afterTrivia cs) = some (key, afterKey))
    (sign : afterTrivia afterKey = '=' :: afterSign)
    (readValue : tagToken? (afterTrivia afterSign) = some (value, rest)) :
    weight key + weight value + 1 + weight rest ≤ weight cs := by
  have first := weight_le_of_sublist (tagToken?_sublist readKey)
  have second := weight_le_of_sublist (tagToken?_sublist readValue)
  have equals : weight ('=' :: afterSign) = weight afterSign + 1 := by
    rw [weight_cons, if_pos (by decide)]
  rw [weight_append] at first second
  have front := weight_afterTrivia_le cs
  have middle := weight_afterTrivia_le afterKey
  have back := weight_afterTrivia_le afterSign
  rw [sign, equals] at middle
  omega

theorem Tags.owedEntries_le_of_reads {cs : List Char} {pairs : List (String × String)} (goal held : Tags)
    (h : ReadsTags cs pairs) :
    goal.owedEntries held ≤ goal.owedEntries (held.insertAll pairs) + weight cs := by
  induction h generalizing held with
  | done => exact Nat.le_add_right _ _
  | @pair cs key afterKey afterSign value rest pairs readKey sign readValue _ ih =>
    have paid := weight_pair_le readKey sign readValue
    have first := goal.owedEntries_le_insert held (String.ofList key) (String.ofList value)
    have later := ih (held.insert (String.ofList key) (String.ofList value))
    rw [String.toList_ofList, String.toList_ofList] at first
    rw [Tags.insertAll_cons]
    omega

theorem Tags.keys_prefix_insertAll (t : Tags) (pairs : List (String × String)) :
    t.keys <+: (t.insertAll pairs).keys := by
  rw [keys_insertAll]
  exact List.prefix_append _ _

namespace Phrase

protected def weight (ph : Phrase) : Nat :=
  ShaderText.weight ph.name + ShaderText.weight ph.value + ShaderText.weight ph.rest

theorem weight_le_of_first? {cs : List Char} {ph : Phrase} (h : first? cs = some ph) :
    ph.weight ≤ ShaderText.weight cs := by
  unfold first? at h
  split at h
  · simp at h
  · rename_i c more front
    obtain rfl := Option.some.inj h
    have name : more.dropWhile isNameChar <:+ c :: more :=
      (List.dropWhile_suffix _).trans (List.suffix_cons c more)
    obtain ⟨value, rest⟩ := Remainder.ofName_suffix name
    have split := take_append_of_suffix rest
    have inside : ((c :: more.takeWhile isNameChar) ++ more.dropWhile isNameChar).Sublist cs := by
      rw [List.cons_append, List.takeWhile_append_dropWhile, ← front]
      exact (afterSpaces_suffix cs).sublist
    have whole := weight_le_of_sublist inside
    have after := weight_le_of_sublist value.sublist
    rw [← split] at after
    rw [weight_append] at whole after
    simp only [Phrase.weight]
    omega

theorem weight_name_of_keyword? {ph : Phrase} {k : Keyword} (h : keyword? ph.name = some k) :
    ShaderText.weight ph.name = ShaderText.weight k.word.toList :=
  (weight_eq_of_sameWord (WordFamily.find?_eq_some_iff.mp h)).symm

theorem weight_tagsText_le (ph : Phrase) :
    ShaderText.weight ph.tagsText ≤ ShaderText.weight ph.value := by
  unfold tagsText
  split
  · exact weight_le_of_sublist ((List.dropLast_sublist _).trans (List.tail_sublist _))
  · exact weight_le_of_sublist (List.tail_sublist _)

theorem weight_interior?_le {ph : Phrase} {inside : List Char} (h : ph.interior? = some inside) :
    ShaderText.weight inside ≤ ShaderText.weight ph.value := by
  unfold interior? at h
  split at h
  · obtain rfl := Option.some.inj h
    exact weight_le_of_sublist ((List.dropLast_sublist _).trans (List.tail_sublist _))
  · simp at h

theorem weight_nameValue_le (ph : Phrase) :
    ShaderText.weight ph.nameValue.toList ≤ ShaderText.weight ph.value := by
  unfold nameValue
  split
  · rename_i rest quoted
    split
    · rw [String.toList_ofList, quoted]
      exact weight_le_of_sublist ((List.dropLast_sublist _).trans (List.sublist_cons_self _ _))
    · rw [String.toList_ofList]
  · rw [String.toList_ofList]

theorem weight_afterUnknown_le (ph : Phrase) :
    ShaderText.weight ph.afterUnknown ≤ ShaderText.weight ph.rest := by
  unfold afterUnknown
  split
  · exact weight_le_of_sublist (arguments_suffix ph.rest).sublist
  · exact Nat.le_refl _

end Phrase

/-- What is owed goes down by no more than the weight that is read, for every body whose statements pay
for what they change. The condition `leads` goes backwards: it holds before when it holds after. -/
theorem owed_le_of_reads {σ : Type} {takes : σ → Phrase → σ → List Char → Prop} (leads : σ → Prop)
    (owed : σ → Nat) (step : ∀ (held : σ) (ph : Phrase) (next : σ) (rest : List Char),
      takes held ph next rest → leads next → leads held ∧ owed held + weight rest ≤ owed next + ph.weight)
    {held last : σ} {cs : List Char} (h : Reads takes held cs last) (arrives : leads last) :
    leads held ∧ owed held ≤ owed last + weight cs := by
  -- From the end of the reading back, since `leads` is known of what is left there.
  induction h with
  | done => exact ⟨arrives, Nat.le_add_right _ _⟩
  | step first taken _ ih =>
    obtain ⟨later, paid⟩ := ih arrives
    obtain ⟨here, paid'⟩ := step _ _ _ _ taken later
    have spent := Phrase.weight_le_of_first? first
    exact ⟨here, by omega⟩

theorem owedWord_le (word : Keyword) (empty yet later : Bool) :
    owedWord word empty yet ≤ owedWord word empty later + weight word.word.toList := by
  unfold owedWord
  split <;> split <;> omega

theorem Settings.owed_le_of_reads (goal : Settings StencilField) {held last : Settings StencilField}
    {cs : List Char} (h : Reads TakesField held cs last) :
      goal.owed held ≤ goal.owed last + weight cs := by
  refine (ShaderText.owed_le_of_reads (fun _ => True) goal.owed ?_ h trivial).2
  rintro held ph next rest ⟨rfl, rfl⟩ -
  refine ⟨trivial, ?_⟩
  unfold Phrase.weight
  cases field : ph.field? with
  | none =>
    simp only [Option.toList_none, insertAll, List.foldl_nil]
    omega
  | some pair =>
    unfold Phrase.field? at field
    split at field
    · simp at field
    · obtain ⟨k, found, rfl⟩ := Option.map_eq_some_iff.mp field
      have word := weight_eq_of_sameWord (WordFamily.find?_eq_some_iff.mp found)
      have paid := goal.owed_le_insert held k (String.ofList ph.value)
      rw [word, String.toList_ofList] at paid
      simp only [Option.toList_some, insertAll, List.foldl_cons, List.foldl_nil]
      omega

theorem owedProgram_le (goal held : Option (List String)) (lines : List String) :
    owedProgram goal held ≤ owedProgram goal (some lines) +
      (weight (linesText (lines.map String.toList)) + 3) := by
  unfold owedProgram
  cases goal with
  | none =>
    rw [ite_self]
    exact Nat.zero_le _
  | some wanted =>
    by_cases right : lines = wanted
    · subst right
      simp only [if_true]
      split <;> omega
    · simp only [Option.some.injEq, right, if_false]
      split <;> omega

theorem owedProgram_le_of_ne {goal : Option (List String)} (held : Option (List String))
    {lines : List String}
    (wrong : goal ≠ some lines) : owedProgram goal held ≤ owedProgram goal (some lines) := by
  unfold owedProgram
  rw [if_neg (Ne.symm wrong)]
  split <;> omega

theorem weight_program_le {sentinel : Sentinel} {cs last : List Char}
    (h : fromClosingLine? sentinel.closing.toList (afterLine cs) = some last) :
    weight (linesText ((programLines (cs.take (cs.length - last.length))).map String.toList)) + 1 +
      weight (afterFirstWord last) ≤ weight cs := by
  have suffix := (fromClosingLine?_suffix h).trans (afterLine_suffix cs)
  have split := congrArg weight (take_append_of_suffix suffix)
  have body := weight_programLines_le (cs.take (cs.length - last.length))
  have closing := weight_eq_of_sameWord (sameWord_of_fromClosingLine? h)
  have word : (firstWord last ++ afterFirstWord last).Sublist last := by
    unfold firstWord afterFirstWord afterBare
    rw [List.takeWhile_append_dropWhile]
    exact List.dropWhile_sublist _
  have ends := weight_le_of_sublist word
  rw [weight_append, closing, (weight_sentinel sentinel).2] at ends
  rw [weight_append] at split
  omega

/-- A block whose keys come in the order of another block's keys. -/
def Block.Leads (goal held : Block) : Prop := held.tags.keys <+: goal.tags.keys

theorem Block.Takes.owed_le {goal held next : Block} {ph : Phrase} {rest : List Char}
    (h : held.Takes ph next rest) (leads : goal.Leads next) :
    goal.Leads held ∧ goal.owed held + weight rest ≤ goal.owed next + ph.weight := by
  unfold Block.owed Phrase.weight
  cases h with
  | remark is => exact ⟨leads, by omega⟩
  | @program sentinel last comment word closes =>
    have name := Phrase.weight_name_of_keyword? word
    have opens : weight (Keyword.program sentinel).word.toList = 2 := (weight_sentinel sentinel).1
    have paid := owedProgram_le goal.program held.program
      (programLines (ph.rest.take (ph.rest.length - last.length)))
    have spent := weight_program_le closes
    exact ⟨leads, by dsimp only; omega⟩
  | @tags pairs word block reads =>
    have name := Phrase.weight_name_of_keyword? word
    have value := ph.weight_tagsText_le
    have opens := owedWord_le .tags goal.tags.isEmpty held.tags.isEmpty
      (held.tags.insertAll pairs).isEmpty
    have paid := goal.tags.owedEntries_le_of_reads held.tags reads
    exact ⟨(held.tags.keys_prefix_insertAll pairs).trans leads, by dsimp only; omega⟩
  | @stencil inside fields word found reads =>
    have name := Phrase.weight_name_of_keyword? word
    have value := Phrase.weight_interior?_le found
    have opens := owedWord_le .stencil goal.stencil.isEmpty held.stencil.isEmpty fields.isEmpty
    have paid := goal.stencil.owed_le_of_reads reads
    exact ⟨leads, by dsimp only; omega⟩
  | droppedStencil => exact ⟨leads, by omega⟩
  | @state known comment nonempty plain found =>
    have name := weight_eq_of_sameWord (WordFamily.find?_eq_some_iff.mp found)
    have paid := goal.states.owed_le_insert held.states known (String.ofList ph.value)
    rw [name, String.toList_ofList] at paid
    exact ⟨leads, by dsimp only; omega⟩
  | unknown =>
    have dropped := ph.weight_afterUnknown_le
    exact ⟨leads, by omega⟩

theorem owedName_le (goal held : Option String) (name : String) :
    owedName goal held ≤ owedName goal (some name) +
      (weight Keyword.name.word.toList + weight name.toList) := by
  unfold owedName
  cases goal with
  | none =>
    rw [ite_self]
    exact Nat.zero_le _
  | some wanted =>
    by_cases right : name = wanted
    · subst right
      simp only [if_true]
      split <;> omega
    · simp only [Option.some.injEq, right, if_false]
      split <;> omega

theorem owedName_le_of_ne {goal : Option String} (held : Option String) {name : String}
    (wrong : goal ≠ some name) : owedName goal held ≤ owedName goal (some name) := by
  unfold owedName
  rw [if_neg (Ne.symm wrong)]
  split <;> omega

theorem Block.owed_self (b : Block) : b.owed b = 0 := by
  simp [owed, owedProgram, owedWord, Settings.owed_self, Tags.owedEntries_self]

theorem Pass.owed_self (p : Pass) : p.owed p = 0 := by simp [owed, owedName, Block.owed_self]

theorem Pass.owed_le_of_reads (goal : Pass) {held last : Pass} {cs : List Char}
    (h : Reads Pass.Takes held cs last) (leads : goal.toBlock.Leads last.toBlock) :
    goal.toBlock.Leads held.toBlock ∧ goal.owed held ≤ goal.owed last + weight cs := by
  refine ShaderText.owed_le_of_reads (fun p => goal.toBlock.Leads p.toBlock) goal.owed ?_ h leads
  intro held ph next rest taken leads
  unfold Pass.owed
  cases taken with
  | name comment word =>
    have named := Phrase.weight_name_of_keyword? word
    have value := ph.weight_nameValue_le
    have paid := owedName_le goal.name held.name ph.nameValue
    exact ⟨leads, by unfold Phrase.weight; dsimp only; omega⟩
  | clause _ taken =>
    obtain ⟨here, paid⟩ := taken.owed_le leads
    exact ⟨here, by dsimp only; omega⟩

theorem drop_length_eq_cons {α : Type} {front goal : List α} {a : α} (h : front ++ [a] <+: goal) :
    goal.drop front.length = a :: goal.drop (front ++ [a]).length := by
  obtain ⟨tail, rfl⟩ := h
  rw [List.append_assoc, List.drop_left, ← List.append_assoc, List.drop_left]
  rfl

def SubShader.Leads (goal held : SubShader) : Prop :=
  goal.toBlock.Leads held.toBlock ∧ held.passes <+: goal.passes

theorem SubShader.owed_self (s : SubShader) : s.owed s = 0 := by simp [owed, Block.owed_self]

theorem SubShader.owed_le_of_reads (goal : SubShader) {held last : SubShader} {cs : List Char}
    (h : Reads SubShader.Takes held cs last) (leads : goal.Leads last) :
    goal.Leads held ∧ goal.owed held ≤ goal.owed last + weight cs := by
  refine ShaderText.owed_le_of_reads goal.Leads goal.owed ?_ h leads
  intro held ph next rest taken leads
  unfold SubShader.owed
  cases taken with
  | @pass inside p comment word found reads =>
    have named := Phrase.weight_name_of_keyword? word
    have value := Phrase.weight_interior?_le found
    have paid := (p.owed_le_of_reads reads (List.prefix_refl _)).2
    have done := p.owed_self
    refine ⟨⟨leads.1, (List.prefix_append _ _).trans leads.2⟩, ?_⟩
    rw [drop_length_eq_cons leads.2]
    simp only [List.map_cons, List.sum_cons, Phrase.weight, Pass.cost]
    omega
  | droppedPass => exact ⟨leads, by unfold Phrase.weight; omega⟩
  | clause _ taken =>
    obtain ⟨here, paid⟩ := taken.owed_le leads.1
    exact ⟨⟨here, leads.2⟩, by dsimp only; omega⟩

def Shader.Leads (goal held : Shader) : Prop :=
  goal.toBlock.Leads held.toBlock ∧ held.subShaders <+: goal.subShaders ∧ held.name = goal.name

theorem Shader.owed_self (s : Shader) : s.owed s = 0 := by simp [owed, Block.owed_self]

theorem Shader.owed_le_of_reads (goal : Shader) {held last : Shader} {cs : List Char}
    (h : Reads Shader.Takes held cs last) (leads : goal.Leads last) :
    goal.Leads held ∧ goal.owed held ≤ goal.owed last + weight cs := by
  refine ShaderText.owed_le_of_reads goal.Leads goal.owed ?_ h leads
  intro held ph next rest taken leads
  unfold Shader.owed
  cases taken with
  | properties => exact ⟨leads, by unfold Phrase.weight; omega⟩
  | @subShader inside sub comment word found reads =>
    have named := Phrase.weight_name_of_keyword? word
    have value := Phrase.weight_interior?_le found
    have paid := (sub.owed_le_of_reads reads ⟨List.prefix_refl _, List.prefix_refl _⟩).2
    have done := sub.owed_self
    refine ⟨⟨leads.1, (List.prefix_append _ _).trans leads.2.1, leads.2.2⟩, ?_⟩
    rw [drop_length_eq_cons leads.2.1]
    simp only [List.map_cons, List.sum_cons, Phrase.weight, SubShader.cost]
    omega
  | droppedSubShader => exact ⟨leads, by unfold Phrase.weight; omega⟩
  | clause _ taken =>
    obtain ⟨here, paid⟩ := taken.owed_le leads.1
    exact ⟨⟨here, leads.2⟩, by dsimp only; omega⟩

/-- The weight of rows, wherever they stand. -/
def rowsWeight (rows : List Row) : Nat := (rows.map fun row => weight row.content).sum

theorem rowsWeight_append (first second : List Row) :
    rowsWeight (first ++ second) = rowsWeight first + rowsWeight second := by
  simp [rowsWeight]

theorem rowsWeight_flatMap {α : Type} (items : List α) (rows : α → List Row) :
    rowsWeight (items.flatMap rows) = (items.map fun item => rowsWeight (rows item)).sum := by
  induction items with
  | nil => rfl
  | cons item items ih => rw [List.flatMap_cons, rowsWeight_append, ih, List.map_cons, List.sum_cons]

theorem weight_rowsText (unit depth : Nat) (rows : List Row) :
    weight (rowsText unit (rows.map (Row.shift depth))) = rowsWeight rows := by
  induction rows with
  | nil => rfl
  | cons row rows ih =>
    have here : weight ((row.shift depth).text unit) = weight row.content := by
      by_cases empty : row.content = []
      · simp [Row.text, Row.shift, empty, weight_cons, show isHeavy '\n' = false by decide]
      · have filled : (row.shift depth).content ≠ [] := empty
        rw [Row.text_of_ne_nil filled, weight_append, weight_append, weight_replicate_space]
        simp [Row.shift, weight_cons, show isHeavy '\n' = false by decide]
    rw [List.map_cons, rowsText_cons, weight_append, here, ih]
    simp [rowsWeight]

theorem weight_insideText (unit depth : Nat) (rows : List Row) :
    weight (insideText unit depth rows) = rowsWeight rows := by
  rw [insideText, List.cons_append, weight_cons, weight_append, weight_rowsText, weight_replicate_space]
  rfl

theorem rowsWeight_nest (word : String) (rows : List Row) :
    rowsWeight (nest word rows) = weight word.toList + rowsWeight rows := by
  have inner : rowsWeight (rows.map (Row.shift 1)) = rowsWeight rows := by
    simp [rowsWeight, Row.shift, Function.comp_def]
  rw [nest, rowsWeight_append, show .ofString word :: ⟨0, ['{']⟩ :: rows.map (Row.shift 1) =
    [Row.ofString word, ⟨0, ['{']⟩] ++ rows.map (Row.shift 1) from rfl, rowsWeight_append, inner]
  simp [rowsWeight, Row.ofString, weight_cons, show isHeavy '{' = false by decide,
    show isHeavy '}' = false by decide]

theorem rowsWeight_children {γ : Type} (word : Keyword) {rows : γ → List Row} {final : γ → γ}
    {cost : γ → Nat} (items : List γ)
    (priced : ∀ item, cost (final item) = weight word.word.toList + rowsWeight (rows item)) :
    rowsWeight (items.flatMap fun item => nest word.word (rows item)) =
      ((items.map final).map cost).sum := by
  rw [rowsWeight_flatMap, List.map_map]
  refine congrArg List.sum (List.map_congr_left fun item _ => ?_)
  rw [rowsWeight_nest, Function.comp_apply, priced]

theorem rowsWeight_settings {κ : Type} [WordFamily κ] (s : Settings κ) :
    rowsWeight (settingRows s.entries) = s.owed .empty := by
  have listed (keys : List κ) : rowsWeight (settingRows (keys.filterMap fun k =>
      (s.get? k).map fun value => (k, value))) = (keys.map fun k => match s.get? k with
        | none => 0
        | some value => if (Settings.empty : Settings κ).get? k = some value then 0
          else weight (WordFamily.word k).toList + weight value.toList).sum := by
    induction keys with
    | nil => rfl
    | cons k keys ih =>
      rw [List.map_cons, List.sum_cons, ← ih]
      cases held : s.get? k with
      | none => rw [List.filterMap_cons_none (by simp [held]), Nat.zero_add]
      | some value =>
        rw [List.filterMap_cons_some (b := (k, value)) (by simp [held])]
        simp [settingRows, rowsWeight, Settings.empty, weight_append, weight_cons,
          show isHeavy ' ' = false by decide]
  exact listed WordFamily.all

theorem weight_pairsText (pairs : List (String × String)) : weight (pairsText pairs) =
    (pairs.map fun pair => weight pair.1.toList + weight pair.2.toList + 1).sum := by
  induction pairs with
  | nil => rfl
  | cons pair pairs ih =>
    have quote : isHeavy '"' = false := by decide
    have space : isHeavy ' ' = false := by decide
    have equals : isHeavy '=' = true := by decide
    rw [List.map_cons, List.sum_cons, ← ih]
    simp [pairsText, weight_append, weight_cons, quote, space, equals]
    omega

theorem rowsWeight_tags (t : Tags) :
    rowsWeight t.rows = owedWord .tags t.isEmpty true + t.owedEntries .empty := by
  have entries : t.owedEntries .empty =
      (t.toList.map fun pair => weight pair.1.toList + weight pair.2.toList + 1).sum := by
    refine congrArg List.sum (List.map_congr_left fun pair _ => ?_)
    simp [Tags.owedEntry]
  rw [entries, ← weight_pairsText]
  unfold Tags.rows owedWord
  by_cases none : t.isEmpty
  · have nothing : t.toList = [] := List.isEmpty_iff.mp none
    simp [none, nothing, rowsWeight, pairsText]
  · simp [none, rowsWeight, Row.ofString, Tags.toList_line, weight_append, weight_cons,
      show isHeavy ' ' = false by decide, show isHeavy '{' = false by decide,
      show isHeavy '}' = false by decide]

theorem rowsWeight_stencil (s : Settings StencilField) :
    rowsWeight (stencilRows s) = owedWord .stencil s.isEmpty true + s.owed .empty := by
  have fields := rowsWeight_settings s
  unfold stencilRows owedWord
  by_cases none : s.isEmpty
  · have nothing : s.entries = [] := List.isEmpty_iff.mp none
    rw [nothing] at fields
    simp [none, ← fields, settingRows]
  · rw [if_neg none, rowsWeight_nest, Settings.rows_eq, fields]
    simp [none]

theorem rowsWeight_program (sentinel : Sentinel) (program : Option (List String)) :
    rowsWeight (programRows sentinel program) = owedProgram (program.map realign) none := by
  cases program with
  | none => rfl
  | some lines =>
    obtain ⟨opens, closes⟩ := weight_sentinel sentinel
    have body : rowsWeight (lines.map Row.ofString) = weight (linesText (lines.map String.toList)) := by
      rw [weight_linesText, rowsWeight, List.map_map, List.map_map]
      rfl
    have kept : (realign lines).map String.toList = align (lines.map String.toList) := by
      rw [realign, List.map_map]
      conv => rhs; rw [← List.map_id (align (lines.map String.toList))]
      exact List.map_congr_left fun line _ => by simp
    have ends : rowsWeight [Row.ofString sentinel.closing] = 1 := by
      simp [rowsWeight, Row.ofString, closes]
    have starts : rowsWeight [Row.ofString sentinel.word] = 2 := by simp [rowsWeight, Row.ofString, opens]
    have split : programRows sentinel (some lines) = [Row.ofString sentinel.word] ++
      (lines.map Row.ofString ++ [Row.ofString sentinel.closing]) := rfl
    have owed : owedProgram ((some lines).map realign) none =
        weight (linesText ((realign lines).map String.toList)) + 3 := by simp [owedProgram]
    rw [split, rowsWeight_append, rowsWeight_append, starts, ends, body, owed, kept,
      weight_linesText_align]
    omega

theorem rowsWeight_block (b : Block) (sentinel : Sentinel) :
    rowsWeight (b.rows sentinel) = b.realigned.owed .empty := by
  unfold Block.rows
  rw [rowsWeight_append, rowsWeight_append, rowsWeight_append, rowsWeight_tags, Settings.rows_eq,
    rowsWeight_settings, rowsWeight_stencil, rowsWeight_program]
  rfl

theorem rowsWeight_name (name : Option String) : rowsWeight (nameRows name) = owedName name none := by
  cases name with
  | none => rfl
  | some name =>
    simp [nameRows, rowsWeight, Row.ofString, owedName, inQuotes, weight_append, weight_cons,
      show isHeavy ' ' = false by decide, show isHeavy '"' = false by decide]

theorem rowsWeight_pass (p : Pass) : rowsWeight p.innerRows = p.realigned.owed (.named none) := by
  rw [Pass.innerRows, rowsWeight_append, rowsWeight_name, rowsWeight_block]
  rfl

theorem Pass.cost_realigned (p : Pass) :
    p.realigned.cost = weight Keyword.pass.word.toList + rowsWeight p.innerRows := by
  rw [rowsWeight_pass]
  rfl

theorem rowsWeight_subShader (s : SubShader) : rowsWeight s.innerRows = s.realigned.owed .empty := by
  have passes : rowsWeight (s.passes.flatMap Pass.rows) = _ :=
    rowsWeight_children .pass s.passes Pass.cost_realigned
  rw [SubShader.innerRows, rowsWeight_append, rowsWeight_block, passes]
  rfl

theorem SubShader.cost_realigned (s : SubShader) :
    s.realigned.cost = weight Keyword.subShader.word.toList + rowsWeight s.innerRows := by
  rw [rowsWeight_subShader]
  rfl

theorem rowsWeight_shader (s : Shader) (name : String) :
    rowsWeight s.innerRows = s.realigned.owed (.named name) := by
  have subShaders : rowsWeight (s.subShaders.flatMap SubShader.rows) = _ :=
    rowsWeight_children .subShader s.subShaders SubShader.cost_realigned
  rw [Shader.innerRows, rowsWeight_append, rowsWeight_block, subShaders]
  rfl

end ShaderText
