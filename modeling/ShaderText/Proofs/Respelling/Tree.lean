import Mathlib.Data.List.Nodup
import ShaderText.Proofs.Tight
import ShaderText.Proofs.Respelling.Outline

/-! Respelled trees. Settings and lines are respelled one by one; tags also need their keys to stay
apart. Main statement: a document with a tree whose keys stay apart is, respelled, a document with the
respelled tree, and a document without a tree has an error at the same line and column.
-/
namespace ShaderText

namespace Respelling

variable (ρ : Respelling)

/-- The tags with every key and value respelled. Of keys that become one, the last value counts. -/
def tags (t : Tags) : Tags := Tags.empty.insertAll (t.toList.map ρ.pair)

/-- Whether the keys of some tags stay apart. -/
def Separates (t : Tags) : Prop := ∀ j ∈ t.keys, ∀ k ∈ t.keys, ρ.string j = ρ.string k → j = k

variable {ρ}

theorem Separates.of_insertAll {t : Tags} (pairs : List (String × String))
    (h : ρ.Separates (t.insertAll pairs)) : ρ.Separates t := by
  have kept := (t.keys_prefix_insertAll pairs).subset
  exact fun j hasJ k hasK => h j (kept hasJ) k (kept hasK)

theorem toList_tags {t : Tags} (h : ρ.Separates t) : (ρ.tags t).toList = t.toList.map ρ.pair := by
  refine Tags.toList_insertAll .empty _ ?_
  have keys : (t.toList.map ρ.pair).map Prod.fst = t.keys.map ρ.string := by
    simp [Tags.keys, pair, Function.comp_def]
  rw [show Tags.empty.toList = [] from rfl, List.nil_append, keys]
  exact List.Nodup.map_on h t.nodup_keys

theorem put_map_pair {key value : String} {entries : List (String × String)}
    (apart : ∀ k ∈ entries.map Prod.fst, ρ.string k = ρ.string key → k = key) :
    Tags.put (ρ.string key) (ρ.string value) (entries.map ρ.pair) = (Tags.put key value entries).map ρ.pair := by
  fun_induction Tags.put key value entries with
  | case1 => rfl
  | case2 v rest => simp [Tags.put, pair]
  | case3 k v rest other ih =>
    have other' : ρ.string k ≠ ρ.string key := fun equal => other (apart k (by simp) equal)
    rw [List.map_cons, List.map_cons, ← ih fun k member => apart k (by simp [member])]
    simp [Tags.put, pair, other']

theorem tags_insert {t : Tags} {key value : String} (h : ρ.Separates (t.insert key value)) :
    ρ.tags (t.insert key value) = (ρ.tags t).insert (ρ.string key) (ρ.string value) := by
  have before : ρ.Separates t := Separates.of_insertAll [(key, value)] h
  have has (k : String) (member : k ∈ t.keys ∨ k = key) : k ∈ (t.insert key value).keys := by
    rw [Tags.keys_insert]
    split
    · rcases member with member | rfl <;> assumption
    · simpa using member
  refine Tags.eq_of_toList ?_
  have put : Tags.put (ρ.string key) (ρ.string value) (t.toList.map ρ.pair) = _ :=
    put_map_pair fun k member => h k (has k (.inl member)) key (has key (.inr rfl))
  rw [toList_tags h]
  show (Tags.put key value t.toList).map ρ.pair = Tags.put _ _ (ρ.tags t).toList
  rw [toList_tags before, put]

theorem tags_insertAll {t : Tags} {pairs : List (String × String)} (h : ρ.Separates (t.insertAll pairs)) :
    ρ.tags (t.insertAll pairs) = (ρ.tags t).insertAll (pairs.map ρ.pair) := by
  induction pairs generalizing t with
  | nil => rfl
  | cons pair pairs ih =>
    have first : ρ.Separates (t.insert pair.1 pair.2) := Separates.of_insertAll pairs h
    have later := ih (t := t.insert pair.1 pair.2) h
    rw [tags_insert first] at later
    exact later

theorem mapValues_insertAll {κ : Type} [DecidableEq κ] (f : String → String) (s : Settings κ)
    (pairs : List (κ × String)) :
    (s.insertAll pairs).mapValues f =
      (s.mapValues f).insertAll (pairs.map fun set => (set.1, f set.2)) := by
  induction pairs generalizing s with
  | nil => rfl
  | cons set pairs ih =>
    have step : (s.insert set.1 set.2).mapValues f = (s.mapValues f).insert set.1 (f set.2) := by
      ext1
      funext k
      by_cases same : k = set.1 <;> simp [Settings.mapValues, same]
    have later := ih (s.insert set.1 set.2)
    rw [step] at later
    exact later

variable (ρ)

def block (b : Block) : Block :=
  ⟨ρ.tags b.tags, b.states.mapValues ρ.string, b.stencil.mapValues ρ.string,
    b.program.map fun lines => lines.map ρ.string⟩

def pass (p : Pass) : Pass := { ρ.block p.toBlock with name := p.name.map ρ.string }

def subShader (s : SubShader) : SubShader := { ρ.block s.toBlock with passes := s.passes.map ρ.pass }

def shader (s : Shader) : Shader :=
  { ρ.block s.toBlock with name := ρ.string s.name, subShaders := s.subShaders.map ρ.subShader }

end Respelling

namespace Motion

variable {m : Motion}

theorem separates_of_add {b : Block} {said : Clause} (h : m.Separates (b.add said).tags) :
    m.Separates b.tags := by
  cases said with
  | tags pairs fault? => exact Respelling.Separates.of_insertAll pairs h
  | _ => exact h

theorem filterMap_field? (entries : List StencilEntry) :
    (entries.map m.stencilEntry).filterMap (·.field?) =
      (entries.filterMap (·.field?)).map fun set => (set.1, m.string set.2) := by
  rw [List.filterMap_map, List.map_filterMap]
  rfl

theorem block_add {b : Block} {said : Clause} (h : m.Separates (b.add said).tags) :
    m.block (b.add said) = (m.block b).add (m.clause said) := by
  have insert {κ : Type} [DecidableEq κ] (s : Settings κ) (k : κ) (value : String) :
      (s.insert k value).mapValues m.string = (s.mapValues m.string).insert k (m.string value) :=
    Respelling.mapValues_insertAll m.string s [(k, value)]
  cases said with
  | tags pairs fault? => simp only [Respelling.block, Block.add, clause, Respelling.tags_insertAll h]
  | stencil entries =>
    simp only [Respelling.block, Block.add, clause, Respelling.mapValues_insertAll, filterMap_field?]
  | state known value => simp only [Respelling.block, Block.add, clause, insert]
  | _ => rfl

theorem pass_add {p : Pass} {item : PassItem} (h : m.Separates (p.add item).tags) :
    m.pass (p.add item) = (m.pass p).add (m.passItem item) := by
  cases item with
  | name value => rfl
  | clause said =>
    have block := block_add (b := p.toBlock) h
    simp only [Respelling.pass, Pass.add, passItem, block]

theorem foldl_entries {σ α : Type} (add : σ → α → σ) (f : σ → σ) (g : α → α) (ok : σ → Prop)
    (before : ∀ s a, ok (add s a) → ok s) (step : ∀ s a, ok (add s a) → f (add s a) = add (f s) (g a))
    {entries : List (Entry α)} {s : σ} (h : ok (entries.foldl (fun s e => add s e.item) s)) :
    f (entries.foldl (fun s e => add s e.item) s) =
      (entries.map (m.entry g)).foldl (fun s e => add s e.item) (f s) := by
  have first {entries : List (Entry α)} {s : σ} (h : ok (entries.foldl (fun s e => add s e.item) s)) : ok s := by
    induction entries generalizing s with
    | nil => exact h
    | cons e entries ih => exact before s e.item (ih h)
  induction entries generalizing s with
  | nil => rfl
  | cons e entries ih =>
    rw [List.foldl_cons] at h ⊢
    rw [ih h, step s e.item (first h), List.map_cons, List.foldl_cons]
    rfl

theorem pass_ofEntries {entries : List (Entry PassItem)} (h : m.Separates (Pass.ofEntries entries).tags) :
    m.pass (Pass.ofEntries entries) = Pass.ofEntries (entries.map (m.entry m.passItem)) := by
  refine foldl_entries Pass.add m.pass m.passItem (fun p => m.Separates p.tags) (fun p item h => ?_)
    (fun p item h => pass_add h) h
  cases item with
  | name value => exact h
  | clause said => exact separates_of_add h

theorem subShader_add {s : SubShader} {item : SubShaderItem}
    (h : ∀ b ∈ (s.add item).blocks, m.Separates b.tags) :
    m.subShader (s.add item) = (m.subShader s).add (m.subShaderItem item) := by
  cases item with
  | pass entries =>
    have pass := pass_ofEntries (h (Pass.ofEntries entries).toBlock (by simp [SubShader.blocks, SubShader.add]))
    simp [Respelling.subShader, SubShader.add, subShaderItem, pass]
  | droppedPass f => rfl
  | clause said =>
    have block := block_add (h (s.toBlock.add said) (by simp [SubShader.blocks, SubShader.add]))
    simp only [Respelling.subShader, SubShader.add, subShaderItem, block]

theorem subShader_ofEntries {entries : List (Entry SubShaderItem)}
    (h : ∀ b ∈ (SubShader.ofEntries entries).blocks, m.Separates b.tags) :
    m.subShader (SubShader.ofEntries entries) =
      SubShader.ofEntries (entries.map (m.entry m.subShaderItem)) := by
  refine foldl_entries SubShader.add m.subShader m.subShaderItem (fun s => ∀ b ∈ s.blocks, m.Separates b.tags)
    (fun s item h b member => ?_) (fun s item h => subShader_add h) h
  cases item with
  | pass entries =>
    refine h b ?_
    simp only [SubShader.blocks, SubShader.add, List.map_append] at member ⊢
    rcases List.mem_cons.mp member with rfl | inside
    · exact List.mem_cons_self
    · exact List.mem_cons_of_mem _ (List.mem_append_left _ inside)
  | droppedPass f => exact h b member
  | clause said =>
    rcases List.mem_cons.mp member with rfl | inside
    · exact separates_of_add (h _ List.mem_cons_self)
    · exact h b (List.mem_cons_of_mem _ inside)

theorem shader_add {s : Shader} {item : ShaderItem} (h : ∀ b ∈ (s.add item).blocks, m.Separates b.tags) :
    m.shader (s.add item) = (m.shader s).add (m.shaderItem item) := by
  cases item with
  | properties => rfl
  | subShader entries =>
    have inside : ∀ b ∈ (SubShader.ofEntries entries).blocks, m.Separates b.tags := fun b member =>
      h b (by simp [Shader.blocks, Shader.add, member])
    have sub := subShader_ofEntries inside
    simp [Respelling.shader, Shader.add, shaderItem, sub]
  | droppedSubShader f => rfl
  | clause said =>
    have block := block_add (h (s.toBlock.add said) (by simp [Shader.blocks, Shader.add]))
    simp only [Respelling.shader, Shader.add, shaderItem, block]

theorem shader_ofEntries {name : String} {entries : List (Entry ShaderItem)}
    (h : ∀ b ∈ (Shader.ofEntries name entries).blocks, m.Separates b.tags) :
    m.shader (Shader.ofEntries name entries) =
      Shader.ofEntries (m.string name) (entries.map (m.entry m.shaderItem)) := by
  refine foldl_entries Shader.add m.shader m.shaderItem (fun s => ∀ b ∈ s.blocks, m.Separates b.tags)
    (fun s item h b member => ?_) (fun s item h => shader_add h) h
  cases item with
  | properties => exact h b member
  | subShader entries =>
    refine h b ?_
    simp only [Shader.blocks, Shader.add, List.flatMap_append] at member ⊢
    rcases List.mem_cons.mp member with rfl | inside
    · exact List.mem_cons_self
    · exact List.mem_cons_of_mem _ (List.mem_append_left _ inside)
  | droppedSubShader f => exact h b member
  | clause said =>
    rcases List.mem_cons.mp member with rfl | inside
    · exact separates_of_add (h _ List.mem_cons_self)
    · exact h b (List.mem_cons_of_mem _ inside)

/-- The motion of a whole document: each offset moves as far as the text in front of it grows. -/
def along (ρ : Respelling) (document : List Char) : Motion where
  toRespelling := ρ
  place n := byteSize (ρ.text (takeBytes n document)) + (n - byteSize (takeBytes n document))

variable (ρ : Respelling)

theorem place_along_byteSize (front back : List Char) :
    (along ρ (front ++ back)).place (byteSize front) = byteSize (ρ.text front) := by
  simp only [along, takeBytes_byteSize_append, Nat.sub_self, Nat.add_zero]

theorem place_along_zero (document : List Char) : (along ρ document).place 0 = 0 :=
  place_along_byteSize ρ [] document

theorem follows_along (document : List Char) : (along ρ document).Follows (Region.whole document) := by
  rintro front back split
  obtain rfl : document = front ++ back := split
  rw [Region.whole, place_along_zero, Nat.zero_add, Nat.zero_add]
  exact place_along_byteSize ρ front back

theorem forward_append (p : Position) (front back : List Char) (n : Nat) :
    p.forward (byteSize front + n) (front ++ back) = (front.foldl Position.advance p).forward n back := by
  induction front generalizing p with
  | nil => simp
  | cons c front ih =>
    rw [List.cons_append, Position.forward, if_pos (by simp [Nat.add_assoc]), List.foldl_cons, ← ih]
    congr 1
    simp only [byteSize_cons]
    omega

theorem foldl_advance_image (p : Position) (c : Char) : (ρ.image c).foldl Position.advance p = p.advance c := by
  rcases ρ.image_alike c with ⟨rfl, image⟩ | ⟨d, image, alike⟩
  · rw [image]
    rfl
  · have ends : d = '\n' ↔ c = '\n' := alike.eq_iff (by decide)
    simp only [image, List.foldl_cons, List.foldl_nil, Position.advance, ends, alike.utf8Size_eq]

/-- Lines and columns do not change: characters keep their size, and a carriage return stands at the end
of its line. -/
theorem ofOffset_place (document : List Char) (n : Nat) :
    Position.ofOffset (ρ.text document) ((along ρ document).place n) = Position.ofOffset document n := by
  unfold Position.ofOffset
  generalize Position.origin = p
  induction document generalizing p n with
  | nil => simp [Position.forward]
  | cons c cs ih =>
    by_cases within : c.utf8Size ≤ n
    · have place : (along ρ (c :: cs)).place n = byteSize (ρ.image c) + (along ρ cs).place (n - c.utf8Size) := by
        simp only [along, takeBytes, if_pos within, Respelling.text_cons, byteSize_append, byteSize_cons]
        omega
      rw [place, ρ.text_cons, forward_append, foldl_advance_image, ih, Position.forward, if_pos within]
    · have place : (along ρ (c :: cs)).place n = n := by
        simp [along, takeBytes, within]
      rw [place, Position.forward, if_neg within, ρ.text_cons]
      rcases ρ.image_alike c with ⟨rfl, image⟩ | ⟨d, image, alike⟩
      · have sizes : ('\n').utf8Size = 1 ∧ ('\r').utf8Size = 1 := ⟨rfl, rfl⟩
        rw [image, List.cons_append, Position.forward, if_neg (by omega)]
      · rw [image, List.singleton_append, Position.forward, if_neg (by rwa [alike.utf8Size_eq])]

end Motion

namespace Respelling

variable {ρ : Respelling} {document : String}

open Motion in
theorem parse_string {s : Shader} (h : Shader.parse document = .ok s)
    (apart : ∀ b ∈ s.blocks, ρ.Separates b.tags) : Shader.parse (ρ.string document) = .ok (ρ.shader s) := by
  have outline := outline_ofText (place_along_zero ρ document.toList) (follows_along ρ document.toList)
  obtain ⟨noFault, rfl⟩ := Shader.parse_eq_ok_iff.mp h
  rw [Shader.parse_eq_ok_iff, toList_string]
  rw [show ρ.text document.toList = (along ρ document.toList).text document.toList from rfl, outline,
    Motion.outline]
  refine ⟨by rw [noFault]; rfl, ?_⟩
  exact shader_ofEntries (m := along ρ document.toList) apart

open Motion in
theorem parse_string_error {e : ParseError} (h : Shader.parse document = .error e) :
    Shader.parse (ρ.string document) = .error ⟨e.position, ρ.cause e.cause⟩ := by
  have outline := outline_ofText (place_along_zero ρ document.toList) (follows_along ρ document.toList)
  obtain ⟨f, fault, rfl⟩ := Shader.parse_eq_error_iff.mp h
  rw [Shader.parse_eq_error_iff, toList_string]
  rw [show ρ.text document.toList = (along ρ document.toList).text document.toList from rfl, outline,
    Motion.outline]
  refine ⟨(along ρ document.toList).fault f, by rw [fault]; rfl, ?_⟩
  rw [Fault.locate, Motion.fault]
  exact congrArg (ParseError.mk · _) (ofOffset_place ρ document.toList f.offset)

end Respelling
end ShaderText
