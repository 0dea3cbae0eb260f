import Mathlib.Data.List.Induction
import ShaderText.Shader.Edit
import ShaderText.Shader.Parse

/-! Tags and the calls that made them. Tags are kept in slots: an insertion fills the first slot of its key or a new
one at the end, a removal takes the first slot of its key out. Main statement: after any calls no key has two slots,
the value of a key is what its last call inserted, a call answers the value that was there, and the keys stand in the
order in which they last came in.
-/
namespace ShaderText

namespace Slots

def get? (slots : List (String × String)) (key : String) : Option String :=
  (slots.find? (·.1 == key)).map Prod.snd

/-- Fills the first slot of a key, or a new one, and answers the value that is replaced. -/
def insert (slots : List (String × String)) (key value : String) : Option String × List (String × String) :=
  match slots.findIdx? (·.1 == key) with
  | some i => (slots[i]?.map Prod.snd, slots.modify i fun slot => (slot.1, value))
  | none => (none, slots ++ [(key, value)])

/-- Takes the first slot of a key out, and answers its value. -/
def remove (slots : List (String × String)) (key : String) : Option String × List (String × String) :=
  match slots.findIdx? (·.1 == key) with
  | some i => (slots[i]?.map Prod.snd, slots.eraseIdx i)
  | none => (none, slots)

variable {slot : String × String} {key : String}

theorem insert_cons (other : slot.1 ≠ key) (slots : List (String × String)) (value : String) :
    insert (slot :: slots) key value = ((insert slots key value).1, slot :: (insert slots key value).2) := by
  rw [insert, insert, List.findIdx?_cons, beq_false_of_ne other]
  cases slots.findIdx? (·.1 == key) <;> simp

theorem remove_cons (other : slot.1 ≠ key) (slots : List (String × String)) :
    remove (slot :: slots) key = ((remove slots key).1, slot :: (remove slots key).2) := by
  rw [remove, remove, List.findIdx?_cons, beq_false_of_ne other]
  cases slots.findIdx? (·.1 == key) <;> simp

end Slots

namespace Tags

inductive Call
  | insert (key value : String)
  | remove (key : String)
deriving Repr, DecidableEq

namespace Call

def key : Call → String
  | .insert key _ => key
  | .remove key => key

def run (call : Call) (slots : List (String × String)) : Option String × List (String × String) :=
  match call with
  | .insert key value => Slots.insert slots key value
  | .remove key => Slots.remove slots key

def take (call : Call) (t : Tags) : Option String × Tags :=
  match call with
  | .insert key value => t.exchange key value
  | .remove key => t.extract key

end Call

/-- The slots after calls on empty tags. -/
def slotsAfter (calls : List Call) : List (String × String) := calls.foldl (fun slots call => (call.run slots).2) []

def after (calls : List Call) : Tags := calls.foldl (fun t call => (call.take t).2) .empty

theorem get?_slots (t : Tags) (key : String) : Slots.get? t.toList key = t.get? key := by
  rw [Slots.get?, Tags.get?]
  induction t.toList with
  | nil => rfl
  | cons slot slots ih =>
    by_cases here : slot.1 = key
    · obtain ⟨k, v⟩ := slot
      obtain rfl : k = key := here
      simp
    · rw [List.find?_cons_of_neg (by simpa using here), ih, List.lookup_cons, beq_false_of_ne (Ne.symm here)]

theorem insert_slots (key value : String) (slots : List (String × String)) :
    Slots.insert slots key value = (slots.lookup key, put key value slots) := by
  induction slots with
  | nil => rfl
  | cons slot slots ih =>
    by_cases here : slot.1 = key
    · obtain ⟨k, v⟩ := slot
      obtain rfl : k = key := here
      simp [Slots.insert, List.findIdx?_cons, put]
    · rw [Slots.insert_cons here, ih, List.lookup_cons, beq_false_of_ne (Ne.symm here), put, if_neg here]

theorem remove_slots (key : String) {slots : List (String × String)} (distinct : (slots.map Prod.fst).Nodup) :
    Slots.remove slots key = (slots.lookup key, slots.filter fun slot => slot.1 != key) := by
  induction slots with
  | nil => rfl
  | cons slot slots ih =>
    obtain ⟨absent, distinct⟩ := List.nodup_cons.mp distinct
    by_cases here : slot.1 = key
    · obtain ⟨k, v⟩ := slot
      obtain rfl : k = key := here
      have others : slots.filter (fun slot => slot.1 != k) = slots := by
        rw [List.filter_eq_self]
        intro slot member
        rw [bne_iff_ne]
        rintro rfl
        exact absent (List.mem_map.mpr ⟨slot, member, rfl⟩)
      simp [Slots.remove, List.findIdx?_cons, others]
    · rw [Slots.remove_cons here, ih distinct, List.lookup_cons, beq_false_of_ne (Ne.symm here),
        List.filter_cons_of_pos (by simpa using here)]

theorem Call.run_toList (call : Call) (t : Tags) :
    call.run t.toList = ((call.take t).1, (call.take t).2.toList) := by
  cases call with
  | insert key value => exact insert_slots key value t.toList
  | remove key => exact remove_slots key t.nodup_keys

theorem after_concat (calls : List Call) (call : Call) : after (calls ++ [call]) = (call.take (after calls)).2 := by
  rw [after, List.foldl_append]
  rfl

theorem slotsAfter_eq (calls : List Call) : slotsAfter calls = (after calls).toList := by
  induction calls using List.reverseRecOn with
  | nil => rfl
  | append_singleton calls call ih =>
    have last : slotsAfter (calls ++ [call]) = (call.run (slotsAfter calls)).2 := by
      rw [slotsAfter, List.foldl_append]
      rfl
    rw [last, ih, Call.run_toList, after_concat]

/-- Whether the last call for a key inserts the value. -/
def LastInserts (calls : List Call) (key value : String) : Prop :=
  ∃ before later, calls = before ++ .insert key value :: later ∧ ∀ call ∈ later, call.key ≠ key

/-- Whether the last call for a key inserts a value. -/
def IsPresent (calls : List Call) (key : String) : Prop := ∃ value, LastInserts calls key value

/-- Whether the call of an index inserts a key that is not there. -/
def ArrivesAt (calls : List Call) (key : String) (i : Nat) : Prop :=
  (∃ value, calls[i]? = some (.insert key value)) ∧ ¬ IsPresent (calls.take i) key

/-- Whether a key came in last with the call of an index. -/
def LastArrivesAt (calls : List Call) (key : String) (i : Nat) : Prop :=
  ArrivesAt calls key i ∧ ∀ j, ArrivesAt calls key j → j ≤ i

/-- Whether a key last came in before another. -/
def ComesBefore (calls : List Call) (key other : String) : Prop :=
  ∃ i j, LastArrivesAt calls key i ∧ LastArrivesAt calls other j ∧ i < j

section Calls

variable {calls : List Call} {call : Call} {key value : String} {i : Nat}

theorem lastInserts_concat :
    LastInserts (calls ++ [call]) key value ↔
      call = .insert key value ∨ call.key ≠ key ∧ LastInserts calls key value := by
  constructor
  · rintro ⟨before, later, split, none⟩
    rcases List.eq_nil_or_concat later with rfl | ⟨front, last, rfl⟩
    · exact .inl (List.append_singleton_inj.mp split).2
    · rw [List.concat_eq_append, ← List.cons_append, ← List.append_assoc] at split
      obtain ⟨begins, rfl⟩ := List.append_singleton_inj.mp split
      refine .inr ⟨none call (by simp), before, front, begins, fun other member => none other (by simp [member])⟩
  · rintro (rfl | ⟨other, before, later, rfl, none⟩)
    · exact ⟨calls, [], rfl, by simp⟩
    · refine ⟨before, later ++ [call], by simp, ?_⟩
      rw [List.forall_mem_append]
      exact ⟨none, by simpa using other⟩

theorem ArrivesAt.lt (h : ArrivesAt calls key i) : i < calls.length := by
  obtain ⟨⟨value, found⟩, -⟩ := h
  exact (List.getElem?_eq_some_iff.mp found).1

theorem arrivesAt_concat : ArrivesAt (calls ++ [call]) key i ↔
    ArrivesAt calls key i ∨ i = calls.length ∧ (∃ value, call = .insert key value) ∧ ¬ IsPresent calls key := by
  rcases Nat.lt_trichotomy i calls.length with inside | rfl | beyond
  · rw [ArrivesAt, List.getElem?_append_left inside, List.take_append_of_le_length (Nat.le_of_lt inside)]
    exact (or_iff_left fun last => absurd last.1 (Nat.ne_of_lt inside)).symm
  · rw [ArrivesAt, List.getElem?_concat_length, List.take_left]
    have inside : ¬ ArrivesAt calls key calls.length := fun arrives => Nat.lt_irrefl _ arrives.lt
    simp [inside]
  · have inside : ¬ ArrivesAt calls key i := fun arrives => Nat.lt_asymm beyond arrives.lt
    have outside : ¬ ArrivesAt (calls ++ [call]) key i := fun arrives => by
      have bound := arrives.lt
      rw [List.length_append, List.length_singleton] at bound
      omega
    have apart : i ≠ calls.length := Nat.ne_of_gt beyond
    simp [inside, outside, apart]

/-- A key that is there does not come in, and one that is not called for neither. -/
theorem LastArrivesAt.concat (h : LastArrivesAt calls key i) (stays : call.key ≠ key ∨ IsPresent calls key) :
    LastArrivesAt (calls ++ [call]) key i := by
  refine ⟨arrivesAt_concat.mpr (.inl h.1), fun j arrives => ?_⟩
  rcases arrivesAt_concat.mp arrives with before | ⟨-, ⟨value, rfl⟩, absent⟩
  · exact h.2 j before
  · exact absurd rfl (stays.resolve_right absent)

theorem lastArrivesAt_length (absent : ¬ IsPresent calls key) (value : String) :
    LastArrivesAt (calls ++ [.insert key value]) key calls.length := by
  refine ⟨arrivesAt_concat.mpr (.inr ⟨rfl, ⟨value, rfl⟩, absent⟩), fun j arrives => ?_⟩
  have bound := arrives.lt
  rw [List.length_append, List.length_singleton] at bound
  omega

end Calls

/-- Slots as calls leave them: one for each key that is there, with the value that the last call for the key inserts,
and in the order in which the keys last came in. -/
structure Records (calls : List Call) (slots : List (String × String)) : Prop where
  distinct : (slots.map Prod.fst).Nodup
  held : ∀ key value, Slots.get? slots key = some value ↔ LastInserts calls key value
  listed : ∀ key, key ∈ slots.map Prod.fst ↔ IsPresent calls key
  arrived : ∀ key ∈ slots.map Prod.fst, ∃ i, LastArrivesAt calls key i
  ordered : (slots.map Prod.fst).Pairwise (ComesBefore calls)

theorem mem_keys_iff (t : Tags) (key : String) : key ∈ t.keys ↔ ∃ value, t.get? key = some value := by
  rw [keys, Tags.get?]
  induction t.toList with
  | nil => simp
  | cons slot slots ih =>
    rw [List.map_cons, List.mem_cons, ih, List.lookup_cons]
    by_cases here : key = slot.1
    · simp [here]
    · simp [here, beq_false_of_ne here]

theorem get?_take (call : Call) (t : Tags) (key value : String) : (call.take t).2.get? key = some value ↔
    call = .insert key value ∨ call.key ≠ key ∧ t.get? key = some value := by
  cases call with
  | insert other held =>
    rw [Call.take, exchange, get?_insert]
    by_cases same : key = other
    · subst same
      simp [Call.key]
    · simp [same, Ne.symm same, Call.key]
  | remove other =>
    rw [Call.take, extract, get?_erase]
    by_cases same : key = other
    · simp [same, Call.key]
    · simp [same, Ne.symm same, Call.key]

section Step

variable {calls : List Call} {t : Tags}

theorem ComesBefore.concat {call : Call} {key other : String} (h : ComesBefore calls key other)
    (stays : call.key ≠ key ∨ IsPresent calls key) (stays' : call.key ≠ other ∨ IsPresent calls other) :
    ComesBefore (calls ++ [call]) key other := by
  obtain ⟨i, j, first, second, before⟩ := h
  exact ⟨i, j, first.concat stays, second.concat stays', before⟩

theorem Records.keys_concat (h : Records calls t.toList) {kept : List String} (sublist : kept.Sublist t.keys)
    (call : Call) : (∀ key ∈ kept, ∃ i, i < calls.length ∧ LastArrivesAt (calls ++ [call]) key i) ∧
      kept.Pairwise (ComesBefore (calls ++ [call])) := by
  have present (key : String) (member : key ∈ kept) : IsPresent calls key := (h.listed key).mp (sublist.subset member)
  constructor
  · intro key member
    obtain ⟨i, arrives⟩ := h.arrived key (sublist.subset member)
    exact ⟨i, arrives.1.lt, arrives.concat (.inr (present key member))⟩
  · refine (h.ordered.sublist sublist).imp_of_mem fun member member' before => ?_
    exact before.concat (.inr (present _ member)) (.inr (present _ member'))

theorem Records.take (h : Records calls t.toList) (call : Call) :
    Records (calls ++ [call]) (call.take t).2.toList := by
  have held (key value : String) :
      Slots.get? (call.take t).2.toList key = some value ↔ LastInserts (calls ++ [call]) key value := by
    rw [get?_slots, get?_take, lastInserts_concat, ← h.held, get?_slots]
  have listed (key : String) : key ∈ (call.take t).2.keys ↔ IsPresent (calls ++ [call]) key := by
    rw [mem_keys_iff]
    exact exists_congr fun value => by rw [← get?_slots, held]
  suffices placed : (∀ key ∈ (call.take t).2.keys, ∃ i, LastArrivesAt (calls ++ [call]) key i) ∧
      (call.take t).2.keys.Pairwise (ComesBefore (calls ++ [call])) from
    ⟨(call.take t).2.nodup_keys, held, listed, placed.1, placed.2⟩
  have stays {kept : List String} (sublist : kept.Sublist t.keys) :
      (∀ key ∈ kept, ∃ i, LastArrivesAt (calls ++ [call]) key i) ∧ kept.Pairwise (ComesBefore (calls ++ [call])) := by
    obtain ⟨arrived, ordered⟩ := h.keys_concat sublist call
    exact ⟨fun key member => (arrived key member).imp fun i arrives => arrives.2, ordered⟩
  cases call with
  | remove key =>
    refine stays ?_
    rw [Call.take, extract, keys_erase]
    exact List.filter_sublist
  | insert key value =>
    rw [Call.take, exchange, keys_insert]
    by_cases there : key ∈ t.keys
    · rw [if_pos there]
      exact stays (List.Sublist.refl _)
    · -- the new key comes in with the last call, behind all others
      rw [if_neg there]
      have new := lastArrivesAt_length (mt (h.listed key).mpr there) value
      obtain ⟨arrived, ordered⟩ := h.keys_concat (List.Sublist.refl t.keys) (.insert key value)
      rw [List.forall_mem_append, List.pairwise_append]
      refine ⟨⟨fun other member => (arrived other member).imp fun i arrives => arrives.2, ?_⟩, ordered, ?_, ?_⟩
      · exact List.forall_mem_singleton.mpr ⟨_, new⟩
      · exact List.pairwise_singleton _ _
      · intro other member last isLast
        obtain ⟨i, inside, arrives⟩ := arrived other member
        rw [List.mem_singleton.mp isLast]
        exact ⟨i, calls.length, arrives, new, inside⟩

end Step

theorem records_after (calls : List Call) : Records calls (after calls).toList := by
  induction calls using List.reverseRecOn with
  | nil =>
    have none (key value : String) : ¬ LastInserts [] key value := by
      rintro ⟨before, later, split, -⟩
      simp at split
    have absent (key : String) : ¬ IsPresent [] key := fun ⟨value, last⟩ => none key value last
    exact ⟨by simp [after, empty], by simp [after, empty, Slots.get?, none], by simp [after, empty, absent],
      by simp [after, empty], by simp [after, empty]⟩
  | append_singleton calls call ih =>
    rw [after_concat]
    exact ih.take call

theorem after_append (calls : List Call) (pairs : List (String × String)) :
    after (calls ++ pairs.map fun pair => .insert pair.1 pair.2) = (after calls).insertAll pairs := by
  rw [after, List.foldl_append, List.foldl_map]
  rfl

theorem keys_move (t : Tags) (key value : String) :
    ((t.erase key).insert key value).keys = t.keys.filter (· != key) ++ [key] := by
  have absent : key ∉ (t.erase key).keys := by
    rw [keys_erase]
    simp
  rw [keys_insert, if_neg absent, keys_erase]

/-- Tags are an ordered map with distinct keys. After any calls on empty tags the slots are the entries of the tags:
one for each key that is there, under the value that its last call inserts, in the order in which the keys last came
in. A call answers the value that was there. An insertion under a key that is there leaves the keys as they are; a key
that is removed and inserted goes to the end. What is read of a block and what is added to it are such insertions. -/
theorem slotsAfter_records (calls : List Call) :
    let slots := slotsAfter calls
    slots = (after calls).toList ∧ (∀ key, Slots.get? slots key = (after calls).get? key) ∧ Records calls slots ∧
      (∀ call : Call, (call.run slots).1 = Slots.get? slots call.key) ∧
      (∀ key value, key ∈ slots.map Prod.fst →
        (slotsAfter (calls ++ [.insert key value])).map Prod.fst = slots.map Prod.fst) ∧
      (∀ key value, (slotsAfter (calls ++ [.remove key, .insert key value])).map Prod.fst =
        (slots.map Prod.fst).filter (· != key) ++ [key]) ∧
      (∀ b : Block, b.tags = after calls →
        (∀ pairs fault?, (b.add (.tags pairs fault?)).tags =
          after (calls ++ pairs.map fun pair => .insert pair.1 pair.2)) ∧
        ∀ key value, (b.addTag key value).tags = after (calls ++ [.insert key value])) := by
  intro slots
  have same : slots = (after calls).toList := slotsAfter_eq calls
  rw [same]
  refine ⟨rfl, get?_slots (after calls), records_after calls, ?_, ?_, ?_, ?_⟩
  · intro call
    rw [Call.run_toList, get?_slots]
    cases call <;> rfl
  · intro key value there
    have there : key ∈ (after calls).keys := there
    rw [slotsAfter_eq, after_concat]
    exact (keys_insert (after calls) key value).trans (if_pos there)
  · intro key value
    have split : calls ++ [.remove key, .insert key value] = calls ++ [.remove key] ++ [.insert key value] := by simp
    rw [slotsAfter_eq, split, after_concat, after_concat]
    exact keys_move (after calls) key value
  · intro b held
    refine ⟨fun pairs fault? => ?_, fun key value => ?_⟩
    · rw [after_append, ← held]
      rfl
    · rw [after_concat, ← held]
      rfl

theorem slotsAfter_records_queue :
    let calls : List Call :=
      [.insert "Queue" "a", .insert "λ" "b", .insert "Queue" "c", .remove "λ", .insert "" "", .insert "λ" "d"]
    slotsAfter calls = [("Queue", "c"), ("", ""), ("λ", "d")] ∧ Records calls (slotsAfter calls) ∧
      "Queue" ∈ (slotsAfter calls).map Prod.fst ∧
      (slotsAfter (calls ++ [.insert "Queue" "e"])).map Prod.fst = ["Queue", "", "λ"] ∧
      (slotsAfter (calls ++ [.remove "Queue", .insert "Queue" "e"])).map Prod.fst = ["", "λ", "Queue"] ∧
      ({ Block.empty with tags := after calls }.addTag "x" "y").tags = after (calls ++ [.insert "x" "y"]) := by
  intro calls
  have whole : slotsAfter calls = [("Queue", "c"), ("", ""), ("λ", "d")] := by decide +kernel
  have there : "Queue" ∈ (slotsAfter calls).map Prod.fst := by
    rw [whole]
    decide +kernel
  obtain ⟨-, -, records, -, stays, moves, blocks⟩ := slotsAfter_records calls
  refine ⟨whole, records, there, ?_, ?_, (blocks { Block.empty with tags := after calls } rfl).2 "x" "y"⟩
  · rw [stays "Queue" "e" there, whole]
    rfl
  · rw [moves "Queue" "e", whole]
    decide +kernel

end Tags

end ShaderText
