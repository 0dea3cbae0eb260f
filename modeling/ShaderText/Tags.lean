/-! The tags of a block: texts under distinct keys, in the order in which the keys came in. Main
statements: an insertion changes the value of its own key and of no other, and keeps the place of a
key that was there; after many insertions the last pair of a key counts, and the new keys stand behind
the old ones; an erasure takes out its own key and keeps the order of the others.
-/
namespace ShaderText

/-- Keys with values, in order; no key occurs twice. -/
structure Tags where
  toList : List (String × String)
  nodup_keys : (toList.map Prod.fst).Nodup
deriving DecidableEq

namespace Tags

def empty : Tags := ⟨[], by simp⟩

instance : Inhabited Tags := ⟨empty⟩

def size (t : Tags) : Nat := t.toList.length

def isEmpty (t : Tags) : Bool := t.toList.isEmpty

def keys (t : Tags) : List String := t.toList.map Prod.fst

def get? (t : Tags) (key : String) : Option String := t.toList.lookup key

/-- Puts `value` under `key` in a list of entries: in its place if the key is there, else at the end. -/
def put (key value : String) : List (String × String) → List (String × String)
  | [] => [(key, value)]
  | (k, v) :: rest => if k = key then (key, value) :: rest else (k, v) :: put key value rest

theorem map_fst_put (key value : String) (entries : List (String × String)) :
    (put key value entries).map Prod.fst =
      if key ∈ entries.map Prod.fst then entries.map Prod.fst else entries.map Prod.fst ++ [key] := by
  fun_induction put key value entries with
  | case1 => simp
  | case2 v rest => simp
  | case3 k v rest other ih =>
    have other' : key ≠ k := Ne.symm other
    by_cases h : key ∈ rest.map Prod.fst <;> simp_all

/-- Puts a value under a key. A key that is already there keeps its place. -/
def insert (t : Tags) (key value : String) : Tags where
  toList := put key value t.toList
  nodup_keys := by
    rw [map_fst_put]
    split
    · exact t.nodup_keys
    · rename_i absent
      exact List.nodup_append.mpr ⟨t.nodup_keys, by simp, by
        intro a ha b hb
        rw [List.mem_singleton.mp hb]
        exact fun equal => absent (equal ▸ ha)⟩

def insertAll (t : Tags) (pairs : List (String × String)) : Tags :=
  pairs.foldl (fun t pair => t.insert pair.1 pair.2) t

def erase (t : Tags) (key : String) : Tags where
  toList := t.toList.filter fun entry => entry.1 != key
  nodup_keys := t.nodup_keys.sublist (List.filter_sublist.map Prod.fst)

/-- Puts a value under a key, and answers the value that it replaces. -/
def exchange (t : Tags) (key value : String) : Option String × Tags := (t.get? key, t.insert key value)

def extract (t : Tags) (key : String) : Option String × Tags := (t.get? key, t.erase key)

def mapValues (f : String → String) (t : Tags) : Tags where
  toList := t.toList.map fun entry => (entry.1, f entry.2)
  nodup_keys := by
    have keys : (t.toList.map fun entry => (entry.1, f entry.2)).map Prod.fst = t.toList.map Prod.fst := by
      simp
    exact keys ▸ t.nodup_keys

@[simp] theorem get?_empty (key : String) : empty.get? key = none := rfl

private theorem lookup_put (key value other : String) (entries : List (String × String)) :
    (put key value entries).lookup other = if other = key then some value else entries.lookup other := by
  fun_induction put key value entries with
  | case1 =>
    by_cases h : other = key
    · simp [h]
    · simp [List.lookup_cons, beq_false_of_ne h, h]
  | case2 v rest =>
    by_cases h : other = key
    · simp [h]
    · simp [List.lookup_cons, beq_false_of_ne h, h]
  | case3 k v rest apart ih =>
    by_cases h : other = k
    · subst h
      simp [apart]
    · simp [List.lookup_cons, beq_false_of_ne h, ih]

theorem get?_insert (t : Tags) (key value other : String) :
    (t.insert key value).get? other = if other = key then some value else t.get? other :=
  lookup_put key value other t.toList

theorem keys_insert (t : Tags) (key value : String) :
    (t.insert key value).keys = if key ∈ t.keys then t.keys else t.keys ++ [key] :=
  map_fst_put key value t.toList

theorem insertAll_cons (t : Tags) (key value : String) (pairs : List (String × String)) :
    t.insertAll ((key, value) :: pairs) = (t.insert key value).insertAll pairs := rfl

theorem get?_insertAll (t : Tags) (pairs : List (String × String)) (other : String) :
    (t.insertAll pairs).get? other = (pairs.reverse.lookup other).or (t.get? other) := by
  induction pairs generalizing t with
  | nil => rfl
  | cons pair pairs ih =>
    obtain ⟨key, value⟩ := pair
    have own : (t.insert key value).get? other = (List.lookup other [(key, value)]).or (t.get? other) := by
      rw [get?_insert, List.lookup_cons, List.lookup_nil]
      by_cases same : other = key
      · simp [same]
      · simp [same, beq_false_of_ne same]
    rw [insertAll_cons, ih, own, List.reverse_cons, List.lookup_append, Option.or_assoc]

/-- The keys that were there keep their places. The others follow in the order of their first pairs. -/
theorem keys_insertAll (t : Tags) (pairs : List (String × String)) :
    (t.insertAll pairs).keys = t.keys ++ ((pairs.map Prod.fst).removeAll t.keys).eraseDups := by
  induction pairs generalizing t with
  | nil => simp [insertAll, List.removeAll]
  | cons pair pairs ih =>
    obtain ⟨key, value⟩ := pair
    rw [insertAll_cons, ih, keys_insert, List.map_cons]
    by_cases present : key ∈ t.keys
    · simp [List.removeAll, present]
    · have later : (pairs.map Prod.fst).removeAll (t.keys ++ [key]) =
          ((pairs.map Prod.fst).removeAll t.keys).filter fun other => !other == key := by
        rw [List.removeAll, List.removeAll, List.filter_filter]
        exact List.filter_congr fun other _ => by by_cases same : other = key <;> simp [same]
      rw [if_neg present, later]
      simp [List.removeAll, present, List.eraseDups_cons]

private theorem lookup_filter_key (key other : String) (entries : List (String × String)) :
    (entries.filter fun entry => entry.1 != key).lookup other =
      if other = key then none else entries.lookup other := by
  induction entries with
  | nil => simp
  | cons entry rest ih =>
    obtain ⟨k, v⟩ := entry
    by_cases here : k = key
    · subst here
      rw [List.filter_cons_of_neg (by simp), ih]
      by_cases h : other = k
      · simp [h]
      · simp [List.lookup_cons, beq_false_of_ne h, h]
    · by_cases h : other = k
      · subst h
        simp [here]
      · simp [here, List.lookup_cons, beq_false_of_ne h, ih]

theorem get?_erase (t : Tags) (key other : String) :
    (t.erase key).get? other = if other = key then none else t.get? other :=
  lookup_filter_key key other t.toList

theorem keys_erase (t : Tags) (key : String) : (t.erase key).keys = t.keys.filter (· != key) := by
  simp [keys, erase, List.filter_map, Function.comp_def]

@[simp] theorem keys_mapValues (f : String → String) (t : Tags) : (t.mapValues f).keys = t.keys := by
  simp [keys, mapValues]

end Tags
end ShaderText
