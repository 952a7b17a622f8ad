/-! # Finite maps in insertion order

A map is the list of its entries, one for each key, in the order in which the
keys were first inserted. Replacing a value keeps the key where it stands;
removing a key and inserting it again moves it to the end. The order is part of
the value: two maps are equal when they list the same entries in the same
order. -/

namespace RowTyping

universe u v w

/-- A finite map that remembers the order in which its keys came. -/
structure OrderedMap (κ : Type u) (α : Type v) where
  /-- The entries, oldest key first. -/
  entries : List (κ × α)
  /-- No key has two entries. -/
  nodup : (entries.map Prod.fst).Nodup

namespace OrderedMap

variable {κ : Type u} {α : Type v} {β : Type w}

theorem ext {m n : OrderedMap κ α} (h : m.entries = n.entries) : m = n := by
  cases m
  cases n
  simpa using h

instance [DecidableEq κ] [DecidableEq α] : DecidableEq (OrderedMap κ α) := fun m n =>
  decidable_of_iff (m.entries = n.entries) ⟨ext, fun h => h ▸ rfl⟩

/-- The map with no entries. -/
def empty : OrderedMap κ α := ⟨[], .nil⟩

/-- The map with one entry. -/
def singleton (k : κ) (a : α) : OrderedMap κ α := ⟨[(k, a)], by simp⟩

/-- The keys, oldest first. -/
def keys (m : OrderedMap κ α) : List κ := m.entries.map Prod.fst

/-- The values, in the order of their keys. -/
def values (m : OrderedMap κ α) : List α := m.entries.map Prod.snd

/-- The number of entries. -/
def size (m : OrderedMap κ α) : Nat := m.entries.length

/-- Whether the map has no entries. -/
def isEmpty (m : OrderedMap κ α) : Bool := m.entries.isEmpty

/-- Changes every value, and no key. -/
def map (f : α → β) (m : OrderedMap κ α) : OrderedMap κ β where
  entries := m.entries.map fun e => (e.1, f e.2)
  nodup := by simpa [Function.comp_def] using m.nodup

/-- Keeps the entries whose key passes a test. -/
def filterKeys (p : κ → Bool) (m : OrderedMap κ α) : OrderedMap κ α where
  entries := m.entries.filter fun e => p e.1
  nodup := m.nodup.sublist (List.filter_sublist.map Prod.fst)

variable [DecidableEq κ]

/-- The value of a key. -/
def get? (m : OrderedMap κ α) (k : κ) : Option α := m.entries.lookup k

/-- Whether the key has an entry. -/
def contains (m : OrderedMap κ α) (k : κ) : Bool := decide (k ∈ m.keys)

/-- The map without the entry of a key. -/
def erase (m : OrderedMap κ α) (k : κ) : OrderedMap κ α := m.filterKeys fun j => !decide (j = k)

/-- Replaces the value of a key in a list of entries, or adds an entry at its end. -/
def insertEntry (k : κ) (a : α) : List (κ × α) → List (κ × α)
  | [] => [(k, a)]
  | e :: l => if e.1 = k then (k, a) :: l else e :: insertEntry k a l

theorem map_fst_insertEntry (k : κ) (a : α) (l : List (κ × α)) :
    (insertEntry k a l).map Prod.fst =
      if k ∈ l.map Prod.fst then l.map Prod.fst else l.map Prod.fst ++ [k] := by
  induction l with
  | nil => simp [insertEntry]
  | cons e l ih =>
    by_cases h : e.1 = k
    · simp [insertEntry, h]
    · have h' : k ≠ e.1 := fun hk => h hk.symm
      simp only [insertEntry, if_neg h, List.map_cons, ih, List.mem_cons, h', false_or]
      split <;> simp

/-- Gives a key a value. A key that has one already keeps its place. -/
def insert (m : OrderedMap κ α) (k : κ) (a : α) : OrderedMap κ α where
  entries := insertEntry k a m.entries
  nodup := by
    rw [map_fst_insertEntry]
    split
    · exact m.nodup
    · next h => exact List.nodup_append.2 ⟨m.nodup, by simp, fun x hx y hy e => h (by simp_all)⟩

/-- Inserts entries one after the other. -/
def insertAll (m : OrderedMap κ α) (l : List (κ × α)) : OrderedMap κ α :=
  l.foldl (fun m e => m.insert e.1 e.2) m

/-- The map that a list of entries describes: of two values for a key the later one counts,
in the place of the first. -/
def ofList (l : List (κ × α)) : OrderedMap κ α := empty.insertAll l

/-- Gives a key a value and makes it the newest key. -/
def insertLast (m : OrderedMap κ α) (k : κ) (a : α) : OrderedMap κ α := (m.erase k).insert k a

/-! ## Keys and values -/

theorem keys_insert (m : OrderedMap κ α) (k : κ) (a : α) :
    (m.insert k a).keys = if k ∈ m.keys then m.keys else m.keys ++ [k] :=
  map_fst_insertEntry k a m.entries

omit [DecidableEq κ] in
@[simp] theorem keys_map (f : α → β) (m : OrderedMap κ α) : (m.map f).keys = m.keys := by
  simp [keys, map, Function.comp_def]

omit [DecidableEq κ] in
theorem keys_filterKeys (p : κ → Bool) (m : OrderedMap κ α) :
    (m.filterKeys p).keys = m.keys.filter p := by
  simp [keys, filterKeys, List.filter_map, Function.comp_def]

@[simp] theorem get?_empty (k : κ) : (empty : OrderedMap κ α).get? k = none := rfl

theorem lookup_cons (i j : κ) (b : α) (l : List (κ × α)) :
    ((i, b) :: l).lookup j = if j = i then some b else l.lookup j := by
  by_cases h : j = i
  · simp [h]
  · simp [List.lookup_cons, h, beq_false_of_ne h]

theorem get?_singleton (k j : κ) (a : α) :
    (singleton k a).get? j = if j = k then some a else none :=
  lookup_cons k j a []

theorem lookup_insertEntry (k j : κ) (a : α) (l : List (κ × α)) :
    (insertEntry k a l).lookup j = if j = k then some a else l.lookup j := by
  induction l with
  | nil => exact lookup_cons k j a []
  | cons e l ih =>
    obtain ⟨i, b⟩ := e
    by_cases hi : i = k
    · subst hi
      simp only [insertEntry, if_true, lookup_cons]
      split <;> rfl
    · by_cases hj : j = i
      · subst hj
        simp [insertEntry, hi]
      · simp [insertEntry, hi, lookup_cons, hj, ih]

theorem get?_insert (m : OrderedMap κ α) (k j : κ) (a : α) :
    (m.insert k a).get? j = if j = k then some a else m.get? j :=
  lookup_insertEntry k j a m.entries

theorem get?_map (f : α → β) (m : OrderedMap κ α) (k : κ) :
    (m.map f).get? k = (m.get? k).map f := by
  show (m.entries.map _).lookup k = (m.entries.lookup k).map f
  induction m.entries with
  | nil => rfl
  | cons e l ih =>
    rw [List.map_cons, lookup_cons, lookup_cons, ih]
    split <;> rfl

theorem get?_filterKeys (p : κ → Bool) (m : OrderedMap κ α) (k : κ) :
    (m.filterKeys p).get? k = if p k then m.get? k else none := by
  show (m.entries.filter _).lookup k = if p k then m.entries.lookup k else none
  induction m.entries with
  | nil => simp
  | cons e l ih =>
    obtain ⟨i, b⟩ := e
    by_cases hk : k = i
    · subst hk
      by_cases hp : p k <;> simp [hp, ih]
    · by_cases hp : p i <;> simp [hp, hk, lookup_cons, ih]

end OrderedMap

end RowTyping
