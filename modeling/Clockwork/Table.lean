import Clockwork.Distinct

namespace Clockwork

def entryOf? {κ α : Type} [DecidableEq κ] (k : κ) : List (κ × α) → Option α
  | [] => none
  | (j, v) :: rest => if j = k then some v else entryOf? k rest

/-- Replaces the value of a key where it stands, or adds the key at the end. -/
def putEntry {κ α : Type} [DecidableEq κ] (k : κ) (v : α) : List (κ × α) → List (κ × α)
  | [] => [(k, v)]
  | (j, w) :: rest => if j = k then (k, v) :: rest else (j, w) :: putEntry k v rest

theorem keys_putEntry {κ α : Type} [DecidableEq κ] (k : κ) (v : α) (entries : List (κ × α)) :
    (putEntry k v entries).map Prod.fst = addNew (entries.map Prod.fst) k := by
  induction entries with
  | nil => simp [putEntry, addNew]
  | cons entry rest ih =>
    obtain ⟨j, w⟩ := entry
    by_cases h : j = k
    · simp [putEntry, addNew, h]
    · have h' : ¬ k = j := fun e => h e.symm
      simp only [putEntry, h, if_false, List.map_cons, ih, addNew, List.mem_cons, h', false_or]
      split <;> simp

theorem entryOf?_putEntry {κ α : Type} [DecidableEq κ] (k j : κ) (v : α)
    (entries : List (κ × α)) :
    entryOf? j (putEntry k v entries) = if j = k then some v else entryOf? j entries := by
  induction entries with
  | nil => simp [putEntry, entryOf?, eq_comm]
  | cons entry rest ih =>
    obtain ⟨i, w⟩ := entry
    by_cases h : i = k <;> by_cases hj : j = k <;> simp [putEntry, entryOf?, h, hj, ih] <;> grind

theorem isSome_entryOf? {κ α : Type} [DecidableEq κ] (k : κ) (entries : List (κ × α)) :
    (entryOf? k entries).isSome ↔ k ∈ entries.map Prod.fst := by
  induction entries with
  | nil => simp [entryOf?]
  | cons entry rest ih =>
    by_cases h : entry.1 = k
    · simp [entryOf?, h]
    · have h' : ¬ k = entry.1 := fun e => h e.symm
      simp [entryOf?, h, h', ih]

/-- A finite map that lists its keys in the order in which they were first inserted. -/
structure Table (κ α : Type) where
  entries : List (κ × α)
  nodup_keys : (entries.map Prod.fst).Nodup
deriving DecidableEq, Repr

namespace Table

variable {κ α : Type}

def empty : Table κ α := ⟨[], by simp⟩

def keys (t : Table κ α) : List κ := t.entries.map Prod.fst

variable [DecidableEq κ]

def get? (t : Table κ α) (k : κ) : Option α := entryOf? k t.entries

def contains (t : Table κ α) (k : κ) : Bool := (t.get? k).isSome

/-- A key that is present keeps its place and takes the new value. -/
def insert (t : Table κ α) (k : κ) (v : α) : Table κ α where
  entries := putEntry k v t.entries
  nodup_keys := keys_putEntry k v t.entries ▸ nodup_addNew t.nodup_keys

/-- A key that is present keeps its value. -/
def insertIfNew (t : Table κ α) (k : κ) (v : α) : Table κ α :=
  if t.contains k then t else t.insert k v

def insertAll (t : Table κ α) (entries : List (κ × α)) : Table κ α :=
  entries.foldl (fun t (k, v) => t.insert k v) t

/-- The last entry of a key wins, at the place of the first one. -/
def ofList (entries : List (κ × α)) : Table κ α := empty.insertAll entries

def filterValues (p : α → Bool) (t : Table κ α) : Table κ α where
  entries := t.entries.filter fun entry => p entry.2
  nodup_keys := t.nodup_keys.sublist (List.filter_sublist.map _)

theorem contains_iff (t : Table κ α) (k : κ) : t.contains k ↔ k ∈ t.keys :=
  isSome_entryOf? k t.entries

theorem get?_insert (t : Table κ α) (k j : κ) (v : α) :
    (t.insert k v).get? j = if j = k then some v else t.get? j :=
  entryOf?_putEntry k j v t.entries

theorem keys_insert (t : Table κ α) (k : κ) (v : α) : (t.insert k v).keys = addNew t.keys k :=
  keys_putEntry k v t.entries

end Table

end Clockwork
