/-
# Tables

A table gives every name at most one value and keeps the order in which the names
came.  A name that comes again keeps its place and takes the new value.
-/

import ThemeSheet.Text.Basic

namespace ThemeSheet

/-- Changes the value beside a key, or adds the pair at the end. -/
def putPair {β : Type} (key : Text) (value : β) : List (Text × β) → List (Text × β)
  | [] => [(key, value)]
  | (k, v) :: entries => if k = key then (k, value) :: entries else (k, v) :: putPair key value entries

/-- A key that is put in is there, and the others stay. -/
theorem mem_keys_putPair {β : Type} {key k : Text} {value : β} {entries : List (Text × β)} :
    k ∈ (putPair key value entries).map Prod.fst ↔ k = key ∨ k ∈ entries.map Prod.fst := by
  induction entries with
  | nil => simp [putPair]
  | cons e entries ih =>
    obtain ⟨k', v⟩ := e
    by_cases h : k' = key
    · simp_all [putPair]
    · simp_all [putPair]; grind

/-- Putting an entry in repeats no key. -/
theorem nodup_putPair {β : Type} {key : Text} {value : β} {entries : List (Text × β)}
    (h : (entries.map Prod.fst).Nodup) : ((putPair key value entries).map Prod.fst).Nodup := by
  induction entries with
  | nil => simp [putPair]
  | cons e entries ih =>
    obtain ⟨k, v⟩ := e
    have hk := List.nodup_cons.1 h
    by_cases hc : k = key
    · simpa [putPair, hc] using h
    · have : k ∉ (putPair key value entries).map Prod.fst := by
        rw [mem_keys_putPair]; exact fun hm => hm.elim hc hk.1
      simpa [putPair, hc] using List.nodup_cons.2 ⟨this, ih hk.2⟩

/-- Names and their values, in the order in which the names came. -/
structure Table (β : Type) where
  entries : List (Text × β)
  /-- No name has two values. -/
  nodup : (entries.map Prod.fst).Nodup

namespace Table

variable {β : Type}

/-- No names. -/
def empty : Table β := ⟨[], by simp⟩

/-- Gives a name its value. -/
def insert (t : Table β) (key : Text) (value : β) : Table β :=
  ⟨putPair key value t.entries, nodup_putPair t.nodup⟩

/-- The table of pairs that come one after another. -/
def ofList (pairs : List (Text × β)) : Table β := pairs.foldl (fun t p => t.insert p.1 p.2) empty

/-- The value of a name. -/
def get? (t : Table β) (key : Text) : Option β := t.entries.lookup key

/-- Does the name have a value? -/
def contains (t : Table β) (key : Text) : Bool := (t.get? key).isSome

/-- The names. -/
def keys (t : Table β) : List Text := t.entries.map Prod.fst

/-- The values, in the order of the names. -/
def values (t : Table β) : List β := t.entries.map Prod.snd

/-- The table with the pairs of another one put into it. -/
def merge (t u : Table β) : Table β := u.entries.foldl (fun t p => t.insert p.1 p.2) t

/-- Gives a name a value unless it has one. -/
def insertNew (t : Table β) (key : Text) (value : β) : Table β :=
  if t.contains key then t else t.insert key value

/-- A key is looked up at the first entry, or behind it. -/
theorem lookup_cons_pair {k key : Text} {value : β} {entries : List (Text × β)} :
    List.lookup k ((key, value) :: entries) = if k = key then some value else entries.lookup k := by
  by_cases h : k = key
  · simp [h]
  · simp [List.lookup_cons, beq_eq_false_iff_ne.2 h, h]

/-- The key that was put in has the new value, the others what they had. -/
theorem lookup_putPair {key k : Text} {value : β} {entries : List (Text × β)} :
    (putPair key value entries).lookup k = if k = key then some value else entries.lookup k := by
  induction entries with
  | nil => simp [putPair, lookup_cons_pair]
  | cons e entries ih =>
    obtain ⟨k', v⟩ := e
    simp only [putPair]
    split <;> simp only [lookup_cons_pair, ih] <;> grind

/-- **A name that was put in has its new value, and the others keep theirs.** -/
theorem get?_insert (t : Table β) (key k : Text) (value : β) :
    (t.insert key value).get? k = if k = key then some value else t.get? k := lookup_putPair

end Table
end ThemeSheet
