/-
# What a table of pairs holds

A table made from pairs that come one after another gives every name the value of
its last pair.  Where the last pairs have different names, and every name is among
theirs, the table holds these pairs and nothing else.
-/

import Mathlib.Data.List.Nodup
import Mathlib.Data.List.Perm.Basic
import ThemeSheet.Table

namespace ThemeSheet
namespace Table

variable {β : Type}

/-- An entry of a table with a pair put in is the pair or an entry of before. -/
theorem mem_putPair {key : Text} {value : β} {e : Text × β} {entries : List (Text × β)}
    (h : e ∈ putPair key value entries) : e = (key, value) ∨ e ∈ entries := by
  induction entries with
  | nil => exact .inl (by simpa [putPair] using h)
  | cons p entries ih =>
    obtain ⟨k, v⟩ := p
    by_cases hk : k = key
    · simp only [putPair, hk, if_true, List.mem_cons] at h
      exact h.imp id fun hm => List.mem_cons_of_mem _ hm
    · simp only [putPair, hk, if_false, List.mem_cons] at h
      rcases h with rfl | h
      · exact .inr (List.mem_cons_self ..)
      · exact (ih h).imp id fun hm => List.mem_cons_of_mem _ hm

/-- A pair with a new key comes last. -/
theorem putPair_of_notMem {key : Text} {value : β} {entries : List (Text × β)}
    (h : key ∉ entries.map Prod.fst) : putPair key value entries = entries ++ [(key, value)] := by
  induction entries with
  | nil => rfl
  | cons p entries ih =>
    obtain ⟨k, v⟩ := p
    simp only [List.map_cons, List.mem_cons, not_or] at h
    rw [putPair, if_neg (Ne.symm h.1), ih h.2]
    rfl

/-- Putting in a pair keeps the keys in their order, and a new one comes last. -/
theorem map_fst_putPair (key : Text) (value : β) (entries : List (Text × β)) :
    (putPair key value entries).map Prod.fst =
      if key ∈ entries.map Prod.fst then entries.map Prod.fst else entries.map Prod.fst ++ [key] := by
  split
  · next h =>
    induction entries with
    | nil => simp at h
    | cons p entries ih =>
      obtain ⟨k, v⟩ := p
      rw [putPair]
      split
      · rfl
      · next hk =>
        rw [List.map_cons, List.mem_cons] at h
        rw [List.map_cons, ih (h.resolve_left fun he => hk he.symm)]
        rfl
  · next h => rw [putPair_of_notMem h, List.map_append]; rfl

/-- **A name that was put in keeps its place** among the names, or is the last of them. -/
theorem keys_insert (t : Table β) (key : Text) (value : β) :
    (t.insert key value).keys = if key ∈ t.keys then t.keys else t.keys ++ [key] :=
  map_fst_putPair key value t.entries

/-- Putting pairs into a table one after another. -/
theorem mem_foldl_insert {pairs : List (Text × β)} {t : Table β} {e : Text × β}
    (h : e ∈ (pairs.foldl (fun t p => t.insert p.1 p.2) t).entries) : e ∈ t.entries ∨ e ∈ pairs := by
  induction pairs generalizing t with
  | nil => exact .inl h
  | cons p pairs ih =>
    rcases ih h with h | h
    · exact (mem_putPair h).elim (fun he => .inr (he ▸ List.mem_cons_self ..)) .inl
    · exact .inr (List.mem_cons_of_mem _ h)

/-- An entry of a table is a pair that it was made of. -/
theorem mem_of_mem_ofList {pairs : List (Text × β)} {e : Text × β} (h : e ∈ (ofList pairs).entries) :
    e ∈ pairs :=
  (mem_foldl_insert h).elim (fun hn => absurd hn List.not_mem_nil) id

/-- Where keys are different, an entry is what is found under its key. -/
theorem mem_iff_lookup {entries : List (Text × β)} (h : (entries.map Prod.fst).Nodup) {k : Text}
    {v : β} : (k, v) ∈ entries ↔ entries.lookup k = some v := by
  induction entries with
  | nil => simp
  | cons p entries ih =>
    obtain ⟨key, value⟩ := p
    obtain ⟨hn, hd⟩ := List.nodup_cons.1 h
    rw [lookup_cons_pair, List.mem_cons, ih hd]
    by_cases hk : k = key
    · subst hk
      have hnone : entries.lookup k ≠ some v := fun hl =>
        hn (List.mem_map.2 ⟨(k, v), (ih hd).2 hl, rfl⟩)
      simp [hnone, eq_comm]
    · simp [hk]

/-- An entry of a table is what is found under its key. -/
theorem mem_entries_iff (t : Table β) {k : Text} {v : β} : (k, v) ∈ t.entries ↔ t.get? k = some v :=
  mem_iff_lookup t.nodup

/-- A table holds a key exactly if the key is among its keys. -/
theorem contains_iff (t : Table β) {k : Text} : t.contains k = true ↔ k ∈ t.keys := by
  rw [contains, Option.isSome_iff_exists, keys, List.mem_map]
  constructor
  · rintro ⟨v, hv⟩
    exact ⟨(k, v), (t.mem_entries_iff).2 hv, rfl⟩
  · rintro ⟨⟨k', v⟩, he, rfl⟩
    exact ⟨v, (t.mem_entries_iff).1 he⟩

/-- **A name that has a value keeps it** when another one comes. -/
theorem get?_insertNew (t : Table β) (key k : Text) (value : β) :
    (t.insertNew key value).get? k = (t.get? k).or (if k = key then some value else none) := by
  rw [insertNew, contains]
  by_cases hk : k = key
  · subst hk
    cases h : t.get? k with
    | none => simp [get?_insert]
    | some v => simp [h]
  · rw [if_neg hk, Option.or_none]
    split
    · rfl
    · rw [get?_insert, if_neg hk]

/-- Puts a value in that may name its own key. -/
def insertNamed (key? : β → Option Text) (t : Table β) (value : β) : Table β :=
  match key? value with
  | some key => t.insertNew key value
  | none => t

/-- **Where values name their own keys and a name keeps its first value,** it has the first one that
names it. -/
theorem get?_foldl_insertNamed (key? : β → Option Text) (values : List β) (t : Table β) (k : Text) :
    (values.foldl (insertNamed key?) t).get? k =
      (t.get? k).or (values.find? fun v => key? v == some k) := by
  induction values generalizing t with
  | nil => simp
  | cons v values ih =>
    rw [List.foldl_cons, ih, List.find?_cons, insertNamed]
    cases key? v with
    | none => rfl
    | some key =>
      rw [get?_insertNew, Option.or_assoc]
      by_cases hk : k = key
      · simp [hk]
      · have hfalse : (some key == some k) = false := by simp [Ne.symm hk]
        rw [if_neg hk, Option.none_or, hfalse]

/-- Under a key stands the last value that was put in, or that of before. -/
theorem get?_foldl_insert (pairs : List (Text × β)) (t : Table β) (k : Text) :
    (pairs.foldl (fun t p => t.insert p.1 p.2) t).get? k = (pairs.reverse.lookup k).or (t.get? k) := by
  induction pairs generalizing t with
  | nil => simp
  | cons p pairs ih =>
    rw [List.foldl_cons, ih, List.reverse_cons, List.lookup_append, get?_insert, lookup_cons_pair,
      Option.or_assoc]
    split <;> simp

/-- **The last pair of a name gives its value.** -/
theorem get?_ofList (pairs : List (Text × β)) (k : Text) :
    (ofList pairs).get? k = pairs.reverse.lookup k := by
  rw [ofList, get?_foldl_insert]
  simp [get?, empty]

/-- A pair among the last ones, which have different names, gives its value. -/
theorem get?_ofList_append {before last : List (Text × β)} (hd : (last.map Prod.fst).Nodup)
    {k : Text} {v : β} (h : (k, v) ∈ last) : (ofList (before ++ last)).get? k = some v := by
  have hrev : (last.reverse.map Prod.fst).Nodup := by rwa [List.map_reverse, List.nodup_reverse]
  rw [get?_ofList, List.reverse_append, List.lookup_append,
    (mem_iff_lookup hrev).1 (List.mem_reverse.2 h), Option.some_or]

/-- **Where the last pairs have different names and all names are among theirs, the table holds
these pairs and nothing else.** -/
theorem ofList_append_perm {before last : List (Text × β)} (hd : (last.map Prod.fst).Nodup)
    (hk : ∀ e ∈ before, e.1 ∈ last.map Prod.fst) : (ofList (before ++ last)).entries.Perm last := by
  have hrev : (last.reverse.map Prod.fst).Nodup := by rwa [List.map_reverse, List.nodup_reverse]
  refine (List.perm_ext_iff_of_nodup (List.Nodup.of_map _ (ofList (before ++ last)).nodup)
    (List.Nodup.of_map _ hd)).2 ?_
  rintro ⟨k, v⟩
  rw [mem_entries_iff, get?_ofList, List.reverse_append, List.lookup_append]
  rw [show (k, v) ∈ last ↔ (k, v) ∈ last.reverse from List.mem_reverse.symm, mem_iff_lookup hrev]
  cases hl : last.reverse.lookup k with
  | some w => simp
  | none =>
    -- a name of the first pairs would have been found among the last ones
    have hnot : before.reverse.lookup k = none := by
      rw [List.lookup_eq_none_iff]
      intro e he
      rw [bne_iff_ne]
      rintro rfl
      obtain ⟨p, hp, he'⟩ := List.mem_map.1 (hk e (List.mem_reverse.1 he))
      have := List.lookup_eq_none_iff.1 hl p (List.mem_reverse.2 hp)
      simp [he'] at this
    simp [hnot]

end Table
end ThemeSheet
