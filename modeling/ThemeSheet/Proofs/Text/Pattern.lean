/-
# Reading a pattern step by step

Every step of the reader leaves less of the text than it was given, and so does every
member of a set.  So the numbers of steps that the readers are given do not bound what
they read: a text is read exactly if steps lead through it to its end.
-/

import ThemeSheet.Pattern.Parser

namespace ThemeSheet
namespace Pattern

open Reader

variable {flags : Flags} {r s : Reader} {t rest : Text}

/-- The rest that a result holds is the one that was put there. -/
theorem length_rest {α : Type} {a b : α} {u : Text} (h : some (a, u) = some (b, rest)) :
    rest.length = u.length := by
  rw [(Prod.mk.inj (Option.some.inj h)).2]

/-- Where only what is read depends on a result, the rest is fixed. -/
theorem length_rest_of_map {α β : Type} {found : Option α} {f : α → β × Text} {b : β} {u : Text}
    (h : found.map f = some (b, rest)) (hf : ∀ a, (f a).2 = u) : rest.length = u.length := by
  obtain ⟨a, -, heq⟩ := Option.map_eq_some_iff.1 h
  rw [← hf a, heq]

/-- Where what is read is changed only, the rest is that of the reading. -/
theorem rest_of_map {α β : Type} {found : Option (α × Text)} {f : α × Text → β × Text} {b : β}
    (h : found.map f = some (b, rest)) (hf : ∀ p, (f p).2 = p.2) : ∃ a, found = some (a, rest) := by
  obtain ⟨⟨a, after⟩, hfound, heq⟩ := Option.map_eq_some_iff.1 h
  have hrest : rest = after := by simpa [heq] using hf (a, after)
  exact ⟨a, hrest ▸ hfound⟩

/-! ### Behind a backslash -/

/-- Hexadecimal digits leave no more than the text they were read from. -/
theorem hexCode?_length {n code : Nat} (h : hexCode? n t = some (code, rest)) : rest.length ≤ t.length := by
  simp only [hexCode?] at h
  split at h
  · rw [length_rest h, List.length_drop]
    omega
  · simp at h

/-- A code point leaves no more than the text behind its letter. -/
theorem codeOf?_length {c : Char} {code : Nat} (h : codeOf? c t = some (code, rest)) :
    rest.length ≤ t.length := by
  unfold codeOf? at h
  split at h
  · exact Nat.le_of_eq (length_rest h)
  · split at h
    · exact hexCode?_length h
    · split at h
      · exact hexCode?_length h
      · split at h
        · exact hexCode?_length (Option.filter_eq_some_iff.1 h).1
        · split at h
          · simp at h
          · exact Nat.le_of_eq (length_rest h)

/-- Octal digits leave no more than the text they were read from. -/
theorem octalDigits_length (n : Nat) (t : Text) : (octalDigits n t).2.length ≤ t.length := by
  simp [octalDigits]

/-! ### Sets -/

/-- A member of a set leaves less than the text it was read from. -/
theorem setItem?_length {item : CharSet} (h : setItem? flags t = some (item, rest)) :
    rest.length < t.length := by
  unfold setItem? at h
  split at h
  · simp at h
  · simp at h
  · simp only [length_rest h, List.length_cons]
    omega
  · next c t _ =>
    have hleft : rest.length ≤ t.length := by
      split at h
      · rw [length_rest_of_map h fun _ => rfl]
        exact octalDigits_length 2 t
      · split at h
        · exact Nat.le_of_eq (length_rest h)
        · obtain ⟨code, hcode⟩ := rest_of_map h fun _ => rfl
          exact codeOf?_length hcode
    simp only [List.length_cons]
    omega
  · simp only [length_rest h, List.length_cons]
    omega

/-- The members of a set and its bracket leave less than the text they were read from. -/
theorem setMembers?_length {isFirst : Bool} {n : Nat} {sets : List CharSet}
    (h : setMembers? flags isFirst n t = some (sets, rest)) : rest.length < t.length := by
  induction n generalizing isFirst t sets with
  | zero => simp [setMembers?] at h
  | succ n ih =>
    have hmembers {t sets} (h : setMembers?.members flags n t = some (sets, rest)) : rest.length < t.length := by
      unfold setMembers?.members at h
      split at h
      · simp at h
      · next first c after hitem =>
        have hleft := setItem?_length hitem
        simp only [List.length_cons] at hleft
        split at h
        · have := length_rest h
          omega
        · split at h
          · next a b last hlast =>
            have := setItem?_length hlast
            simp only [List.length_cons] at this
            split at h
            · simp at h
            · obtain ⟨_, hrest⟩ := rest_of_map h fun _ => rfl
              have := ih hrest
              omega
          · simp at h
      · next hitem =>
        obtain ⟨_, hrest⟩ := rest_of_map h fun _ => rfl
        have := ih hrest
        have := setItem?_length hitem
        omega
    unfold setMembers? at h
    split at h
    · simp at h
    · split at h
      · exact hmembers h
      · simp only [length_rest h, List.length_cons]
        omega
    · exact hmembers h

/-- **The number of steps does not bound a set,** if it is above that of the characters. -/
theorem setMembers?_eq_of_lt {isFirst : Bool} {m n : Nat} (hm : t.length < m) (hn : t.length < n) :
    setMembers? flags isFirst m t = setMembers? flags isFirst n t := by
  induction m generalizing isFirst n t with
  | zero => omega
  | succ m ih =>
    obtain ⟨n, rfl⟩ := Nat.exists_eq_add_one_of_ne_zero (show n ≠ 0 by omega)
    -- a member leaves less than there was, so what is left of the steps is enough for the rest
    have hmembers : setMembers?.members flags m t = setMembers?.members flags n t := by
      unfold setMembers?.members
      split
      · rfl
      · next first c after hitem =>
        have := setItem?_length hitem
        simp only [List.length_cons] at this
        split
        · rfl
        · split
          · next a b last hlast =>
            have := setItem?_length hlast
            simp only [List.length_cons] at this
            rw [ih (n := n) (by omega) (by omega)]
          · rfl
      · next item after _ hitem =>
        have := setItem?_length hitem
        rw [ih (n := n) (by omega) (by omega)]
    unfold setMembers?
    split
    · rfl
    · rw [hmembers]
    · exact hmembers

/-- A set and its bracket leave less than the text they were read from. -/
theorem set?_length {set : CharSet} (h : set? flags t = some (set, rest)) : rest.length < t.length := by
  unfold set? at h
  split at h
  · obtain ⟨_, hmembers⟩ := rest_of_map h fun _ => rfl
    have := setMembers?_length hmembers
    simp only [List.length_cons]
    omega
  · obtain ⟨_, hmembers⟩ := rest_of_map h fun _ => rfl
    exact setMembers?_length hmembers

/-! ### Repetitions -/

/-- The bounds of a repetition leave less than the text they were read from. -/
theorem bounds?_length {bounds : Nat × Option Nat} (h : bounds? t = some (bounds, rest)) :
    rest.length < t.length := by
  unfold bounds? at h
  split at h
  · simp only [length_rest h, List.length_cons]
    omega
  · simp only [length_rest h, List.length_cons]
    omega
  · simp only [length_rest h, List.length_cons]
    omega
  · next t =>
    have hlow := (List.dropWhile_suffix Char.isDigit (l := t)).length_le
    dsimp only at h
    split at h
    · next after hafter =>
      rw [hafter, List.length_cons] at hlow
      split at h
      · simp at h
      · simp only [length_rest h, List.length_cons]
        omega
    · next after hafter =>
      rw [hafter, List.length_cons] at hlow
      have hhigh := (List.dropWhile_suffix Char.isDigit (l := after)).length_le
      split at h
      · next last hlast =>
        rw [hlast, List.length_cons] at hhigh
        simp only [length_rest h, List.length_cons]
        omega
      · simp at h
    · simp at h
  · simp at h

/-- The mark behind a repetition leaves no more than the text it was read from. -/
theorem preference_length (t : Text) : (preference t).2.length ≤ t.length := by
  unfold preference
  split <;> simp

/-! ### Brackets -/

/-- A sign leaves less than the text it was looked for in. -/
theorem untilSign?_length {sign : Char} {name : Text} (h : untilSign? sign t = some (name, rest)) :
    rest.length < t.length := by
  unfold untilSign? at h
  split at h
  · simp at h
  · next c after hdrop =>
    have := (List.dropWhile_suffix (· != sign) (l := t)).length_le
    rw [hdrop, List.length_cons] at this
    have := length_rest h
    omega

/-- A comment in brackets leaves no more than the text it stands in. -/
theorem behindComment?_length (h : behindComment? t = some rest) : rest.length ≤ t.length := by
  fun_induction behindComment? t with
  | case1 => simp at h
  | case2 _ t ih =>
    have := ih h
    simp only [List.length_cons]
    omega
  | case3 t =>
    rw [Option.some.inj h, List.length_cons]
    omega
  | case4 _ t _ _ ih =>
    have := ih h
    rw [List.length_cons]
    omega

/-- A comment at the end of a line leaves no more than the text it stands in. -/
theorem behindLine?_length (h : behindLine? t = some rest) : rest.length ≤ t.length := by
  fun_induction behindLine? t with
  | case1 => exact Nat.le_of_eq (congrArg _ (Option.some.inj h).symm)
  | case2 => simp at h
  | case3 _ t ih =>
    have := ih h
    simp only [List.length_cons]
    omega
  | case4 t =>
    rw [Option.some.inj h, List.length_cons]
    omega
  | case5 _ t _ _ _ ih =>
    have := ih h
    rw [List.length_cons]
    omega

/-- A group that is asked for leaves no more than the digits behind its first one. -/
theorem digits?_length {c : Char} (h : r.digits? c t = some (s, rest)) : rest.length ≤ t.length := by
  unfold digits? at h
  split at h
  · split at h
    · simp only [length_rest_of_map h fun _ => rfl, List.length_cons]
      omega
    · split at h
      · simp only [length_rest_of_map h fun _ => rfl, List.length_cons]
        omega
      · exact Nat.le_of_eq (length_rest_of_map h fun _ => rfl)
  · split at h
    · simp only [length_rest_of_map h fun _ => rfl, List.length_nil, List.length_cons]
      omega
    · exact Nat.le_of_eq (length_rest_of_map h fun _ => rfl)
  · exact Nat.le_of_eq (length_rest_of_map h fun _ => rfl)

/-- What belongs to a backslash leaves no more than the text behind it. -/
theorem escape?_length (h : r.escape? t = some (s, rest)) : rest.length ≤ t.length := by
  unfold escape? at h
  split at h
  · simp at h
  · next c t =>
    have hleft : rest.length ≤ t.length := by
      split at h
      · exact Nat.le_of_eq (length_rest h)
      · split at h
        · exact Nat.le_of_eq (length_rest h)
        · split at h
          · rw [length_rest h]
            exact octalDigits_length 2 t
          · split at h
            · exact digits?_length h
            · obtain ⟨_, hcode⟩ := rest_of_map h fun _ => rfl
              exact codeOf?_length hcode
    simp only [List.length_cons]
    omega

/-- The name of a group and its sign leave no more than the text behind the bracket. -/
theorem named?_length (h : r.named? t = some (s, rest)) : rest.length ≤ t.length := by
  obtain ⟨⟨name, after⟩, hname, h⟩ := Option.bind_eq_some_iff.1 h
  have := untilSign?_length hname
  dsimp only at h
  split at h
  · have := length_rest h
    omega
  · simp at h

/-- The name of a group that is asked for leaves no more than the text behind the bracket. -/
theorem againNamed?_length (h : r.againNamed? t = some (s, rest)) : rest.length ≤ t.length := by
  obtain ⟨⟨name, after⟩, hname, h⟩ := Option.bind_eq_some_iff.1 h
  obtain ⟨number, -, h⟩ := Option.bind_eq_some_iff.1 h
  have := untilSign?_length hname
  have := length_rest_of_map h fun _ => rfl
  omega

/-- The group of a choice leaves no more than the text behind the bracket. -/
theorem choice?_length (h : r.choice? t = some (s, rest)) : rest.length ≤ t.length := by
  obtain ⟨⟨name, after⟩, hname, h⟩ := Option.bind_eq_some_iff.1 h
  obtain ⟨⟨number, isByNumber⟩, -, h⟩ := Option.bind_eq_some_iff.1 h
  have := untilSign?_length hname
  dsimp only at h
  split at h
  · simp at h
  · have := length_rest h
    omega

/-- Flags leave no more than the text behind the bracket. -/
theorem flagged?_length (h : r.flagged? t = some (s, rest)) : rest.length ≤ t.length := by
  have hon := (List.dropWhile_suffix Flags.isLetter (l := t)).length_le
  unfold flagged? at h
  dsimp only at h
  split at h
  · simp at h
  · split at h
    · next after hafter =>
      rw [hafter, List.length_cons] at hon
      split at h
      · have := length_rest h
        omega
      · simp at h
    · next after hafter =>
      rw [hafter, List.length_cons] at hon
      split at h
      · simp at h
      · have := length_rest h
        omega
    · next after hafter =>
      rw [hafter, List.length_cons] at hon
      have hoff := (List.dropWhile_suffix Flags.isLetter (l := after)).length_le
      split at h
      · next last hlast =>
        rw [hlast, List.length_cons] at hoff
        split at h
        · simp at h
        · have := length_rest h
          omega
      · simp at h
    · simp at h

/-- The signs that tell what a bracket opens leave less than the text they were read from. -/
theorem opening?_length {opening : Opening} (h : opening? t = some (opening, rest)) :
    rest.length < t.length := by
  unfold opening? at h
  split at h
  case h_7 => simp at h
  all_goals
    simp only [length_rest h, List.length_cons]
    omega

/-- What tells what a bracket opens leaves no more than the text behind the bracket. -/
theorem open?_length (h : r.open? t = some (s, rest)) : rest.length ≤ t.length := by
  unfold open? at h
  split at h
  · have := named?_length h
    simp only [List.length_cons]
    omega
  · have := againNamed?_length h
    simp only [List.length_cons]
    omega
  · have := choice?_length h
    simp only [List.length_cons]
    omega
  · obtain ⟨after, hafter, heq⟩ := Option.map_eq_some_iff.1 h
    have := behindComment?_length hafter
    rw [← (Prod.mk.inj heq).2]
    simp only [List.length_cons]
    omega
  · rw [List.length_cons]
    split at h
    · next hopening =>
      have := opening?_length hopening
      have := length_rest h
      omega
    · have := flagged?_length h
      omega
  · exact Nat.le_of_eq (length_rest h)

/-! ### Steps -/

/-- What repeats or is a character leaves no more than the text behind its first character. -/
theorem repeatOrChar?_length {c : Char} (h : r.repeatOrChar? c t = some (s, rest)) :
    rest.length ≤ t.length := by
  unfold repeatOrChar? at h
  split at h
  · exact Nat.le_of_eq (length_rest h)
  · next bounds after hbounds =>
    have hafter := bounds?_length hbounds
    obtain ⟨_, -, heq⟩ := Option.map_eq_some_iff.1 h
    have hmark : rest.length ≤ after.length := (Prod.mk.inj heq).2 ▸ preference_length after
    rw [List.length_cons] at hafter
    omega

/-- What begins with a character leaves no more than the text behind it. -/
theorem sign?_length {c : Char} (h : r.sign? c t = some (s, rest)) : rest.length ≤ t.length := by
  unfold sign? at h
  split at h
  · exact escape?_length h
  · split at h
    · obtain ⟨_, hset⟩ := rest_of_map h fun _ => rfl
      exact Nat.le_of_lt (set?_length hset)
    · split at h
      · exact open?_length h
      · split at h
        · exact Nat.le_of_eq (length_rest_of_map h fun _ => rfl)
        · split at h
          · exact Nat.le_of_eq (length_rest_of_map h fun _ => rfl)
          · split at h
            · exact Nat.le_of_eq (length_rest h)
            · split at h
              · exact Nat.le_of_eq (length_rest h)
              · split at h
                · exact Nat.le_of_eq (length_rest h)
                · exact repeatOrChar?_length h

/-- **A step leaves no more than the text behind its first character.** -/
theorem step?_length {c : Char} (h : r.step? c t = some (s, rest)) : rest.length ≤ t.length := by
  unfold step? at h
  split at h
  · exact Nat.le_of_eq (length_rest h)
  · split at h
    · obtain ⟨after, hafter, heq⟩ := Option.map_eq_some_iff.1 h
      exact (Prod.mk.inj heq).2 ▸ behindLine?_length hafter
    · exact sign?_length h

/-- **Steps lead through a text** from one reader to another. -/
inductive Reads : Reader → Text → Reader → Prop
  | done {r : Reader} : Reads r [] r
  | step {r next s : Reader} {c : Char} {t rest : Text} (first : r.step? c t = some (next, rest))
      (others : Reads next rest s) : Reads r (c :: t) s

/-- **The number of steps does not bound what is read,** if it is that of the characters at least. -/
theorem read?_eq_some_iff {n : Nat} (hn : t.length ≤ n) : r.read? n t = some s ↔ Reads r t s := by
  induction n generalizing r t with
  | zero =>
    obtain rfl := List.length_eq_zero_iff.1 (Nat.le_zero.1 hn)
    exact ⟨fun h => by cases h; exact .done, fun h => by cases h; rfl⟩
  | succ n ih =>
    cases t with
    | nil => exact ⟨fun h => by cases h; exact .done, fun h => by cases h; rfl⟩
    | cons c t =>
      rw [List.length_cons] at hn
      constructor
      · intro h
        rw [read?] at h
        split at h
        · simp at h
        · next next rest hstep =>
          have := step?_length hstep
          exact .step hstep ((ih (by omega)).1 h)
      · intro h
        cases h with
        | step first others =>
          have := step?_length first
          rw [read?, first]
          exact (ih (by omega)).2 others

/-- **A text writes a pattern exactly if steps lead through it to its end,** where all brackets are closed
and the groups are there that choices ask for. -/
theorem parse?_eq_some_iff {p : Pattern} : parse? t = some p ↔
    ∃ r, Reads .start t r ∧ r.outer = [] ∧ r.chosen ≤ r.groups.length ∧ p = r.level.pattern := by
  unfold parse?
  constructor
  · intro h
    split at h
    · next r hr =>
      split at h
      · next hend =>
        simp only [Bool.and_eq_true, List.isEmpty_iff, decide_eq_true_eq] at hend
        exact ⟨r, (read?_eq_some_iff (Nat.le_refl _)).1 hr, hend.1, hend.2, (Option.some.inj h).symm⟩
      · simp at h
    · simp at h
  · rintro ⟨r, hr, houter, hchosen, rfl⟩
    rw [(read?_eq_some_iff (Nat.le_refl _)).2 hr]
    simp [houter, hchosen]

end Pattern
end ThemeSheet
