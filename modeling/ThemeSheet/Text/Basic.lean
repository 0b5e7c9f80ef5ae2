/-
# Texts

A text is a list of characters (Unicode scalar values).  The functions here cut
texts apart and join them; everything else in the library is built on them.
-/

namespace ThemeSheet

/-- A text, character by character. -/
abbrev Text := List Char

namespace Text

/-- What holds of every character of a text is decided along the text, not over all characters. -/
instance (priority := 10000) {p : Char → Prop} [DecidablePred p] (t : Text) : Decidable (∀ c ∈ t, p c) :=
  List.decidableBAll p t

/-- What follows `p` in a text that begins with `p`. -/
def dropPrefix? : Text → Text → Option Text
  | [], t => some t
  | _ :: _, [] => none
  | p :: ps, c :: t => if p = c then dropPrefix? ps t else none

/-- A beginning is dropped exactly if the text goes on behind it. -/
theorem dropPrefix?_eq_some {p t r : Text} : dropPrefix? p t = some r ↔ t = p ++ r := by
  induction p generalizing t with
  | nil => simp [dropPrefix?]
  | cons p ps ih =>
    cases t with
    | nil => simp [dropPrefix?]
    | cons c t =>
      by_cases h : p = c
      · simp [dropPrefix?, h, ih]
      · simp [dropPrefix?, h, Ne.symm h]

/-- Does the text begin with `p`? -/
def beginsWith (p t : Text) : Bool := (dropPrefix? p t).isSome

/-- A text begins with another exactly if something makes up the rest. -/
theorem beginsWith_iff {p t : Text} : beginsWith p t = true ↔ ∃ r, t = p ++ r := by
  simp [beginsWith, Option.isSome_iff_exists, dropPrefix?_eq_some]

/-- Does the text end with `s`? -/
def endsWith (s t : Text) : Bool := beginsWith s.reverse t.reverse

/-- Does `needle` occur somewhere in the text? -/
def occursIn (needle : Text) : Text → Bool
  | [] => beginsWith needle []
  | c :: t => beginsWith needle (c :: t) || occursIn needle t

/-- What follows the first occurrence of `needle`, and what stands before it. -/
def cutAt? (needle : Text) : Text → Option (Text × Text)
  | [] => if needle.isEmpty then some ([], []) else none
  | c :: t =>
    match dropPrefix? needle (c :: t) with
    | some r => some ([], r)
    | none => (cutAt? needle t).map fun (before, after) => (c :: before, after)

/-- What stands before the last place at which `close` applies, and what `close` leaves behind it. -/
def lastCut? (close : Text → Option Text) : Text → Option (Text × Text)
  | [] => (close []).map ([], ·)
  | c :: t =>
    match lastCut? close t with
    | some (before, after) => some (c :: before, after)
    | none => (close (c :: t)).map ([], ·)

/-- What stands before and behind the last `c` of the line at the beginning. -/
def lastInLine? (c : Char) (t : Text) : Option (Text × Text) :=
  let line := t.takeWhile (· != '\n')
  (lastCut? (dropPrefix? [c]) line).map fun (before, after) => (before, after ++ t.dropWhile (· != '\n'))

/-- The pieces between the separators; a text without one is a single piece. -/
def splitOn (sep : Char) : Text → List Text
  | [] => [[]]
  | c :: t =>
    if c = sep then [] :: splitOn sep t
    else
      match splitOn sep t with
      | [] => [[c]]
      | piece :: pieces => (c :: piece) :: pieces

/-- A text is split into at least one part. -/
theorem splitOn_ne_nil (sep : Char) (t : Text) : splitOn sep t ≠ [] := by
  cases t with
  | nil => simp [splitOn]
  | cons c t => simp only [splitOn]; split <;> (try split) <;> simp

/-- The lines of a text: what stands between the line feeds. -/
def lines (t : Text) : List Text := splitOn '\n' t

/-- The texts one after another, with `sep` between neighbours. -/
def join (sep : Text) : List Text → Text
  | [] => []
  | [t] => t
  | t :: u :: ts => t ++ sep ++ join sep (u :: ts)

/-- **Joining undoes splitting.** -/
theorem join_splitOn (sep : Char) (t : Text) : join [sep] (splitOn sep t) = t := by
  induction t with
  | nil => rfl
  | cons c t ih =>
    have hne := splitOn_ne_nil sep t
    simp only [splitOn]
    split
    · next h =>
      obtain ⟨piece, pieces, hs⟩ := List.exists_cons_of_ne_nil hne
      rw [hs] at ih ⊢
      simp [join, ih, h]
    · split
      · next h => exact absurd h hne
      · next piece pieces hs =>
        rw [hs] at ih
        cases pieces with
        | nil => simpa [join] using ih
        | cons q qs => simpa [join] using ih

/-- Removes the characters at both ends that satisfy `p`. -/
def trim (p : Char → Bool) (t : Text) : Text :=
  ((t.dropWhile p).reverse.dropWhile p).reverse

/-- The text without one line feed at its end. -/
def withoutLineEnd (t : Text) : Text := if t.getLast? = some '\n' then t.dropLast else t

/-- Adds `s` at the end of a text that does not end with it yet. -/
def withSuffix (s t : Text) : Text := if endsWith s t then t else t ++ s

/-- The characters of a text, in ASCII lower case where they are ASCII letters. -/
def asciiLower (t : Text) : Text := t.map Char.toLower

/-- Compares texts character by character by code point; a proper beginning comes first. -/
def compare : Text → Text → Ordering
  | [], [] => .eq
  | [], _ :: _ => .lt
  | _ :: _, [] => .gt
  | a :: s, b :: t => if a.toNat < b.toNat then .lt else if b.toNat < a.toNat then .gt else compare s t

end Text

end ThemeSheet
