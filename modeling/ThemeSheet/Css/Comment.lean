/-
# Comments and quoted strings

Two readings of a style sheet that look at comments only.  `dropComments` removes
block comments wherever they stand.  `pieces` tells quoted strings, comments and
single characters apart: a quoted string ends on its own line, a block comment at
the next `*/`, and two slashes begin a line comment unless a colon stands before
them, as in an address.
-/

import ThemeSheet.Text.Replace

namespace ThemeSheet
namespace Css

/-- What stands inside the block comment at the beginning, and what follows it. -/
def blockComment? (t : Text) : Option (Text × Text) :=
  (Text.dropPrefix? "/*".toList t).bind (Text.cutAt? "*/".toList)

/-- The text without its block comments; one that is not closed stays. -/
def dropComments (t : Text) : Text :=
  Text.replaceMatches (fun s => (blockComment? s).map fun (_, rest) => ([], rest)) t

/-- A piece of a style sheet. -/
inductive Piece where
  /-- A string with its quotes. -/
  | quoted (chars : Text)
  /-- A comment with its marks. -/
  | comment (chars : Text)
  | plain (c : Char)
deriving DecidableEq, Repr

/-- The text of the piece. -/
def Piece.chars : Piece → Text
  | quoted cs => cs
  | comment cs => cs
  | plain c => [c]

/-- The text of the piece unless it is a comment. -/
def Piece.kept : Piece → Text
  | quoted cs => cs
  | comment _ => []
  | plain c => [c]

/-- A string up to and including its closing quote, behind the opening one, and the rest.
A backslash takes the next character with it; neither may be a line feed. -/
def quotedTail? (quote : Char) : Text → Option (Text × Text)
  | [] => none
  | '\\' :: c :: t =>
    if c = '\n' then none else (quotedTail? quote t).map fun (cs, rest) => ('\\' :: c :: cs, rest)
  | c :: t =>
    if c = quote then some ([c], t)
    else if c = '\\' ∨ c = '\n' then none
    else (quotedTail? quote t).map fun (cs, rest) => (c :: cs, rest)

/-- The piece at the beginning of `c :: t`, and the rest; `afterColon` when the character
before is a colon. -/
def nextPiece (afterColon : Bool) (c : Char) (t : Text) : Piece × Text :=
  match if c = '"' ∨ c = '\'' then quotedTail? c t else none with
  | some (cs, rest) => (.quoted (c :: cs), rest)
  | none =>
    match blockComment? (c :: t) with
    | some (inside, rest) => (.comment ("/*".toList ++ inside ++ "*/".toList), rest)
    | none =>
      if afterColon = false ∧ c = '/' ∧ t.head? = some '/' then
        (.comment (c :: t.takeWhile (· != '\n')), t.dropWhile (· != '\n'))
      else (.plain c, t)

/-- The inside of a string and what follows it make up the text behind the opening quote. -/
theorem quotedTail?_append {quote : Char} {t cs rest : Text}
    (h : quotedTail? quote t = some (cs, rest)) : cs ++ rest = t := by
  fun_induction quotedTail? quote t generalizing cs rest with
  | case1 => simp at h
  | case2 => simp at h
  | case3 c t _ ih =>
    obtain ⟨⟨ds, r⟩, hd, hr⟩ := Option.map_eq_some_iff.1 h
    simp at hr
    rw [← hr.1, ← hr.2, ← ih hd]; rfl
  | case4 => simp at h; simp [← h.1, ← h.2]
  | case5 => simp at h
  | case6 c t _ _ _ ih =>
    obtain ⟨⟨ds, r⟩, hd, hr⟩ := Option.map_eq_some_iff.1 h
    simp at hr
    rw [← hr.1, ← hr.2, ← ih hd]; rfl

/-- What stands before a needle, the needle and what stands behind it make up the text. -/
theorem cutAt?_append {needle t before after : Text}
    (h : Text.cutAt? needle t = some (before, after)) : before ++ needle ++ after = t := by
  induction t generalizing before with
  | nil => simp [Text.cutAt?] at h; simp [h]
  | cons c t ih =>
    simp only [Text.cutAt?] at h
    split at h
    · next r hr =>
      simp at h
      rw [h.1, ← h.2, Text.dropPrefix?_eq_some.1 hr]; simp
    · obtain ⟨⟨b, a⟩, hb, hr⟩ := Option.map_eq_some_iff.1 h
      simp at hr
      obtain ⟨rfl, rfl⟩ := hr
      simp [← ih hb]

/-- A comment and what follows it make up the text. -/
theorem blockComment?_append {t inside rest : Text} (h : blockComment? t = some (inside, rest)) :
    "/*".toList ++ inside ++ "*/".toList ++ rest = t := by
  obtain ⟨s, hs, hi⟩ := Option.bind_eq_some_iff.1 h
  rw [Text.dropPrefix?_eq_some.1 hs, ← cutAt?_append hi]; simp

/-- **No character is lost between a piece and the rest.** -/
theorem nextPiece_append (afterColon : Bool) (c : Char) (t : Text) :
    (nextPiece afterColon c t).1.chars ++ (nextPiece afterColon c t).2 = c :: t := by
  unfold nextPiece
  split
  · next cs rest h =>
    split at h
    · simp [Piece.chars, quotedTail?_append h]
    · simp at h
  · split
    · next inside rest h => simpa [Piece.chars] using blockComment?_append h
    · split <;> simp [Piece.chars]

/-- A piece leaves no more than the text it was read from. -/
theorem nextPiece_length (afterColon : Bool) (c : Char) (t : Text) :
    (nextPiece afterColon c t).2.length ≤ t.length := by
  have h := congrArg List.length (nextPiece_append afterColon c t)
  have hc : (nextPiece afterColon c t).1.chars ≠ [] := by
    unfold nextPiece
    split
    · simp [Piece.chars]
    · split
      · simp [Piece.chars]
      · split <;> simp [Piece.chars]
  have := List.length_pos_iff.2 hc
  simp at h; omega

/-- The pieces of a text; `afterColon` when a colon stands before it. -/
def pieces (afterColon : Bool) : Text → List Piece
  | [] => []
  | c :: t =>
    (nextPiece afterColon c t).1 ::
      pieces ((nextPiece afterColon c t).1 = .plain ':') (nextPiece afterColon c t).2
termination_by t => t.length
decreasing_by have := nextPiece_length afterColon c t; simp; omega

end Css
end ThemeSheet
