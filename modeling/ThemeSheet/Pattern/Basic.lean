/-
# Search patterns

A pattern describes pieces of a text.  `run` tries the places where a piece that begins
at a given place may end, the preferred one first, until what follows accepts one;
`isFoundIn` asks whether a piece stands anywhere.  A place is given by how many
characters stand before it and by what the groups of the pattern have taken so far.
-/

import ThemeSheet.Text.Blank
import ThemeSheet.Text.Word
import ThemeSheet.Unicode.CaseFold
import ThemeSheet.Unicode.Digit

namespace ThemeSheet

/-- Which letters count as equal. -/
inductive Casing where
  /-- None but a letter and itself. -/
  | asWritten
  /-- ASCII letters that differ in case. -/
  | anyAscii
  /-- Letters that differ in case. -/
  | any
deriving DecidableEq, Repr

/-- The characters that count as equal to one when a set of characters is asked for them. -/
def Casing.forms : Casing → Char → List Char
  | asWritten, c => [c]
  | anyAscii, c => [c, c.toLower, c.toUpper]
  | any, c => Unicode.caseForms c

/-- The form of a character in which two texts are compared. -/
def Casing.form : Casing → Char → Char
  | asWritten, c => c
  | anyAscii, c => c.toLower
  | any, c => Unicode.lowerCase c

/-- A set of characters. -/
inductive CharSet where
  /-- The character with a code point; none if it is no character's. -/
  | one (code : Nat)
  | range (first last : Nat)
  | digit
  | word
  | blank
  | not (s : CharSet)
  | union (sets : List CharSet)
  /-- The characters that count as equal to one of the set. -/
  | inCase (casing : Casing) (s : CharSet)

namespace CharSet

/-- Is the character in the set? -/
def holds : CharSet → Char → Bool
  | one n, c => n == c.toNat
  | range m n, c => m ≤ c.toNat && c.toNat ≤ n
  | digit, c => Unicode.isDigit c
  | word, c => isWordChar c
  | blank, c => isBlank c
  | not s, c => !s.holds c
  | union sets, c => anyHolds sets c
  | inCase casing s, c => (casing.forms c).any s.holds
where
  anyHolds : List CharSet → Char → Bool
    | [], _ => false
    | s :: sets, c => s.holds c || anyHolds sets c

/-- All characters. -/
def all : CharSet := .not (.union [])

/-- All characters but the line feed. -/
def anyButLineFeed : CharSet := .not (.one 10)

/-- The ASCII digits. -/
def asciiDigit : CharSet := .range 48 57

/-- The ASCII letters and digits and the underscore. -/
def asciiWord : CharSet := .union [.range 97 122, .range 65 90, .range 48 57, .one 95]

/-- The ASCII blanks. -/
def asciiBlank : CharSet := .union [.range 9 13, .one 32]

end CharSet

/-- How many pieces a repetition prefers. -/
inductive Preference where
  | more
  | fewer
  /-- More, and no piece that has been taken is given back or taken otherwise. -/
  | moreForGood
deriving DecidableEq, Repr

/-- A pattern. -/
inductive Pattern where
  | empty
  | char (s : CharSet)
  /-- The beginning of the text. -/
  | atStart
  /-- The beginning of a line. -/
  | atLineStart
  /-- The end of the text, or the place before a line feed that ends it. -/
  | atEnd
  /-- The end of a line. -/
  | atLineEnd
  /-- The end of the text. -/
  | atVeryEnd
  /-- A place with a character of the set on one side only. -/
  | wordEdge (letters : CharSet)
  /-- A place that is no word edge, in a text that is not empty. -/
  | noWordEdge (letters : CharSet)
  | seq (p q : Pattern)
  | alt (p q : Pattern)
  /-- At least `least` characters of a set one after another, and at most `most` if there is a bound. -/
  | chars (s : CharSet) (least : Nat) (most : Option Nat) (preference : Preference)
  /-- At least `least` pieces one after another, and at most `most` if there is a bound. -/
  | repeated (p : Pattern) (least : Nat) (most : Option Nat) (preference : Preference)
  /-- A piece that the group with a number takes. -/
  | group (number : Nat) (p : Pattern)
  /-- What the group has taken, once more. -/
  | again (number : Nat) (casing : Casing)
  /-- A piece of `p` if the group has taken something, of `q` otherwise. -/
  | ifTaken (number : Nat) (p q : Pattern)
  /-- The preferred piece, taken for good. -/
  | forGood (p : Pattern)
  /-- A place with (or without) a piece that begins so many characters before it. -/
  | around (back : Nat) (isWanted : Bool) (p : Pattern)

namespace Pattern

/-- A place in the text and what the groups have taken on the way to it, the latest first: the number
of the group, and the places where what it took begins and ends. -/
structure Spot where
  place : Nat
  taken : List (Nat × Nat × Nat)

/-- The spot with the same pieces taken at another place. -/
def Spot.moved (i : Spot) (place : Nat) : Spot := { i with place }

/-- Tries the spots that can be reached from one, in some order, until what follows accepts one;
gives what that gives. -/
abbrev Search := (Spot → Option Spot) → Spot → Option Spot

/-- Is the character behind the place in the set? -/
def holdsAt (t : Array Char) (s : CharSet) (i : Nat) : Bool := t[i]?.any s.holds

/-- Does a character of the set stand on one side of the place only? -/
def isWordEdge (t : Array Char) (letters : CharSet) (i : Nat) : Bool :=
  (0 < i && holdsAt t letters (i - 1)) != holdsAt t letters i

/-- Does a line begin at the place? -/
def isLineStart (t : Array Char) (i : Nat) : Bool := i = 0 || t[i - 1]? = some '\n'

/-- Does a line end at the place? -/
def isLineEnd (t : Array Char) (i : Nat) : Bool := i = t.size || t[i]? = some '\n'

/-- Is the place the end, or is only a line feed behind it? -/
def isEnd (t : Array Char) (i : Nat) : Bool := i = t.size || (i + 1 = t.size && t[i]? = some '\n')

/-- The search that stays where it is, if that is where it may be. -/
def standing (mayBe : Nat → Bool) : Search := fun next i => if mayBe i.place then next i else none

/-- The place behind up to `n` characters of the set, as many as there are. -/
def behindRun (t : Array Char) (s : CharSet) : Nat → Nat → Nat
  | 0, i => i
  | n + 1, i => if holdsAt t s i then behindRun t s n (i + 1) else i

/-- Tries the places from `i + n` down to `i`. -/
def downwards (next : Nat → Option Spot) (i : Nat) : Nat → Option Spot
  | 0 => next i
  | n + 1 =>
    match next (i + n + 1) with
    | some e => some e
    | none => downwards next i n

/-- Tries the places behind up to `n` characters of the set, the nearest first. -/
def upwards (t : Array Char) (s : CharSet) (next : Nat → Option Spot) : Nat → Nat → Option Spot
  | 0, i => next i
  | n + 1, i =>
    match next i with
    | some e => some e
    | none => if holdsAt t s i then upwards t s next n (i + 1) else none

/-- The bound on the number of pieces: each but the last takes a character. -/
def bound (t : Array Char) (most : Option Nat) : Nat := (most.getD (t.size + 1)).min (t.size + 1)

/-- The search for a repetition of characters. -/
def runOfChars (t : Array Char) (s : CharSet) (least : Nat) (most : Option Nat) (preference : Preference) : Search :=
  fun next i =>
    if behindRun t s least i.place < i.place + least then none
    else
      let start := i.place + least
      let more := bound t (most.map (· - least))
      let goOn (place : Nat) : Option Spot := next (i.moved place)
      match preference with
      | .more => downwards goOn start (behindRun t s more start - start)
      | .fewer => upwards t s goOn more start
      | .moreForGood => goOn (behindRun t s more start)

/-- Exactly `n` pieces. -/
def exactly (piece : Search) : Nat → Search
  | 0, next, i => next i
  | n + 1, next, i => piece (exactly piece n next) i

/-- Up to `n` pieces, the more the better; none stands behind a piece that takes no character. -/
def many (piece : Search) : Nat → Search
  | 0, next, i => next i
  | n + 1, next, i =>
    match piece (fun j => if i.place < j.place then many piece n next j else next j) i with
    | some e => some e
    | none => next i

/-- Up to `n` pieces, the fewer the better; none stands behind a piece that takes no character. -/
def few (piece : Search) : Nat → Search
  | 0, next, i => next i
  | n + 1, next, i =>
    match next i with
    | some e => some e
    | none => piece (fun j => if i.place < j.place then few piece n next j else next j) i

/-- The spot behind up to `n` pieces, each as it comes first. -/
def firstOnes (piece : Search) : Nat → Spot → Spot
  | 0, i => i
  | n + 1, i =>
    match piece some i with
    | none => i
    | some j => if i.place < j.place then firstOnes piece n j else j

/-- The spot behind exactly `n` pieces, each as it comes first. -/
def exactlyFirstOnes (piece : Search) : Nat → Spot → Option Spot
  | 0, i => some i
  | n + 1, i => (piece some i).bind (exactlyFirstOnes piece n)

/-- The search for a repetition of pieces. -/
def runOfPieces (t : Array Char) (piece : Search) (least : Nat) (most : Option Nat) (preference : Preference) :
    Search :=
  fun next i =>
    let more := bound t (most.map (· - least))
    match preference with
    | .more => exactly piece least (many piece more next) i
    | .fewer => exactly piece least (few piece more next) i
    | .moreForGood => (exactlyFirstOnes piece least i).bind fun j => next (firstOnes piece more j)

/-- The characters between two places. -/
def charsBetween (t : Array Char) (first last : Nat) : List Char := (t.toList.take last).drop first

/-- The search for what a group has taken. -/
def runAgain (t : Array Char) (number : Nat) (casing : Casing) : Search := fun next i =>
  match i.taken.lookup number with
  | none => none
  | some (first, last) =>
    let place := i.place + (last - first)
    if (charsBetween t i.place place).map casing.form = (charsBetween t first last).map casing.form then
      next (i.moved place)
    else none

/-- The search for a place with (or without) a piece that begins so many characters before it. -/
def runAround (piece : Search) (back : Nat) (isWanted : Bool) : Search := fun next i =>
  match if back ≤ i.place then piece some (i.moved (i.place - back)) else none with
  | some j => if isWanted then next (j.moved i.place) else none
  | none => if isWanted then none else next i

/-- The search for a piece of the text that the pattern describes. -/
def run (t : Array Char) : Pattern → Search
  | empty, next, i => next i
  | char s, next, i => if holdsAt t s i.place then next (i.moved (i.place + 1)) else none
  | atStart, next, i => standing (· = 0) next i
  | atLineStart, next, i => standing (isLineStart t) next i
  | atEnd, next, i => standing (isEnd t) next i
  | atLineEnd, next, i => standing (isLineEnd t) next i
  | atVeryEnd, next, i => standing (· = t.size) next i
  | wordEdge letters, next, i => standing (isWordEdge t letters) next i
  | noWordEdge letters, next, i => standing (fun place => 0 < t.size && !isWordEdge t letters place) next i
  | seq p q, next, i => run t p (run t q next) i
  | alt p q, next, i =>
    match run t p next i with
    | some e => some e
    | none => run t q next i
  | chars s least most preference, next, i => runOfChars t s least most preference next i
  | repeated p least most preference, next, i => runOfPieces t (run t p) least most preference next i
  | group n p, next, i => run t p (fun j => next { j with taken := (n, i.place, j.place) :: j.taken }) i
  | again n casing, next, i => runAgain t n casing next i
  | ifTaken n p q, next, i => if (i.taken.lookup n).isSome then run t p next i else run t q next i
  | forGood p, next, i => (run t p some i).bind next
  | around back isWanted p, next, i => runAround (run t p) back isWanted next i

/-- Does a piece that the pattern describes stand somewhere in the text? -/
def isFoundIn (p : Pattern) (t : Text) : Bool :=
  let chars := t.toArray
  (List.range (chars.size + 1)).any fun i => (run chars p some ⟨i, []⟩).isSome

end Pattern
end ThemeSheet
