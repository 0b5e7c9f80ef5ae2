/-
# Reading search patterns

The written form of patterns: characters stand for themselves; `.` for any but a
line feed; `^` and `$` for the ends of the text; `[…]` for sets, `(…)` for groups,
`|` between alternatives; `*`, `+`, `?` and `{m,n}` for repetition; a backslash gives
a class such as `\d`, a place such as `\b`, a code point such as `\x41`, what a group has
taken, or takes a special character as it is.  A question mark behind an opening bracket
tells what the bracket opens: a group with a name, one that takes nothing, a look ahead
or back, a choice between two patterns, or flags.

A pattern is read from left to right, piece by piece.  The reader keeps the pieces of the
bracket that is open, and those of the brackets around it.
-/

import ThemeSheet.Pattern.Basic
import ThemeSheet.Text.Numeral
import ThemeSheet.Fault

namespace ThemeSheet
namespace Pattern

/-! ### Flags -/

/-- What the flags of a pattern say. -/
structure Flags where
  ignoresCase : Bool := false
  /-- Do `^` and `$` stand for the ends of lines? -/
  isPerLine : Bool := false
  /-- Does `.` stand for line feeds too? -/
  dotIsAll : Bool := false
  /-- Are blanks and comments left out? -/
  isSpaced : Bool := false
  /-- Are digits, blanks and word characters only those of ASCII?  None if no flag says so. -/
  isAscii : Option Bool := none
deriving DecidableEq, Repr

namespace Flags

variable (flags : Flags)

/-- Which letters count as equal. -/
def casing : Casing :=
  if flags.ignoresCase then (if flags.isAscii = some true then .anyAscii else .any) else .asWritten

/-- The set as the letters that count as equal make it. -/
def cased (s : CharSet) : CharSet := if flags.ignoresCase then .inCase flags.casing s else s

/-- The digits. -/
def digit : CharSet := if flags.isAscii = some true then .asciiDigit else .digit

/-- The word characters. -/
def word : CharSet := if flags.isAscii = some true then .asciiWord else .word

/-- The blanks. -/
def blank : CharSet := if flags.isAscii = some true then .asciiBlank else .blank

/-- Is the letter that of a flag? -/
def isLetter (c : Char) : Bool := c == 'i' || c == 'm' || c == 's' || c == 'x' || c == 'a' || c == 'u'

/-- Is the letter that of a flag that tells the kind of text? -/
def isKind (c : Char) : Bool := c == 'a' || c == 'u'

/-- The flags when those with the letters are set, then others taken back. -/
def update (on off : Text) : Flags where
  ignoresCase := (flags.ignoresCase || on.contains 'i') && !off.contains 'i'
  isPerLine := (flags.isPerLine || on.contains 'm') && !off.contains 'm'
  dotIsAll := (flags.dotIsAll || on.contains 's') && !off.contains 's'
  isSpaced := (flags.isSpaced || on.contains 'x') && !off.contains 'x'
  isAscii := if on.contains 'a' then some true else if on.contains 'u' then some false else flags.isAscii

end Flags

/-! ### Characters behind a backslash -/

/-- The set that a letter behind a backslash names. -/
def classOf? (flags : Flags) (c : Char) : Option CharSet :=
  if c = 'd' then some flags.digit
  else if c = 'D' then some (.not flags.digit)
  else if c = 'w' then some flags.word
  else if c = 'W' then some (.not flags.word)
  else if c = 's' then some flags.blank
  else if c = 'S' then some (.not flags.blank)
  else none

/-- The code point of the control character that a letter behind a backslash names. -/
def controlOf? (c : Char) : Option Nat :=
  if c = 'n' then some 10
  else if c = 't' then some 9
  else if c = 'r' then some 13
  else if c = 'f' then some 12
  else if c = 'v' then some 11
  else if c = 'a' then some 7
  else none

/-- The place that a letter behind a backslash names. -/
def placeOf? (flags : Flags) (c : Char) : Option Pattern :=
  if c = 'b' then some (.wordEdge flags.word)
  else if c = 'B' then some (.noWordEdge flags.word)
  else if c = 'A' then some .atStart
  else if c = 'Z' then some .atVeryEnd
  else none

/-- The number that exactly `n` hexadecimal digits denote, and the rest. -/
def hexCode? (n : Nat) (t : Text) : Option (Nat × Text) :=
  let digits := t.take n
  if digits.length = n && digits.all isHexDigit then some (hexNumber digits, t.drop n) else none

/-- The code point that a letter or a sign behind a backslash names, and the rest. -/
def codeOf? (c : Char) (t : Text) : Option (Nat × Text) :=
  match controlOf? c with
  | some n => some (n, t)
  | none =>
    if c = 'x' then hexCode? 2 t
    else if c = 'u' then hexCode? 4 t
    else if c = 'U' then (hexCode? 8 t).filter (·.1 ≤ 0x10FFFF)
    else if c.isAlphanum then none
    else some (c.toNat, t)

/-- Is the character an octal digit? -/
def isOctalDigit (c : Char) : Bool := '0' ≤ c && c ≤ '7'

/-- The number that decimal digits denote. -/
def decimalNumber (digits : Text) : Nat := digits.foldl (fun n c => 10 * n + (c.toNat - 48)) 0

/-- The number that octal digits denote. -/
def octalNumber (digits : Text) : Nat := digits.foldl (fun n c => 8 * n + (c.toNat - 48)) 0

/-- Up to `n` octal digits at the beginning, and the rest. -/
def octalDigits (n : Nat) (t : Text) : Text × Text :=
  let digits := (t.take n).takeWhile isOctalDigit
  (digits, t.drop digits.length)

/-- The code point that three octal digits name; there are 256 of them. -/
def octalCode? (digits : Text) : Option Nat :=
  let n := octalNumber digits
  if n ≤ 0o377 then some n else none

/-! ### Sets -/

/-- One end of a range, or a class: what it is and the rest. -/
def setItem? (flags : Flags) : Text → Option (CharSet × Text)
  | [] => none
  | '\\' :: [] => none
  | '\\' :: 'b' :: t => some (.one 8, t)
  | '\\' :: c :: t =>
    if isOctalDigit c then
      let (digits, rest) := octalDigits 2 t
      (octalCode? (c :: digits)).map (.one ·, rest)
    else
      match classOf? flags c with
      | some s => some (s, t)
      | none => (codeOf? c t).map fun (n, rest) => (.one n, rest)
  | c :: t => some (.one c.toNat, t)

/-- The members of a set up to the closing bracket, which is a member when it stands first. -/
def setMembers? (flags : Flags) (isFirst : Bool) (fuel : Nat) (t : Text) : Option (List CharSet × Text) :=
  match fuel with
  | 0 => none
  | fuel + 1 =>
    match t with
    | [] => none
    | ']' :: rest => if isFirst then members fuel t else some ([], rest)
    | _ => members fuel t
where
  members (fuel : Nat) (t : Text) : Option (List CharSet × Text) :=
    match setItem? flags t with
    | none => none
    | some (first, '-' :: c :: rest) =>
      if c = ']' then some ([first, .one 45], rest)
      else
        match first, setItem? flags (c :: rest) with
        | .one a, some (.one b, after) =>
          if b < a then none
          else (setMembers? flags false fuel after).map fun (sets, last) => (.range a b :: sets, last)
        | _, _ => none
    | some (s, rest) => (setMembers? flags false fuel rest).map fun (sets, after) => (s :: sets, after)

/-- A set behind its opening bracket. -/
def set? (flags : Flags) (t : Text) : Option (CharSet × Text) :=
  match t with
  | '^' :: rest =>
    (setMembers? flags true (t.length + 1) rest).map fun (sets, after) => (.not (flags.cased (.union sets)), after)
  | _ => (setMembers? flags true (t.length + 1) t).map fun (sets, after) => (flags.cased (.union sets), after)

/-! ### Repetitions -/

/-- The bounds of a repetition at the beginning of a text, and the rest. -/
def bounds? : Text → Option ((Nat × Option Nat) × Text)
  | '*' :: t => some ((0, none), t)
  | '+' :: t => some ((1, none), t)
  | '?' :: t => some ((0, some 1), t)
  | '\x7b' :: t =>
    let low := t.takeWhile Char.isDigit
    match t.dropWhile Char.isDigit with
    | '\x7d' :: rest =>
      if low.isEmpty then none else some ((decimalNumber low, some (decimalNumber low)), rest)
    | ',' :: s =>
      let high := s.takeWhile Char.isDigit
      match s.dropWhile Char.isDigit with
      | '\x7d' :: rest =>
        some ((decimalNumber low, if high.isEmpty then none else some (decimalNumber high)), rest)
      | _ => none
    | _ => none
  | _ => none

/-- The bound below which the numbers of a repetition must lie. -/
def repetitionBound : Nat := 4294967295

/-- The preference that a mark behind a repetition gives it, and the rest. -/
def preference : Text → Preference × Text
  | '?' :: t => (.fewer, t)
  | '+' :: t => (.moreForGood, t)
  | t => (.more, t)

/-- The pattern repeated. -/
def repeatedly (p : Pattern) (least : Nat) (most : Option Nat) (preference : Preference) : Pattern :=
  match p with
  | char s => .chars s least most preference
  | _ => .repeated p least most preference

/-! ### How long pieces are -/

/-- The length of the shortest piece and that of the longest one, if there is one. -/
structure Width where
  least : Nat
  most : Option Nat
deriving DecidableEq, Repr

/-- The widths of two pieces together. -/
def Width.add (v w : Width) : Width := ⟨v.least + w.least, v.most.bind fun m => w.most.map (m + ·)⟩

/-- The widths of either of two pieces. -/
def Width.either (v w : Width) : Width := ⟨v.least.min w.least, v.most.bind fun m => w.most.map m.max⟩

/-- The widths of repeated pieces. -/
def Width.times (w : Width) (least : Nat) (most : Option Nat) : Width :=
  ⟨least * w.least,
    if w.most = some 0 ∨ most = some 0 then some 0 else w.most.bind fun m => most.map (m * ·)⟩

/-- How long the pieces are that a pattern describes, those of its groups given. -/
def width (groups : List (Option Width)) : Pattern → Width
  | char _ => ⟨1, some 1⟩
  | seq p q => (width groups p).add (width groups q)
  | alt p q => (width groups p).either (width groups q)
  | chars _ least most _ => Width.times ⟨1, some 1⟩ least most
  | repeated p least most _ => (width groups p).times least most
  | group _ p => width groups p
  | again n _ => (groups.getD (n - 1) none).getD ⟨0, some 0⟩
  | ifTaken _ p q => (width groups p).either (width groups q)
  | forGood p => width groups p
  | _ => ⟨0, some 0⟩

/-! ### The reader -/

/-- What an opening bracket has opened. -/
inductive Opening where
  /-- No bracket: the whole pattern. -/
  | whole
  | plain
  /-- The group with a number. -/
  | group (number : Nat)
  | forGood
  /-- A look ahead or back; a piece must stand there, or must not. -/
  | around (isBehind isWanted : Bool)
  /-- A choice: whether the group has taken something. -/
  | choice (number : Nat)
deriving DecidableEq, Repr

/-- How a piece may be repeated. -/
inductive Role where
  | single
  /-- A place cannot be repeated. -/
  | place
  /-- What is repeated cannot be repeated once more. -/
  | repeated
deriving DecidableEq, Repr

/-- What has been read behind an opening bracket. -/
structure Level where
  opening : Opening
  flags : Flags
  /-- How many groups may be asked for what they took, if a look back is open. -/
  askable : Option Nat
  /-- The alternatives before the last bar, the last one first. -/
  before : List Pattern
  /-- The pieces behind the last bar, the last one first. -/
  pieces : List (Pattern × Role)

/-- The pattern behind the last bar. -/
def Level.last (l : Level) : Pattern := l.pieces.foldl (fun q p => .seq p.1 q) .empty

/-- The pattern of the alternatives. -/
def Level.pattern (l : Level) : Pattern := l.before.foldl (fun q p => .alt p q) l.last

/-- What has been read of a pattern. -/
structure Reader where
  level : Level
  /-- The brackets around it that are open, from inside to outside. -/
  outer : List Level
  /-- The widths of the groups; none for one that is open. -/
  groups : List (Option Width)
  names : List (Text × Nat)
  /-- The largest number of a group that a choice asks for. -/
  chosen : Nat

namespace Reader

/-- Before a pattern is read. -/
def start : Reader := ⟨⟨.whole, {}, none, [], []⟩, [], [], [], 0⟩

variable (r : Reader)

/-- The flags that hold where the reading goes on. -/
def flags : Flags := r.level.flags

/-- The reader with a piece more. -/
def add (p : Pattern) (role : Role) : Reader :=
  { r with level := { r.level with pieces := (p, role) :: r.level.pieces } }

/-- The reader behind a bar; a choice has no more than two alternatives. -/
def bar? : Option Reader :=
  match r.level.opening, r.level.before with
  | .choice _, _ :: _ => none
  | _, before => some { r with level := { r.level with before := r.level.last :: before, pieces := [] } }

/-- The reader with the last piece repeated. -/
def repeat? (least : Nat) (most : Option Nat) (preference : Preference) : Option Reader :=
  match r.level.pieces with
  | (p, .single) :: pieces =>
    if least < repetitionBound ∧ most.all (· < repetitionBound) ∧ most.all (least ≤ ·) then
      some { r with level := { r.level with
        pieces := (repeatedly p least most preference, .repeated) :: pieces } }
    else none
  | _ => none

/-- The reader behind an opening bracket. -/
def opened (opening : Opening) (flags : Flags) : Reader :=
  let askable := match opening with
    | .around true _ => r.level.askable.or (some r.groups.length)
    | _ => r.level.askable
  { r with level := ⟨opening, flags, askable, [], []⟩, outer := r.level :: r.outer }

/-- The reader behind the opening bracket of the next group. -/
def openedGroup : Reader :=
  { r.opened (.group (r.groups.length + 1)) r.flags with groups := r.groups ++ [none] }

/-- The reader with what stood behind the closed bracket as a piece of the level around it. -/
def closed (p : Pattern) (outside : Level) (outer : List Level) : Reader :=
  { r with level := { outside with pieces := (p, .single) :: outside.pieces }, outer }

/-- The reader behind a closing bracket.  A look back needs pieces of one length. -/
def close? : Option Reader :=
  match r.outer with
  | [] => none
  | outside :: outer =>
    let p := r.level.pattern
    match r.level.opening with
    | .whole => none
    | .plain => some (r.closed p outside outer)
    | .group n => some { r.closed (.group n p) outside outer with groups := r.groups.set (n - 1) (width r.groups p) }
    | .forGood => some (r.closed (.forGood p) outside outer)
    | .around false isWanted => some (r.closed (.around 0 isWanted p) outside outer)
    | .around true isWanted =>
      let w := width r.groups p
      if w.most = some w.least then some (r.closed (.around w.least isWanted p) outside outer) else none
    | .choice n =>
      match r.level.before with
      | [] => some (r.closed (.ifTaken n p .empty) outside outer)
      | q :: _ => some (r.closed (.ifTaken n q r.level.last) outside outer)

/-- May a group be asked for what it took?  In a look back it must have been opened before. -/
def mayAsk (number : Nat) : Bool :=
  match r.level.askable with
  | none => true
  | some n => number ≤ n && (r.groups.getD (number - 1) none).isSome

/-- The reader with what a group has taken as a piece; the group must be there and closed. -/
def again? (number : Nat) : Option Reader :=
  if (r.groups.getD (number - 1) none).isSome ∧ r.mayAsk number then
    some (r.add (.again number r.flags.casing) .single)
  else none

/-- What stands behind a backslash, digits. -/
def digits? (c : Char) (t : Text) : Option (Reader × Text) :=
  match t with
  | d :: e :: rest =>
    if isOctalDigit c && isOctalDigit d && isOctalDigit e then
      (octalCode? [c, d, e]).map fun n => (r.add (.char (r.flags.cased (.one n))) .single, rest)
    else if d.isDigit then (r.again? (decimalNumber [c, d])).map (·, e :: rest)
    else (r.again? (decimalNumber [c])).map (·, t)
  | [d] =>
    if d.isDigit then (r.again? (decimalNumber [c, d])).map (·, []) else (r.again? (decimalNumber [c])).map (·, t)
  | [] => (r.again? (decimalNumber [c])).map (·, [])

/-- The reader behind a backslash and what belongs to it. -/
def escape? : Text → Option (Reader × Text)
  | [] => none
  | c :: t =>
    match placeOf? r.flags c with
    | some place => some (r.add place .place, t)
    | none =>
      match classOf? r.flags c with
      | some s => some (r.add (.char s) .single, t)
      | none =>
        if c = '0' then
          let (digits, rest) := octalDigits 2 t
          some (r.add (.char (.one (octalNumber digits))) .single, rest)
        else if c.isDigit then r.digits? c t
        else (codeOf? c t).map fun (n, rest) => (r.add (.char (r.flags.cased (.one n))) .single, rest)

/-- The text up to a closing sign, and the rest behind it. -/
def untilSign? (sign : Char) (t : Text) : Option (Text × Text) :=
  match t.dropWhile (· != sign) with
  | [] => none
  | _ :: rest => some (t.takeWhile (· != sign), rest)

/-- Can the text be the name of a group? -/
def isGroupName : Text → Bool
  | [] => false
  | c :: t => isWordChar c && !Unicode.isDigit c && t.all isWordChar

/-- The reader behind the name of a group. -/
def named? (t : Text) : Option (Reader × Text) := do
  let (name, rest) ← untilSign? '>' t
  if isGroupName name && (r.names.lookup name).isNone then
    some ({ r.openedGroup with names := (name, r.groups.length + 1) :: r.names }, rest)
  else none

/-- The reader behind the name of a group whose piece is to stand once more. -/
def againNamed? (t : Text) : Option (Reader × Text) := do
  let (name, rest) ← untilSign? ')' t
  let number ← r.names.lookup name
  (r.again? number).map (·, rest)

/-- The number that is read on behind one that has been read: digits of any script, with single
underscores between them. -/
def numberFrom? (n : Nat) (isBehindDigit : Bool) : Text → Option Nat
  | [] => if isBehindDigit then some n else none
  | c :: t =>
    if c = '_' ∧ isBehindDigit then numberFrom? n false t
    else
      match Unicode.digitValue? c with
      | some d => numberFrom? (10 * n + d) true t
      | none => none

/-- The number that a choice writes for a group, blanks and a plus sign aside. -/
def groupNumber? (t : Text) : Option Nat :=
  match Text.strip t with
  | '+' :: digits => numberFrom? 0 false digits
  | digits => numberFrom? 0 false digits

/-- The group that a choice asks for, and whether it does so by its number. -/
def chosenGroup? (name : Text) : Option (Nat × Bool) :=
  match groupNumber? name with
  | some n => some (n, true)
  | none => (r.names.lookup name).map (·, false)

/-- The reader behind the group that a choice asks for. -/
def choice? (t : Text) : Option (Reader × Text) := do
  let (name, rest) ← untilSign? ')' t
  let (number, isByNumber) ← r.chosenGroup? name
  if number = 0 || !r.mayAsk number then none
  else
    let chosen := if isByNumber then r.chosen.max number else r.chosen
    some ({ r.opened (.choice number) r.flags with chosen }, rest)

/-- The text behind a comment in brackets. -/
def behindComment? : Text → Option Text
  | [] => none
  | '\\' :: _ :: t => behindComment? t
  | ')' :: t => some t
  | _ :: t => behindComment? t

/-- The reader behind flags: for the rest of the pattern if they stand first in it, or for a bracket. -/
def flagged? (t : Text) : Option (Reader × Text) :=
  let on := t.takeWhile Flags.isLetter
  if on.contains 'a' && on.contains 'u' then none
  else
    match t.dropWhile Flags.isLetter with
    | ')' :: rest =>
      let flags := r.flags.update on []
      let isFirst := r.outer.isEmpty && r.level.before.isEmpty && r.level.pieces.isEmpty
      let isOneKind := r.flags.isAscii.isNone || !on.any Flags.isKind || flags.isAscii = r.flags.isAscii
      if isFirst && isOneKind && !on.isEmpty then some ({ r with level := { r.level with flags } }, rest) else none
    | ':' :: rest => if on.isEmpty then none else some (r.opened .plain (r.flags.update on []), rest)
    | '-' :: s =>
      let off := s.takeWhile Flags.isLetter
      match s.dropWhile Flags.isLetter with
      | ':' :: rest =>
        if off.isEmpty || off.any Flags.isKind || off.any on.contains then none
        else some (r.opened .plain (r.flags.update on off), rest)
      | _ => none
    | _ => none

/-- What the signs behind a question mark open, and the rest. -/
def opening? : Text → Option (Opening × Text)
  | ':' :: t => some (.plain, t)
  | '>' :: t => some (.forGood, t)
  | '=' :: t => some (.around false true, t)
  | '!' :: t => some (.around false false, t)
  | '<' :: '=' :: t => some (.around true true, t)
  | '<' :: '!' :: t => some (.around true false, t)
  | _ => none

/-- The reader behind an opening bracket and what tells what it opens. -/
def open? : Text → Option (Reader × Text)
  | '?' :: 'P' :: '<' :: t => r.named? t
  | '?' :: 'P' :: '=' :: t => r.againNamed? t
  | '?' :: '(' :: t => r.choice? t
  | '?' :: '#' :: t => (behindComment? t).map (r, ·)
  | '?' :: t =>
    match opening? t with
    | some (opening, rest) => some (r.opened opening r.flags, rest)
    | none => r.flagged? t
  | t => some (r.openedGroup, t)

/-- Is the character a blank that a spaced pattern leaves out? -/
def isSpace (c : Char) : Bool := c == ' ' || (9 ≤ c.toNat && c.toNat ≤ 13)

/-- The text behind a comment up to the end of its line. -/
def behindLine? : Text → Option Text
  | [] => some []
  | ['\\'] => none
  | '\\' :: _ :: t => behindLine? t
  | '\n' :: t => some t
  | _ :: t => behindLine? t

/-- The reader behind bounds that repeat the last piece, or else behind a character that is a piece. -/
def repeatOrChar? (c : Char) (t : Text) : Option (Reader × Text) :=
  match bounds? (c :: t) with
  | none => some (r.add (.char (r.flags.cased (.one c.toNat))) .single, t)
  | some ((least, most), rest) =>
    let (wish, after) := preference rest
    (r.repeat? least most wish).map (·, after)

/-- The reader behind the piece, sign or bracket that begins with a character. -/
def sign? (c : Char) (t : Text) : Option (Reader × Text) :=
  if c = '\\' then r.escape? t
  else if c = '[' then (set? r.flags t).map fun (s, rest) => (r.add (.char s) .single, rest)
  else if c = '(' then r.open? t
  else if c = ')' then r.close?.map (·, t)
  else if c = '|' then r.bar?.map (·, t)
  else if c = '.' then some (r.add (.char (if r.flags.dotIsAll then .all else .anyButLineFeed)) .single, t)
  else if c = '^' then some (r.add (if r.flags.isPerLine then .atLineStart else .atStart) .place, t)
  else if c = '$' then some (r.add (if r.flags.isPerLine then .atLineEnd else .atEnd) .place, t)
  else r.repeatOrChar? c t

/-- The reader behind what begins with a character: a sign, or a blank or a comment that is left out. -/
def step? (c : Char) (t : Text) : Option (Reader × Text) :=
  if r.flags.isSpaced && isSpace c then some (r, t)
  else if r.flags.isSpaced && c == '#' then (behindLine? t).map (r, ·)
  else r.sign? c t

/-- The reader behind a text, read in up to `n` steps. -/
def read? (r : Reader) : Nat → Text → Option Reader
  | _, [] => some r
  | 0, _ :: _ => none
  | n + 1, c :: t =>
    match r.step? c t with
    | none => none
    | some (next, rest) => next.read? n rest

end Reader

/-- The pattern that a text writes.  Each step reads a character, so there are no more steps than
characters. -/
def parse? (t : Text) : Option Pattern :=
  match Reader.start.read? t.length t with
  | some r => if r.outer.isEmpty && r.chosen ≤ r.groups.length then some r.level.pattern else none
  | none => none

/-- The patterns that texts write; the first malformed one is the fault. -/
def parseAll : List Text → Except Fault (List Pattern)
  | [] => .ok []
  | t :: ts =>
    match parse? t with
    | none => .error (.badPattern t)
    | some p => (parseAll ts).map (p :: ·)

end Pattern
end ThemeSheet
