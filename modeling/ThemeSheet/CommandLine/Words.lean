/-
# Reading a command line

Words that begin with a hyphen are options; each is a flag or takes one value, which
is the next word or stands behind an equals sign.  A long option may be shortened as
long as one option only begins so; short ones may be written in one word, the value
of the last directly behind it.  Words behind two hyphens are no options, and two
hyphens are no value.
-/

import ThemeSheet.Text.Blank
import ThemeSheet.Text.Quoted
import ThemeSheet.Unicode.Digit

namespace ThemeSheet
namespace CommandLine

/-- What is wrong with a command line. -/
inductive UsageFault where
  | ambiguous (word : Text) (candidates : List Text)
  | noValue (option : Text)
  /-- A flag was given a value. -/
  | unwantedValue (option value : Text)
  | notANumber (option value : Text)
  | unrecognized (words : List Text)
deriving DecidableEq, Repr

/-- What an option takes. -/
inductive Takes where
  | nothing
  | text
  | integer
deriving DecidableEq, Repr

/-- An option: the ways to write it, and what it takes. -/
structure Spec where
  spellings : List Text
  takes : Takes
deriving DecidableEq, Repr

/-- How the option is called in messages. -/
def Spec.name (s : Spec) : Text := Text.join ['/'] s.spellings

/-- Does the option take a value? -/
def Spec.takesValue (s : Spec) : Bool := s.takes ≠ .nothing

/-- What a word is. -/
inductive Word where
  | plain (t : Text)
  /-- An option, the way it is written in full, and the value in the same word, which stands behind
  an equals sign or directly behind the option. -/
  | option (spec : Spec) (spelling : Text) (value : Option Text)
  | unknown (t : Text)
  /-- The two hyphens. -/
  | separator
deriving DecidableEq, Repr

/-- The two hyphens. -/
def twoHyphens : Text := ['-', '-']

/-- A negative number is no option; a line feed may end it. -/
def isNegativeNumber (t : Text) : Bool :=
  match Text.withoutLineEnd t with
  | '-' :: n =>
    match n.dropWhile Unicode.isDigit with
    | [] => !n.isEmpty
    | '.' :: fraction => !fraction.isEmpty && fraction.all Unicode.isDigit
    | _ => false
  | _ => false

/-- The text before the first equals sign, and the value behind it. -/
def splitValue (t : Text) : Text × Option Text :=
  match t.dropWhile (· != '=') with
  | [] => (t, none)
  | _ :: value => (t.takeWhile (· != '='), some value)

/-- The option that is written so. -/
def lookup? (specs : List Spec) (spelling : Text) : Option Spec :=
  specs.find? fun s => s.spellings.contains spelling

/-- The options that a word may be short for. -/
def candidates (specs : List Spec) (t : Text) : List Word :=
  let all := specs.flatMap fun s => s.spellings.map fun spelling => (s, spelling)
  match t with
  | '-' :: '-' :: _ =>
    let (start, value) := splitValue t
    (all.filter fun p => Text.beginsWith start p.2).map fun (s, spelling) => .option s spelling value
  | a :: b :: rest =>
    all.filterMap fun (s, spelling) =>
      if spelling = [a, b] then some (.option s spelling (if rest.isEmpty then none else some rest))
      else if Text.beginsWith t spelling then some (.option s spelling none)
      else none
  | _ => []

/-- How the option that a word stands for is written in full. -/
def Word.spelling : Word → Text
  | option _ spelling _ => spelling
  | _ => []

/-- What a word before the two hyphens is. -/
def classify (specs : List Spec) (t : Text) : Except UsageFault Word :=
  if t.head? ≠ some '-' then .ok (.plain t)
  else
    match lookup? specs t with
    | some s => .ok (.option s t none)
    | none =>
      if t = ['-'] then .ok (.plain t)
      else
        let (start, value) := splitValue t
        match (if value.isSome then lookup? specs start else none) with
        | some s => .ok (.option s start value)
        | none =>
          match candidates specs t with
          | [w] => .ok w
          | [] => .ok (if isNegativeNumber t || t.contains ' ' then .plain t else .unknown t)
          | ws => .error (.ambiguous t (ws.map Word.spelling))

/-- What the words of a command line are. -/
def classifyAll (specs : List Spec) : List Text → Except UsageFault (List Word)
  | [] => .ok []
  | t :: ts =>
    if t = twoHyphens then .ok (.separator :: ts.map .plain)
    else do
      let w ← classify specs t
      pure (w :: (← classifyAll specs ts))

/-- The number that digits write, with single underscores between them allowed; `behindDigit` when
the character before is a digit. -/
def digitRun? (behindDigit : Bool) (n : Nat) : Text → Option Nat
  | [] => if behindDigit then some n else none
  | c :: t =>
    if c = '_' then if behindDigit then digitRun? false n t else none
    else (Unicode.digitValue? c).bind fun d => digitRun? true (10 * n + d) t

/-- The integer that a text writes: digits with a sign or not and not too many of them, blanks at
both ends aside. -/
def integer? (t : Text) : Option Int :=
  if longestNumeral < (t.filter Unicode.isDigit).length then none
  else
    match Text.trim isNumeralMargin t with
    | '-' :: ds => (digitRun? false 0 ds).map fun n => -(n : Int)
    | '+' :: ds => (digitRun? false 0 ds).map fun n => (n : Int)
    | ds => (digitRun? false 0 ds).map fun n => (n : Int)

/-- What an option comes with. -/
inductive Argument where
  /-- A flag has none. -/
  | nothing
  | text (value : Text)
  /-- Two hyphens in the place of the value. -/
  | missing
deriving DecidableEq, Repr

/-- The value that an option comes with. -/
def Argument.value? : Argument → Option Text
  | text t => some t
  | _ => none

/-- An option that was given, with what it comes with. -/
structure Given where
  spec : Spec
  argument : Argument
deriving DecidableEq, Repr

/-- The option with a value, which must be an integer where the option takes one. -/
def give (s : Spec) (value : Text) : Except UsageFault Given :=
  if value = twoHyphens then .ok ⟨s, .missing⟩
  else if s.takes = .integer ∧ (integer? value).isNone then .error (.notANumber s.name value)
  else .ok ⟨s, .text value⟩

/-- What a word gives: options, and the option that waits for its value in the next word. -/
structure Opened where
  given : List Given
  pending : Option Spec

/-- Reads what stands directly behind a short option: its value if it takes one, else the letters of
further options. -/
def openLetters (specs : List Spec) (s : Spec) : Text → Except UsageFault Opened
  | [] => .ok (if s.takesValue then ⟨[], some s⟩ else ⟨[⟨s, .nothing⟩], none⟩)
  | c :: rest =>
    if s.takesValue then (give s (c :: rest)).map fun g => ⟨[g], none⟩
    else
      match lookup? specs ['-', c] with
      | none => .error (.unwantedValue s.name (c :: rest))
      | some next => (openLetters specs next rest).map fun o => { o with given := ⟨s, .nothing⟩ :: o.given }

/-- Is the spelling that of a short option? -/
def isShort (spelling : Text) : Bool := !Text.beginsWith twoHyphens spelling

/-- Reads an option with the value that its word holds.  A short flag takes the value for the letters
of further options. -/
def openOption (specs : List Spec) (s : Spec) (spelling : Text) : Option Text → Except UsageFault Opened
  | none => openLetters specs s []
  | some value =>
    if s.takesValue then (give s value).map fun g => ⟨[g], none⟩
    else if isShort spelling && !value.isEmpty then openLetters specs s value
    else .error (.unwantedValue s.name value)

/-- The text of a word as it was written. -/
def Word.text : Word → Text
  | plain t => t
  | unknown t => t
  | separator => twoHyphens
  | option _ spelling _ => spelling

/-- The options that are given, and the words that are none.  Each step that needs a value takes
the next word, which must be a plain one. -/
def collect (specs : List Spec) (pending : Option Spec) :
    List Word → Except UsageFault (List Given × List Text)
  | [] =>
    match pending with
    | some s => .error (.noValue s.name)
    | none => .ok ([], [])
  | w :: ws =>
    match pending, w with
    | some s, .plain t => do
      let g ← give s t
      let (gs, extras) ← collect specs none ws
      pure (g :: gs, extras)
    | some s, _ => .error (.noValue s.name)
    | none, .option s spelling value => do
      let own ← openOption specs s spelling value
      let (gs, extras) ← collect specs own.pending ws
      pure (own.given ++ gs, extras)
    | none, w => do
      let (gs, extras) ← collect specs none ws
      pure (gs, w.text :: extras)

/-- The options that the words of a command line give; every word must belong to one. -/
def read (specs : List Spec) (words : List Text) : Except UsageFault (List Given) := do
  let (given, extras) ← collect specs none (← classifyAll specs words)
  if extras.isEmpty then pure given else throw (.unrecognized extras)

/-- How a message about an option begins. -/
def aboutOption (name : Text) : Text := "argument ".toList ++ name ++ ": ".toList

/-- The wording of what is wrong. -/
def UsageFault.message : UsageFault → Text
  | ambiguous word spellings =>
    "ambiguous option: ".toList ++ word ++ " could match ".toList ++ Text.join ", ".toList spellings
  | noValue option => aboutOption option ++ "expected one argument".toList
  | unwantedValue option value => aboutOption option ++ "ignored explicit argument ".toList ++ Text.quoted value
  | notANumber option value => aboutOption option ++ "invalid int value: ".toList ++ Text.quoted value
  | unrecognized words => "unrecognized arguments: ".toList ++ Text.join [' '] words

end CommandLine
end ThemeSheet
