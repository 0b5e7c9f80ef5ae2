/-
# Compilers

A compiler answers a request with a style sheet or refuses it.  What is asked of it,
and what is worth telling the user, goes into a journal that survives every fault.
-/

import ThemeSheet.Fault

namespace ThemeSheet

/-- A source to compile. -/
structure CompileRequest where
  text : Text
  /-- The directories that imports are looked up in. -/
  searchPaths : List Text
  /-- The file that the text comes from. -/
  fileName : Option Text
deriving DecidableEq, Repr

/-- What a source without a file is called. -/
def unnamedSource : Text := "<input>".toList

/-- What the source is called in messages. -/
def CompileRequest.source (r : CompileRequest) : Text := r.fileName.getD unnamedSource

/-- Answers a request with a style sheet. -/
abbrev Compiler := CompileRequest → Except Fault Text

/-- How much a message matters. -/
inductive LogLevel where
  | info
  | error
deriving DecidableEq, Repr

/-- Something worth telling the user. -/
inductive LogEntry where
  | themeVariables (names : List Text)
  | markersRefused (fault : Fault)
  | styleRefused (file detail : Text)
  | generationFailed (fault : Fault)
deriving DecidableEq, Repr

namespace LogEntry

/-- How much the entry matters. -/
def level : LogEntry → LogLevel
  | themeVariables _ => .info
  | _ => .error

/-- The wording of the entry. -/
def message : LogEntry → Text
  | themeVariables names => "Theme variables: ".toList ++ Text.join ", ".toList names
  | markersRefused fault => "Error occurred compiling theme markers: ".toList ++ fault.message
  | styleRefused file detail => "Error occurred compiling file ".toList ++ file ++ ": ".toList ++ detail
  | generationFailed _ => "Theme generation failed".toList

/-- The fault that comes with the entry. -/
def fault? : LogEntry → Option Fault
  | generationFailed fault => some fault
  | _ => none

end LogEntry

/-- A request and its answer. -/
structure Exchange where
  request : CompileRequest
  answer : Except Fault Text

/-- Did the compiler fail otherwise than by refusing the source? -/
def Exchange.crashed (e : Exchange) : Bool :=
  match e.answer with
  | .ok _ | .error (.compile _ _) => false
  | .error _ => true

/-- What has been asked and told, in order. -/
structure Journal where
  exchanges : List Exchange
  log : List LogEntry

/-- Nothing has been asked or told. -/
def Journal.empty : Journal := ⟨[], []⟩

/-- A computation that keeps a journal and may stop with a fault. -/
abbrev Recorded := ExceptT Fault (StateM Journal)

namespace Recorded

/-- Tells the user something. -/
def tell (e : LogEntry) : Recorded Unit := modify fun j => { j with log := j.log ++ [e] }

/-- Asks the compiler and gives its answer, whatever it is. -/
def ask (compiler : Compiler) (r : CompileRequest) : Recorded (Except Fault Text) := do
  let answer := compiler r
  modify fun j => { j with exchanges := j.exchanges ++ [⟨r, answer⟩] }
  pure answer

end Recorded
end ThemeSheet
