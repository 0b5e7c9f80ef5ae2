/-
# Compilers and programs with ready answers

Stand-ins for the Less compiler: some requests have a ready answer, the others are
answered with their own text or by the evaluator.
-/

import ThemeSheet.Less.Command
import ThemeSheet.Less.Evaluator

namespace ThemeSheet
namespace Less

/-- An answer to the requests whose source ends in `source` and whose text holds `contains`. -/
structure ReadyAnswer where
  source : Text
  contains : Text
  /-- The style sheet, or the words of the refusal. -/
  answer : Except Text Text

/-- Does the answer fit the request? -/
def ReadyAnswer.fits (a : ReadyAnswer) (r : CompileRequest) : Bool :=
  Text.endsWith a.source r.source && Text.occursIn a.contains r.text

/-- The compiler that gives the first ready answer that fits, and else asks another one. -/
def withReady (answers : List ReadyAnswer) (other : Compiler) : Compiler := fun r =>
  match answers.find? (·.fits r) with
  | some a =>
    match a.answer with
    | .ok css => .ok css
    | .error words => .error (.refused r.source words)
  | none => other r

/-- The compiler that answers with the text it is given. -/
def echo : Compiler := fun r => .ok r.text

/-- What a program leaves when its input holds `contains`. -/
structure ReadyRun where
  contains : Text
  finished : Finished

/-- The search paths that a command line names. -/
def includedPaths (command : List Text) : List Text :=
  match command.findSome? (Text.dropPrefix? includeOption) with
  | some paths => Text.splitOn ':' paths
  | none => []

/-- The evaluator as a program; a refusal goes to the error output. -/
def evaluatorRun (tree : FileTree) (run : Run) : Except Fault Finished :=
  match Evaluator.compiler tree ⟨run.input, includedPaths run.command, none⟩ with
  | .ok css => .ok ⟨0, css, []⟩
  | .error (.compile _ detail) => .ok ⟨1, [], detail ++ ['\n']⟩
  | .error fault => .error fault

/-- A launcher that gives the first ready result that fits, and else what `other` gives. -/
def readyLauncher (finds : Bool) (results : List ReadyRun) (other : Run → Except Fault Finished) : Launcher where
  finds _ := finds
  launch run :=
    match results.find? fun r => Text.occursIn r.contains run.input with
    | some r => .ok r.finished
    | none => other run

/-- The program that prints its input. -/
def echoRun (run : Run) : Except Fault Finished := .ok ⟨0, run.input, []⟩

end Less
end ThemeSheet
