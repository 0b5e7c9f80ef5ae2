/-
# The compiler as a program

The Less compiler is a program that reads a source from its standard input.  A
`Launcher` says what running a program gives; `Program.compiler` turns it into a
compiler.
-/

import ThemeSheet.Less.Compiler
import ThemeSheet.Less.Import

namespace ThemeSheet
namespace Less

/-- What a finished program leaves. -/
structure Finished where
  status : Int
  output : Text
  errors : Text
deriving DecidableEq, Repr

/-- A program that is run: the words of its command line and its input. -/
structure Run where
  command : List Text
  input : Text
deriving DecidableEq, Repr

/-- What running programs gives. -/
structure Launcher where
  /-- Can the program be found? -/
  finds : Text → Bool
  /-- Runs a program; a fault if it breaks down. -/
  launch : Run → Except Fault Finished

/-- How the compiler is called. -/
structure Program where
  executable : Text
  /-- The package directory, if prefixed imports are to be taken from it. -/
  packages : Option Path
  javascript : Bool
  workingDir : List Text

/-- The prefix of import paths that start at the package directory. -/
def tilde : Text := ['~']

/-- How the argument with the search paths begins. -/
def includeOption : Text := "--include-path=".toList

namespace Program

/-- The words of the command line. -/
def command (p : Program) (searchPaths : List Text) : List Text :=
  let given := searchPaths.filter (· ≠ [])
  p.executable ::
    ((if p.javascript then ["--js".toList] else []) ++
      (if given.isEmpty then [] else [includeOption ++ Text.join [':'] given]) ++ ["-".toList])

/-- The search paths of a request: the directory of its file comes first. -/
def searchPaths (p : Program) (r : CompileRequest) : Except Fault (List Text) :=
  match r.fileName with
  | some file => ((Path.ofText file).resolve p.workingDir).map fun place => place.parent.written :: r.searchPaths
  | none => .ok r.searchPaths

/-- The source as the program gets it. -/
def input (p : Program) (r : CompileRequest) : Text :=
  match p.packages with
  | some packages => resolvePrefixed packages tilde r.text
  | none => r.text

/-- The run that a request asks for. -/
def run (p : Program) (r : CompileRequest) : Except Fault Run := do
  pure ⟨p.command (← p.searchPaths r), p.input r⟩

/-- The program as a compiler. -/
def compiler (p : Program) (l : Launcher) : Compiler := fun r =>
  if l.finds p.executable then do
    let done ← l.launch (← p.run r)
    if done.status = 0 then pure done.output
    else throw (.refused r.source (if done.errors = [] then done.output else done.errors))
  else .error (.refused r.source (p.executable ++ " not found on PATH".toList))

end Program
end Less
end ThemeSheet
