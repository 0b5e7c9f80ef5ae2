/-
# The program

Reads the style sources below the working directory and what the command line
names, runs the generator on them and writes the theme.  The evaluator
of flat style sheets stands for the compiler `lessc`.
-/

import ThemeSheet.CommandLine.Program
import ThemeSheet.Less.Canned

namespace ThemeSheet
namespace CommandLine

/-- How deep directories are read. -/
def directoryDepth : Nat := 64

/-- Adds a file to a tree of files if it can be read. -/
def readFile (tree : FileTree) (path : String) : IO FileTree := do
  try
    pure (tree.addFile (.ofText path.toList) (← IO.FS.readBinFile path).toList)
  catch _ => pure tree

/-- Adds the directories and style sources below a directory to a tree of files, as far as they
can be read. -/
def readBelow (depth : Nat) (tree : FileTree) (dir : String) : IO FileTree := do
  match depth with
  | 0 => pure tree
  | depth + 1 => do
    let mut files := tree.makeDir (.ofText dir.toList)
    let inside ← try (← IO.FS.realPath dir).readDir catch _ => pure #[]
    for e in inside do
      let path := e.path.toString
      if ← e.path.isDir then
        files ← readBelow depth files path
      else if Text.endsWith Less.suffix path.toList then
        files ← readFile files path
    pure files

/-- Is there a directory of this name? -/
def isDirectory (name : String) : IO Bool :=
  try (← IO.FS.realPath name).isDir catch _ => pure false

/-- Adds what a word of the command line names: a directory with all below it, or a file and the
directory that it stands in. -/
def readNamed (tree : FileTree) (word : String) : IO FileTree := do
  let name := (splitValue word.toList).2.getD word.toList
  if ← isDirectory (String.ofList name) then readBelow directoryDepth tree (String.ofList name)
  else
    let place := (Path.ofText name).parent
    if ← isDirectory (String.ofList place.written) then
      readFile (tree.makeDir place) (String.ofList name)
    else pure tree

/-- The evaluator answers for the compiler; no other program is found. -/
def evaluatorLauncher (tree : FileTree) : Less.Launcher where
  finds executable := executable == "lessc".toList
  launch := Less.evaluatorRun tree

/-- A line of the log. -/
def logLine (e : LogEntry) : String :=
  (match e.level with
    | .info => "INFO | "
    | .error => "ERROR | ") ++ String.ofList e.message ++
  match e.fault? with
    | some f => ": " ++ String.ofList f.message
    | none => ""

/-- Writes the theme where the settings say, if the run left one there. -/
def writeTheme (r : Result) : IO Unit := do
  if let some s := r.settings then
    if let some (.file bytes) := r.files.find? (.ofText s.output.text) then
      IO.FS.writeBinFile (String.ofList s.output.text) ⟨bytes.toArray⟩

/-- The names on the way to a directory. -/
def namesOf (dir : String) : List Text := (Path.ofText dir.toList).parts

/-- Runs the program on a command line and gives its exit code. -/
def execute (words : List String) : IO UInt32 := do
  let here := (← IO.currentDir).toString
  let mut tree ← readBelow directoryDepth (.empty (namesOf here)) here
  for word in words do
    tree ← readNamed tree word
  let r := run tree (evaluatorLauncher tree) (words.map String.toList)
  for e in r.journal.log do
    IO.eprintln (logLine e)
  for line in r.printed do
    IO.println (String.ofList line)
  for line in r.errors do
    IO.eprintln (String.ofList line)
  match r.crash with
  | some f => do
    IO.eprintln (String.ofList f.message)
    pure 1
  | none => do
    if r.exitCode = 0 then writeTheme r
    pure r.exitCode.toUInt32

end CommandLine
end ThemeSheet

/-- The program answers the command that its words name. -/
def main (words : List String) : IO UInt32 := ThemeSheet.CommandLine.execute words
