import PklAnalysis.Invocation

/-!
# Command line

The program reads the paths of its files from standard input, one a line, as a search for files
prints them, and carries out the invocation that its arguments make.
-/

open PklAnalysis

/-- The lines of standard input. -/
partial def inputLines (input : IO.FS.Stream) (done : List String) : IO (List String) := do
  let line ← input.getLine
  if line.isEmpty then return done.reverse
  inputLines input (Text.withoutEnding "\n" line :: done)

/-- The files at some paths, relative ones taken from a directory. -/
def readFiles (here : Path) (paths : List String) : IO Files := do
  let entries ← paths.mapM fun path => do
    let place := here.join path
    return (place, ← IO.FS.readFile place.text)
  return Files.ofList [here] entries

/-- What is said of a command line that asks for nothing. -/
def usage : String :=
  "usage: [--config FILE] [--root DIR] "
    ++ "(check | resolve | optimize-imports | format | graph | subtype) ..."

def main (words : List String) : IO UInt32 := do
  let here : Path := ⟨(← IO.getEnv "PWD").getD "/"⟩
  match Invocation.ofWords? words with
  | none =>
    IO.eprintln usage
    return 2
  | some invocation =>
    let paths ← inputLines (← IO.getStdin) []
    match invocation.run (← readFiles here (paths.filter (· ≠ ""))) here with
    | .error message =>
      IO.eprintln ("Error: " ++ message)
      return 1
    | .ok (text, problems) =>
      IO.print text
      if problems = 0 then return 0
      IO.eprintln ("Error: " ++ toString problems ++ " problem(s) found")
      return 1
