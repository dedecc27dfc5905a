import QueryAccess.CommandLine

/-!
# The command

Reads what the options name, hands the texts to `QueryAccess.CommandLine.run`, and prints
the verdict, or the failure on the standard error.
-/

open QueryAccess

/-- The text of a file, if it can be read. -/
def readText (file : String) : IO (Option String) :=
  try
    return some (← IO.FS.readFile file)
  catch _ =>
    return none

/-- The texts of the files that the options name. -/
def readTexts (options : CommandLine.Options) : IO (List (String × String)) := do
  let query := if options.query = "-" then [] else [options.query]
  let mut texts := []
  for file in options.rules :: query ++ options.bindings.toList do
    if let some text ← readText file then
      texts := (file, text) :: texts
  return texts

/-- The whole standard input, if the query is read from there. -/
def readStdin (options : CommandLine.Options) : IO String := do
  if options.query = "-" then
    let stdin ← IO.getStdin
    stdin.readToEnd
  else
    return ""

/-- Prints an outcome and answers its exit code. -/
def conclude (outcome : Except CommandLine.Failure Verdict) : IO UInt32 := do
  IO.print (CommandLine.output outcome)
  if let .error failure := outcome then
    IO.eprintln failure.message
  return (CommandLine.exitCode outcome).toUInt32

def main (arguments : List String) : IO UInt32 := do
  match CommandLine.Options.ofArguments? arguments with
  | none => conclude (.error .usage)
  | some options =>
    let texts ← readTexts options
    let stdin ← readStdin options
    conclude (CommandLine.run options (fun file => texts.lookup file) stdin)
