import ObjectGraph.CommandLine

/-! # The command

Reads the environment and the files that the options name, and writes the statement. -/

namespace ObjectGraph

namespace CommandLine

/-- The environment, as far as a configuration needs it. -/
def environment : IO (List (String × String)) := do
  let names := ["DATABASE", "SCHEMA", "DIALECT", "MAX_RELATION_ROWS", "MAX_DEPTH"]
  let values ← names.mapM fun member => do
    let name := Configuration.variableName member
    pure ((← IO.getEnv name).map fun value => (name, value))
  pure (values.filterMap id)

/-- The text of a file, or of the standard input. -/
def readText (source : String) : IO String := do
  if source = "-" then (← IO.getStdin).readToEnd else IO.FS.readFile source

/-- The outcome of the command for the words given to it. -/
def command (words : List String) : IO (Except String String) := do
  let found ← environment
  let settled : Except String (Options × Configuration) := do
    let options ← Options.ofWords {} words
    let configuration ← configurationOf options (Dictionary.get? found)
    pure (options, configuration)
  match settled with
  | .error message => pure (.error message)
  | .ok (options, configuration) =>
    match configuration.catalog with
    | none => pure (.error "no type catalog given")
    | some path =>
      let catalog ← readText path
      let request ← readText options.request
      pure (output options configuration.settings catalog request)

end CommandLine

end ObjectGraph

/-- Write the statement, or the error. -/
def main (words : List String) : IO UInt32 := do
  match ← ObjectGraph.CommandLine.command words with
  | .ok text =>
    IO.println text
    pure 0
  | .error message =>
    IO.eprintln ("Error: " ++ message)
    pure 1
