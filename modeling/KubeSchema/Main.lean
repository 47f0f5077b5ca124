import KubeSchema.Command.Run

/-!
# The program

Looks at the files that an invocation names, runs it, and prints and writes what comes of it.
-/

open KubeSchema

/-- How the program is called. -/
def usageText : String := s!"usage: {programName} [-h] [--version] [--verbose] \x7bj2k\x7d ...\n"

/-- The help on the arguments. -/
def helpText : String :=
  usageText ++ "\nTurn JSON Schema documents into Kubernetes structural schemas.\n\n" ++
    "  -h, --help  Show this help.\n" ++
    "  --version   Print the version.\n" ++
    "  --verbose   Log what is done to each schema.\n\n" ++
    "  j2k [--out FILE] [--preserve-unknown-fields-key KEY] [--keep-unique-items] [--keep-enum-null] [FILE]\n" ++
    "              Convert JSON Schema to a Kubernetes structural schema.\n"

/-- Adds what there is at a place: the content of a file that can be read, or a directory. -/
def lookAt (files : Files) (place : Place) : IO Files := do
  try
    let path ← IO.FS.realPath (Path.ofPlace place)
    if ← path.isDir then return { files with directories := place :: files.directories }
    else if ← path.pathExists then
      return { files with entries := (place, ← IO.FS.readFile path) :: files.entries }
    else return files
  catch _ => return files

/-- What there is at paths and above them. -/
def survey (paths : List String) : IO Files := do
  let mut files : Files := ⟨[], []⟩
  for path in paths do
    for place in Place.ancestors (Path.place path) do
      files ← lookAt files place
  return files

/-- Writes a file, after making the directories above it. -/
def writeOutput (path content : String) : IO Unit := do
  let directory := Path.joinParts (Path.parentParts path)
  unless directory.isEmpty do IO.FS.createDirAll directory
  IO.FS.writeFile path content

def main (args : List String) : IO UInt32 := do
  let invocation := Invocation.ofArguments args
  let (files, standardInput) ← match invocation with
    | .convert _ request =>
      let files ← survey (request.input.toList ++ (request.output.bind Destination.path?).toList)
      let standardInput ← if request.input.isNone then (← IO.getStdin).readToEnd else pure ""
      pure (files, standardInput)
    | _ => pure (Files.ofList [], "")
  let result := invocation.run "<stdin>" files standardInput
  match invocation with
  | .convert _ { output := some (.file path), .. } =>
    match result.exitCode, result.files.content? (Path.place path) with
    | 0, some content => writeOutput path content
    | _, _ => pure ()
  | _ => pure ()
  match result.output with
  | .help => IO.print helpText
  | .text s => IO.print s
  match result.diagnostics with
  | .usage => IO.eprint usageText
  | .events log => for e in log do IO.eprintln e.line
  return UInt32.ofNat result.exitCode
