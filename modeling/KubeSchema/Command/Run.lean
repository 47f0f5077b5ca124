import KubeSchema.Command.Arguments

/-!
# The command

* `Invocation.run`: what an invocation prints and writes.
-/

namespace KubeSchema

def programName : String := "structuralize"

def programVersion : String := "0.1.0"

/-- What goes to the standard output. -/
inductive Output
  /-- The help on the arguments. -/
  | help
  | text (s : String)
  deriving DecidableEq, Repr

/-- What goes to the standard error. -/
inductive Diagnostics
  /-- The usage of the program. -/
  | usage
  | events (log : List Event)
  deriving DecidableEq, Repr

/-- The outcome of a command. -/
structure Result where
  exitCode : Nat
  output : Output
  diagnostics : Diagnostics
  files : Files
  deriving DecidableEq, Repr

/-- The names that the system gives to the temporary files of a run. -/
structure TemporaryNames where
  input : String
  output : String

/-- One name for both, followed by a mark for the second one. -/
instance : Coe String TemporaryNames := ⟨fun name => ⟨name, name ++ ".out"⟩⟩

namespace Invocation

/-- The events that are shown: warnings, or all of them. -/
def shown (verbose : Bool) (log : List Event) : List Event := log.filter (fun e => verbose || e.level = .warning)

/-- What is said before a conversion to a file. -/
def announcement (input output : String) : String :=
  s!"Executing Convert JSON Schema to a Kubernetes structural schema with input {input} and output {output}\n"

/-- What is not a file of its own goes through one: the standard input that is to be converted, and the result that is
to be printed. -/
def temporaries (names : TemporaryNames) (request : Request) (standardInput : String) : List (Place × String) :=
  (if request.input.isNone then [(Path.place names.input, standardInput)] else []) ++
    (if request.output.isNone then [(Path.place names.output, "")] else [])

/-- The conversion of a request, from file to file. -/
def conversion (names : TemporaryNames) (request : Request) : Conversion :=
  request.conversion (request.input.getD names.input)
    (match request.output with
      | none => some names.output
      | some destination => destination.path?)

/-- What is said before the conversion of a request: nothing, if the result is to be printed. -/
def announced (names : TemporaryNames) (request : Request) : String :=
  match request.output with
  | none => ""
  | some destination => announcement (request.input.getD names.input) destination.name

/-- The result, if it is to be printed. -/
def printed (names : TemporaryNames) (request : Request) (files : Files) : Except FileError String :=
  if request.output.isNone then files.read names.output else .ok ""

/-- Runs an invocation. -/
def run (names : TemporaryNames) (files : Files) (standardInput : String) : Invocation → Result
  | help => ⟨0, .help, .events [], files⟩
  | version => ⟨0, .text s!"{programName} {programVersion}\n", .events [], files⟩
  | usage => ⟨2, .text "", .usage, files⟩
  | convert verbose request =>
    let held := temporaries names request standardInput
    let done := (conversion names request).run (files.putAll held)
    let outcome := do
      let _ ← done.result.mapError Failure.message
      (printed names request done.files).mapError FileError.message
    let (exitCode, text) :=
      match outcome with
      | .ok text => (0, text)
      | .error message => (1, s!"Error:  {message}\n")
    ⟨exitCode, .text (announced names request ++ text), .events (shown verbose done.log),
      done.files.remove (held.map Prod.fst)⟩

end Invocation

end KubeSchema
