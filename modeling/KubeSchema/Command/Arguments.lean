import KubeSchema.Conversion
import KubeSchema.Text.DecimalDigit

/-!
# Arguments of the command line

`[--verbose] [--version] j2k [options] [input]`. An option may be shortened as long as no other one starts alike, and
its value may follow an equals sign. After `--` nothing is an option. Help is given as soon as it is asked for, and an
argument that makes no sense is an error where it stands; one that nobody asked for is an error at the end.

* `Invocation.ofArguments`: what is asked for.
-/

namespace KubeSchema

/-! ## Words and options -/

/-- An option that arguments may name. -/
structure OptionName (α : Type) where
  name : String
  meaning : α

/-- What an argument is. -/
inductive Argument (α : Type)
  | word (s : String)
  /-- An option, and its value if it follows an equals sign. -/
  | option (meaning : α) (value : Option String)
  /-- An option that is not known. -/
  | unknown
  /-- The end of the options. -/
  | separator
  deriving DecidableEq, Repr

namespace Argument

variable {α : Type}

/-- What stands before the first equals sign, and what stands behind it. -/
def splitValue (s : List Char) : List Char × Option String :=
  match s.dropWhile (· ≠ '=') with
  | [] => (s, none)
  | _ :: value => (s.takeWhile (· ≠ '='), some (String.ofList value))

/-- A text without the line feed at its end, if there is one. -/
def dropLineFeed (s : List Char) : List Char := if s.getLast? = some '\n' then s.dropLast else s

/-- Whether a text is a number: digits of any script, or a point with digits behind it and maybe before it. -/
def isNumber (s : List Char) : Bool :=
  match s.dropWhile Text.isDecimalDigit with
  | [] => !s.isEmpty
  | '.' :: fraction => !fraction.isEmpty && fraction.all Text.isDecimalDigit
  | _ => false

/-- Whether a text is a negative number, up to a line feed at its end. -/
def isNegativeNumber : List Char → Bool
  | '-' :: r => isNumber (dropLineFeed r)
  | _ => false

/-- What stands right behind `-h`: the same letter asks for help once more, anything else is a value. -/
def ofHelpLetters (help : α) (r : List Char) : Argument α :=
  .option help (if r ≠ [] ∧ r.all (· = 'h') then none else some (String.ofList r))

/-- The argument `-h`. What is behind it may follow an equals sign. -/
def ofShortHelp (help : α) : List Char → Option (Argument α)
  | ['-', 'h'] => some (.option help none)
  | '-' :: 'h' :: '=' :: r => some (ofHelpLetters help r)
  | '-' :: 'h' :: r => some (ofHelpLetters help r)
  | _ => none

/-- What a text that starts with a minus sign is among the options; ambiguous if several start with it. -/
def ofDashed (options : List (OptionName α)) (help : α) (s : List Char) : Option (Argument α) :=
  let (name, value) := splitValue s
  match options.find? (fun o => o.name.toList = name) with
  | some o => some (.option o.meaning value)
  | none =>
    match options.filter (fun o => ['-', '-'].isPrefixOf s && name.isPrefixOf o.name.toList) with
    | [o] => some (.option o.meaning value)
    | _ :: _ :: _ => none
    | [] =>
      match ofShortHelp help s with
      | some a => some a
      | none => some (if isNegativeNumber s ∨ ' ' ∈ s then .word (String.ofList s) else .unknown)

/-- What an argument is, before the end of the options. -/
def ofText (options : List (OptionName α)) (help : α) (s : String) : Option (Argument α) :=
  if s = "--" then some .separator
  else
    match s.toList with
    | '-' :: c :: r => ofDashed options help ('-' :: c :: r)
    | _ => some (.word s)

/-- What arguments are; none if one of them is ambiguous. -/
def ofTexts (options : List (OptionName α)) (help : α) : List String → Option (List (Argument α))
  | [] => some []
  | s :: r => do
    match ← ofText options help s with
    | .separator => return .separator :: r.map .word
    | a => return a :: (← ofTexts options help r)

end Argument

/-! ## The command -/

/-- The options of the conversion. -/
inductive ConversionOption
  | help
  | out
  | preserveKey
  | keepUniqueItems
  | keepEnumNull
  deriving DecidableEq, Repr

def ConversionOption.names : List (OptionName ConversionOption) :=
  [⟨"--help", help⟩, ⟨"--out", out⟩, ⟨"--preserve-unknown-fields-key", preserveKey⟩,
    ⟨"--keep-unique-items", keepUniqueItems⟩, ⟨"--keep-enum-null", keepEnumNull⟩]

/-- The options before the command. -/
inductive GlobalOption
  | help
  | version
  | verbose
  deriving DecidableEq, Repr

def GlobalOption.names : List (OptionName GlobalOption) :=
  [⟨"--help", help⟩, ⟨"--version", version⟩, ⟨"--verbose", verbose⟩]

/-- Where a result is sent. -/
inductive Destination
  | file (path : String)
  /-- The result is written nowhere. -/
  | nowhere
  deriving DecidableEq, Repr

namespace Destination

/-- The file that is written. -/
def path? : Destination → Option String
  | file path => some path
  | nowhere => none

/-- How a destination is announced. -/
def name : Destination → String
  | file path => path
  | nowhere => "[]"

end Destination

/-- A conversion asked for on the command line. -/
structure Request where
  /-- The file to read; none for the standard input. -/
  input : Option String := none
  /-- Where the result goes; none for the standard output. -/
  output : Option Destination := none
  preserveKey : Option String := none
  keepUniqueItems : Bool := false
  keepEnumNull : Bool := false
  deriving DecidableEq, Repr

/-- What the command line asks for. -/
inductive Invocation
  | help
  | version
  | convert (verbose : Bool) (request : Request)
  /-- The arguments make no sense. -/
  | usage
  deriving DecidableEq, Repr

/-- The arguments of the conversion: help, or a request, and whether all of them were asked for. -/
inductive Parsed
  | help
  | usage
  | request (r : Request) (complete : Bool)
  deriving DecidableEq, Repr

namespace Request

/-- The value that follows an equals sign; `--` stands for no value. -/
def attached (s : String) : Option String := if s = "--" then none else some s

/-- Reads the arguments of a conversion. The end of the options may stand before the input or right behind it. -/
def read (r : Request) (complete : Bool) : List (Argument ConversionOption) → Parsed
  | [] => .request r complete
  | .separator :: args => read r (complete && r.input.isNone) args
  | .unknown :: args => read r false args
  | .word s :: .separator :: args =>
    if r.input.isNone then read { r with input := some s } complete args else read r false args
  | .word s :: args => if r.input.isNone then read { r with input := some s } complete args else read r false args
  | .option .help none :: _ => .help
  | .option .keepUniqueItems none :: args => read { r with keepUniqueItems := true } complete args
  | .option .keepEnumNull none :: args => read { r with keepEnumNull := true } complete args
  | .option .out (some s) :: args =>
    read { r with output := some (((attached s).map .file).getD .nowhere) } complete args
  | .option .out none :: .word s :: args => read { r with output := some (.file s) } complete args
  | .option .preserveKey (some s) :: args => read { r with preserveKey := attached s } complete args
  | .option .preserveKey none :: .word s :: args => read { r with preserveKey := some s } complete args
  | .option _ _ :: _ => .usage

/-- The conversion that a request asks for, from one file to another, if to any. -/
def conversion (r : Request) (input : String) (output : Option String) : Conversion where
  input
  output
  preserveKey := r.preserveKey
  keepUniqueItems := r.keepUniqueItems
  keepEnumNull := r.keepEnumNull

end Request

namespace Invocation

/-- The name of the only command. -/
def commandName : String := "j2k"

/-- What was asked for before the command. -/
structure Globals where
  version : Bool := false
  verbose : Bool := false
  /-- No argument was left over. -/
  complete : Bool := true

/-- What the arguments of the command ask for. -/
def ofCommand (g : Globals) (args : List String) : Invocation :=
  match Argument.ofTexts ConversionOption.names .help args with
  | none => usage
  | some args =>
    match Request.read {} true args with
    | .help => help
    | .usage => usage
    | .request r complete =>
      if !(g.complete && complete) then usage else if g.version then version else convert g.verbose r

/-- Reads the options before the command, each with its text, and the command. -/
def ofGlobals (g : Globals) : List (String × Argument GlobalOption) → Invocation
  | [] => if !g.complete then usage else if g.version then version else help
  | (_, .word s) :: args => if s = commandName then ofCommand g (args.map Prod.fst) else usage
  | (_, .option .help none) :: _ => help
  | (_, .option .version none) :: args => ofGlobals { g with version := true } args
  | (_, .option .verbose none) :: args => ofGlobals { g with verbose := true } args
  | (_, .unknown) :: args => ofGlobals { g with complete := false } args
  | (_, .separator) :: _ | (_, .option _ (some _)) :: _ => usage

/-- What the arguments after the program's name ask for. -/
def ofArguments (args : List String) : Invocation :=
  match Argument.ofTexts GlobalOption.names .help args with
  | none => usage
  | some kinds => ofGlobals {} (args.zip kinds)

end Invocation

end KubeSchema
