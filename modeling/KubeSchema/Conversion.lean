import KubeSchema.Document
import KubeSchema.Files

/-!
# Converting files

A conversion reads a document from one file and may write the structural one to another, or to the same.

* `Conversion.run`: the text of the structural document, and the files afterwards, those of a failed conversion too.
-/

namespace KubeSchema

/-- What to convert, and how. -/
structure Conversion where
  input : String
  /-- The file to write; none, or an empty path, for none. -/
  output : Option String := none
  /-- The vendor keyword for objects that keep unknown fields; none, or an empty one, for the usual one. -/
  preserveKey : Option String := none
  keepUniqueItems : Bool := false
  keepEnumNull : Bool := false
  deriving DecidableEq, Repr

/-- Why a conversion fails. -/
inductive Failure
  | file (e : FileError)
  | conversion (e : ConversionError)
  deriving DecidableEq, Repr

def Failure.message : Failure → String
  | .file e => e.message
  | .conversion e => e.message

/-- How a conversion ends: what it reported, the files afterwards, and the text of the structural document. -/
structure Converted where
  log : List Event
  files : Files
  result : Except Failure String

/-- The text of the structural document and the files, if the conversion succeeds. -/
def Converted.outcome (c : Converted) : Except Failure (String × Files) := c.result.map (fun text => (text, c.files))

namespace Conversion

/-- A text, unless it is empty. -/
def filled (s : Option String) : Option String := s.filter (· ≠ "")

/-- The options of the restructuring. -/
def options (c : Conversion) : Options where
  preserveKey := (filled c.preserveKey).getD preserveKeyword
  dropUniqueItems := !c.keepUniqueItems
  dropEnumNull := !c.keepEnumNull

/-- Writes a text to the output, if there is one. -/
def deliver (c : Conversion) (files : Files) (text : String) : Files × Option FileError :=
  match filled c.output with
  | none => (files, none)
  | some path => files.write path text

/-- Converts the input file, and writes the output. -/
def run (c : Conversion) (files : Files) : Converted :=
  match files.read c.input with
  | .error e => ⟨[], files, .error (.file e)⟩
  | .ok content =>
    let converted := c.options.convert content
    match converted.outcome with
    | .error e => ⟨converted.log, files, .error (.conversion e)⟩
    | .ok text =>
      match c.deliver files text with
      | (files, some e) => ⟨converted.log, files, .error (.file e)⟩
      | (files, none) => ⟨converted.log, files, .ok text⟩

end Conversion

end KubeSchema
