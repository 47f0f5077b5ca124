import KubeSchema.Json.Reader
import KubeSchema.Restructure

/-!
# Documents as texts

* `Options.convert`: reads a document, makes it structural and writes it with each entry on a line of its own.
* `Options.session`: documents restructured one after the other, where a step may ask for the latest result once more.
-/

namespace KubeSchema

/-- Why a text cannot be converted. -/
inductive ConversionError
  | parse (text : String) (e : Json.ParseError)
  | fault (f : Fault)
  deriving DecidableEq, Repr

def ConversionError.message : ConversionError → String
  | .parse text e => e.message text
  | .fault f => f.message

namespace Options

/-- Makes the document in a text structural. -/
def convert (o : Options) (text : String) : Traced ConversionError String :=
  match Json.parse text with
  | .error e => .fail (.parse text e)
  | .ok v => Json.indented <$> (o.restructure v).mapError .fault

/-- Restructures documents in a row; a step without one takes the latest result, at first the given value. -/
def session (o : Options) (latest : Json) : List (Option Json) → List (Except Fault Json)
  | [] => []
  | step :: steps =>
    let outcome := (o.restructure (step.getD latest)).outcome
    let latest := match outcome with
      | .ok v => v
      | .error _ => latest
    outcome :: o.session latest steps

end Options

end KubeSchema
