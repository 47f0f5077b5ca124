import KubeSchema.Fault

/-!
# Events

What a restructuring reports while it runs. An event has a level and a source, and is shown on one line as
`LEVEL source: message`.
-/

namespace KubeSchema

inductive Level
  | debug
  | warning
  deriving DecidableEq, Repr

def Level.name : Level → String
  | .debug => "DEBUG"
  | .warning => "WARNING"

/-- Something that a restructuring did, or did not do, at a place in the document. -/
inductive Event
  | variantsHoisted (count : Nat) (path : Pointer)
  | optionalHoisted (path : Pointer)
  | propertiesHoisted (union : Union) (path : Pointer)
  /-- The property of a tagged variant cannot take the description of the variant. -/
  | descriptionDropped (property : String) (path : Pointer)
  /-- The property of a tagged variant had a description of its own. -/
  | descriptionReplaced (property : String) (path : Pointer)
  /-- A value in the place of a schema is not one, and stays as it is. -/
  | schemaSkipped (cause : DecodeError) (path : Pointer)
  /-- A restructured schema cannot be written, and stays as it was. -/
  | resultDiscarded (cause : Misfit) (path : Pointer)
  deriving DecidableEq, Repr

namespace Event

def level : Event → Level
  | resultDiscarded .. => .warning
  | _ => .debug

/-- The part of the program that reports an event. -/
def source : Event → String
  | variantsHoisted .. | optionalHoisted .. => "structuralize.hoistenums"
  | propertiesHoisted .. | descriptionDropped .. | descriptionReplaced .. => "structuralize.hoistproperties"
  | schemaSkipped .. | resultDiscarded .. => "structuralize.rewriter"

def message : Event → String
  | variantsHoisted count path => s!"Hoisted {count} oneOf enum variants at {path.render}"
  | optionalHoisted path => s!"Hoisted optional enum at {path.render}"
  | propertiesHoisted u path => s!"Hoisted {u.name} properties at {path.render}"
  | descriptionDropped property path =>
    s!"Dropping description of tagged variant at {path.render}: property {Text.quote property} is a boolean schema"
  | descriptionReplaced property path =>
    s!"Replacing description of property {Text.quote property} with the tagged variant description at {path.render}"
  | schemaSkipped cause path => s!"Skipping schema at {path.render}: {cause.message}"
  | resultDiscarded cause path => s!"Discarding rewrite of schema at {path.render}: {cause.message}"

/-- An event on one line. -/
def line (e : Event) : String := s!"{e.level.name} {e.source}: {e.message}"

end Event

end KubeSchema
