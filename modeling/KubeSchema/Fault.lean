import KubeSchema.Pointer
import KubeSchema.Schema.Decode
import KubeSchema.Schema.Encode
import KubeSchema.Schema.Union

/-!
# Faults

A schema that breaks a rule of unions cannot be made structural. A `Fault` is such a violation, at the place in the
document where it was found, or a schema object that cannot be written or read back.
-/

namespace KubeSchema

/-- A rule of unions that a schema breaks. -/
inductive Violation
  /-- A variant is `true` or `false`. -/
  | booleanVariant (union : Union)
  /-- A variant of an enum has no type. -/
  | missingType (variant : Json)
  /-- A variant of an enum has another type than the first one. -/
  | variantType (found first : Json)
  /-- A variant with an enum has another type than its parent. -/
  | enumType (values found parent : Json)
  /-- A variant of an enum has neither `enum` nor `const`. -/
  | missingValues (variant : Json)
  /-- Both entries of an optional only admit `null`. -/
  | contradictoryNullable
  /-- A tagged variant has several properties. -/
  | severalTags (names : List String)
  /-- Both unions are stated. -/
  | conflictingUnions
  /-- The entry of an optional and its parent state a keyword differently. -/
  | keywordConflict (keyword : String) (existing incoming : Json)
  /-- Two variants, or a variant and its parent, declare a property differently. -/
  | propertyConflict (name : String) (existing incoming : Json)
  deriving DecidableEq, Repr

def Violation.message : Violation → String
  | .booleanVariant u => s!"{u.name} variants can not be boolean schemas"
  | .missingType variant => s!"oneOf variants need to define a type: {variant.canonical}"
  | .variantType found first =>
    s!"All oneOf variants must have the same type, found {found.canonical} after {first.canonical}"
  | .enumType values found parent =>
    s!"Enum variant set {values.canonical} has type {found.canonical} but the type was already defined as " ++
      s!"{parent.canonical}. The instance type must be equal for all subschema variants"
  | .missingValues variant => s!"oneOf variant did not provide \"enum\" or \"const\": {variant.canonical}"
  | .contradictoryNullable => "Both anyOf entries are the nullable marker"
  | .severalTags names =>
    "Expecting only a single property defined for the tagged enum variant schema, got " ++
      (Json.arr (names.map .str)).literal
  | .conflictingUnions => "oneOf and anyOf are mutually exclusive"
  | .keywordConflict keyword existing incoming =>
    s!"Keyword {Text.quote keyword} hoisted as {incoming.canonical} but the parent already defines {existing.canonical}"
  | .propertyConflict name existing incoming =>
    s!"Properties for {Text.quote name} are defined multiple times with different shapes: {incoming.canonical} was " ++
      s!"already defined as {existing.canonical}. The schemas for a property used in multiple subschemas must be " ++
      "identical"

/-- A schema object that cannot be written, or not be read back. -/
inductive Misfit
  | encode (e : EncodeError)
  | decode (e : DecodeError)
  deriving DecidableEq, Repr

def Misfit.message : Misfit → String
  | .encode e => e.message
  | .decode e => e.message

/-- Why a restructuring fails. -/
inductive Fault
  | violation (cause : Violation) (path : Pointer)
  | misfit (cause : Misfit)
  deriving DecidableEq, Repr

def Fault.message : Fault → String
  | .violation cause path => s!"{cause.message} at {path.render}"
  | .misfit cause => cause.message

end KubeSchema
