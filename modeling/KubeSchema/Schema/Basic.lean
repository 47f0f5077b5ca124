import KubeSchema.Json.Basic
import KubeSchema.Keyword
import KubeSchema.NameSet

/-!
# Schemas

A schema is `true`, `false` or a schema object. A schema object (`Node`) has a field for each modeled keyword and
keeps the vendor keywords and all others as they were read. The type is parametric in the child schemas; `Schema` ties
the knot.
-/

namespace KubeSchema

/-- The primitive types of instances. -/
inductive PrimitiveType
  | null
  | boolean
  | object
  | array
  | number
  | string
  | integer
  deriving DecidableEq, Repr

namespace PrimitiveType

def name : PrimitiveType → String
  | null => "null"
  | boolean => "boolean"
  | object => "object"
  | array => "array"
  | number => "number"
  | string => "string"
  | integer => "integer"

def all : List PrimitiveType := [null, boolean, object, array, number, string, integer]

/-- The type of a name. -/
def ofName? (s : String) : Option PrimitiveType := all.find? (fun t => t.name = s)

theorem ofName?_name (t : PrimitiveType) : ofName? t.name = some t := by cases t <;> decide

end PrimitiveType

/-- A value given by itself or in a list. A list of one is not the same as the value by itself. -/
inductive OneOrMany (α : Type)
  | one (item : α)
  | many (items : List α)
  deriving DecidableEq, Repr

/-- The keywords of a schema object with child schemas of type `σ`; a missing keyword is `none` or empty. -/
structure Node (σ : Type) where
  description : Option String := none
  /-- The default value, which may be `null`. -/
  default : Option Json := none
  types : Option (OneOrMany PrimitiveType) := none
  format : Option String := none
  enum : Option (List Json) := none
  anyOf : Option (List σ) := none
  oneOf : Option (List σ) := none
  items : Option (OneOrMany σ) := none
  additionalItems : Option σ := none
  maxItems : Option Int := none
  minItems : Option Int := none
  uniqueItems : Option Bool := none
  contains : Option σ := none
  maxProperties : Option Int := none
  minProperties : Option Int := none
  required : NameSet := .empty
  properties : List (String × σ) := []
  patternProperties : List (String × σ) := []
  additionalProperties : Option σ := none
  propertyNames : Option σ := none
  /-- The vendor keywords. -/
  extensions : List (String × Json) := []
  /-- The keywords that are neither modeled nor a vendor's. -/
  other : List (String × Json) := []

/-- A schema. -/
inductive Schema
  | bool (b : Bool)
  | object (node : Node Schema)

/-- A schema object. -/
abbrev ObjectSchema := Node Schema

namespace Node

variable {σ : Type}

/-- Whether any keyword constrains objects. -/
def hasObjectKeywords (n : Node σ) : Bool :=
  n.maxProperties.isSome || n.minProperties.isSome || !n.required.isEmpty || !n.properties.isEmpty ||
    !n.patternProperties.isEmpty || n.additionalProperties.isSome || n.propertyNames.isSome

/-- Whether `type` is exactly one type, not in a list. -/
def isOnly (n : Node σ) (t : PrimitiveType) : Bool := n.types = some (.one t)

/-- Whether there is neither a description nor a default. -/
def hasNoAnnotations (n : Node σ) : Bool := n.description.isNone && n.default.isNone

/-- Whether the schema is about objects: by a keyword, or by its type. -/
def isAboutObjects (n : Node σ) : Bool :=
  n.hasObjectKeywords ||
    match n.types with
    | some (.one t) => t = .object
    | some (.many ts) => .object ∈ ts
    | none => false

end Node

end KubeSchema
