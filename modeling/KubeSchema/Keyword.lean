/-!
# Keywords of a schema

Of the keywords that a schema object may have, twenty are modeled (`Keyword`). Vendor keywords extend the vocabulary
(`isVendor`), and all others are carried along. Independently of that, some keywords hold child schemas, in one of
four shapes (`Slot`).
-/

namespace KubeSchema

/-! ## Modeled keywords -/

/-- A keyword that the restructuring of schemas reasons about. -/
inductive Keyword
  | description
  | default
  | type
  | format
  | enum
  | anyOf
  | oneOf
  | items
  | additionalItems
  | maxItems
  | minItems
  | uniqueItems
  | contains
  | maxProperties
  | minProperties
  | required
  | properties
  | patternProperties
  | additionalProperties
  | propertyNames
  deriving DecidableEq, Repr

namespace Keyword

def name : Keyword → String
  | description => "description"
  | default => "default"
  | type => "type"
  | format => "format"
  | enum => "enum"
  | anyOf => "anyOf"
  | oneOf => "oneOf"
  | items => "items"
  | additionalItems => "additionalItems"
  | maxItems => "maxItems"
  | minItems => "minItems"
  | uniqueItems => "uniqueItems"
  | contains => "contains"
  | maxProperties => "maxProperties"
  | minProperties => "minProperties"
  | required => "required"
  | properties => "properties"
  | patternProperties => "patternProperties"
  | additionalProperties => "additionalProperties"
  | propertyNames => "propertyNames"

/-- Every modeled keyword, in the order in which a schema is read and written. -/
def all : List Keyword :=
  [description, default, type, format, enum, anyOf, oneOf, items, additionalItems, maxItems, minItems, uniqueItems,
    contains, maxProperties, minProperties, required, properties, patternProperties, additionalProperties,
    propertyNames]

/-- The modeled keyword of a name. -/
def ofName? (s : String) : Option Keyword := all.find? (fun k => k.name = s)

theorem mem_all (k : Keyword) : k ∈ all := by cases k <;> decide

theorem ofName?_name (k : Keyword) : ofName? k.name = some k := by cases k <;> decide

theorem name_injective {k l : Keyword} (h : k.name = l.name) : k = l := by
  have hk := ofName?_name k
  rw [h, ofName?_name] at hk
  exact (Option.some.inj hk).symm

end Keyword

/-- Whether a keyword is modeled. -/
def isModeled (name : String) : Bool := (Keyword.ofName? name).isSome

/-! ## Vendor keywords -/

/-- The vendor keyword that admits `null` beside the other values. -/
def nullableKeyword : String := "nullable"

/-- The vendor keyword that keeps fields which no property declares, unless another one is asked for. -/
def preserveKeyword : String := "x-kubernetes-preserve-unknown-fields"

/-- Whether a keyword is a vendor's: `nullable`, or one that starts with `x-`. -/
def isVendor (name : String) : Bool :=
  name = nullableKeyword || ['x', '-'].isPrefixOf name.toList

/-- Whether a keyword is neither modeled nor a vendor's. -/
def isOther (name : String) : Bool := !isModeled name && !isVendor name

/-! ## Child schemas -/

/-- The shape of a keyword's value that holds child schemas. -/
inductive Slot
  | schema
  | list
  | map
  | schemaOrList
  deriving DecidableEq, Repr

namespace Slot

def name : Slot → String
  | schema => "schema"
  | list => "list"
  | map => "map"
  | schemaOrList => "schema_or_list"

/-- The keywords whose values hold child schemas. -/
def table : List (String × Slot) :=
  [("anyOf", list), ("oneOf", list), ("allOf", list), ("prefixItems", list), ("items", schemaOrList),
    ("additionalItems", schema), ("contains", schema), ("additionalProperties", schema), ("propertyNames", schema),
    ("not", schema), ("if", schema), ("then", schema), ("else", schema), ("properties", map),
    ("patternProperties", map), ("dependentSchemas", map), ("$defs", map), ("definitions", map)]

/-- The shape of the child schemas that a keyword holds, if it holds any. -/
def ofKeyword? (keyword : String) : Option Slot := table.lookup keyword

end Slot

end KubeSchema
