import KubeSchema.Schema.Basic

/-!
# Keywords that structural schemas state differently

* `dropEnumNull`: a nullable schema does not list `null` among several values.
* `preserveUnknownFields`: properties beside `additionalProperties: true` keep unknown fields by a vendor keyword.
* `dropUniqueItems`: arrays have no `uniqueItems`.

Each gives `none` if there is nothing to do.
-/

namespace KubeSchema.Node

/-- Whether the schema says that it is nullable. -/
def isNullable (n : ObjectSchema) : Bool := Members.get? n.extensions nullableKeyword = some (.bool true)

/-- Takes `null` out of the several values of a nullable schema. -/
def dropEnumNull (n : ObjectSchema) : Option ObjectSchema :=
  match n.enum with
  | none => none
  | some values =>
    if n.isNullable ∧ 1 < values.length ∧ .null ∈ values then
      some { n with enum := some (values.filter (· ≠ .null)) }
    else none

/-- Says by a vendor keyword that an object with properties keeps all other fields. -/
def preserveUnknownFields (key : String) (n : ObjectSchema) : Option ObjectSchema :=
  match n.properties, n.additionalProperties with
  | _ :: _, some (.bool true) =>
    some { n with additionalProperties := none, extensions := Members.set n.extensions key (.bool true) }
  | _, _ => none

/-- Takes `uniqueItems` out. -/
def dropUniqueItems (n : ObjectSchema) : Option ObjectSchema :=
  if n.uniqueItems.isSome then some { n with uniqueItems := none } else none

end KubeSchema.Node
