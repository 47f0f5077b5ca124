import KubeSchema.Traced

/-!
# Properties stated in unions

The properties that the variants of a union declare belong to the parent; the variants keep saying which of them are
required. A tagged variant (`oneOf`) has one property, the tag, which takes over the description of the variant.

* `hoistProperties`: gives `none` if no variant is about objects.
-/

namespace KubeSchema.Node

/-- Puts a description on the schema of a tag, unless that is a boolean. -/
def describeTag (place : Pointer) (description : Option String) (name : String) (s : Schema) : Run Schema :=
  match description, s with
  | none, s => pure s
  | some _, .bool b => do
    Traced.report (.descriptionDropped name place)
    return .bool b
  | some text, .object tag => do
    if tag.description.isSome then Traced.report (.descriptionReplaced name place)
    return .object { tag with description := some text }

/-- The properties that a variant hands to the parent. -/
def handedProperties (u : Union) (place : Pointer) (v : ObjectSchema) : Run (List (String × Schema)) :=
  match u, v.properties with
  | .anyOf, properties => pure properties
  | .oneOf, [] => pure []
  | .oneOf, [(name, s)] => do return [(name, ← describeTag place v.description name s)]
  | .oneOf, properties => Run.violate (.severalTags (Members.names (Members.sortByName properties))) place

/-- Puts a property among those of the parent, which must not declare it differently. -/
def mergeProperty (place : Pointer) (properties : List (String × Schema)) (p : String × Schema) :
    Run (List (String × Schema)) :=
  match Members.get? properties p.1 with
  | none => pure (Members.set properties p.1 p.2)
  | some declared => do
    let existing ← Run.encoded declared.encode
    let incoming ← Run.encoded p.2.encode
    if existing.Alike incoming then return properties
    else Run.violate (.propertyConflict p.1 existing incoming) (place ++ [Keyword.properties.name, p.1])

/-- A variant about objects, after its properties have gone. -/
def strippedVariant (v : ObjectSchema) : ObjectSchema :=
  { v with description := none, types := none, properties := [], additionalProperties := none }

/-- A variant that admits every object, after its type has gone. -/
def bareVariant (v : ObjectSchema) : ObjectSchema :=
  { v with types := none, description := none, default := none }

/-- The outcome of hoisting the variants of a union. -/
structure Hoisted where
  parent : ObjectSchema
  variants : List Schema
  changed : Bool

/-- Moves the properties of the variants to the parent, the first variant being at an index. -/
def hoistVariants (u : Union) (path : Pointer) (index : Nat) (n : ObjectSchema) : List Schema → Run Hoisted
  | [] => pure ⟨n, [], false⟩
  | .bool _ :: _ => Run.violate (.booleanVariant u) (path ++ [u.name, Pointer.index index])
  | .object v :: r => do
    if v.hasObjectKeywords then
      let place := path ++ [u.name, Pointer.index index]
      let handed ← handedProperties u place v
      let properties ← handed.foldlM (mergeProperty place) n.properties
      let rest ← hoistVariants u path (index + 1) { n with properties, types := some (.one .object) } r
      return { rest with variants := .object (strippedVariant v) :: rest.variants, changed := true }
    else if v.isOnly .object then
      let rest ← hoistVariants u path (index + 1) n r
      return { rest with variants := .object (bareVariant v) :: rest.variants, changed := true }
    else
      let rest ← hoistVariants u path (index + 1) n r
      return { rest with variants := .object v :: rest.variants }

/-- Moves the properties of the variants of a union to the parent, which becomes about objects. -/
def hoistProperties (u : Union) (path : Pointer) (n : ObjectSchema) : Run (Option ObjectSchema) :=
  if n.hasConflictingUnions then Run.violate .conflictingUnions path
  else do
    let hoisted ← hoistVariants u path 0 n ((n.variants u).getD [])
    if hoisted.changed then
      Traced.report (.propertiesHoisted u path)
      return some (hoisted.parent.setVariants u (some hoisted.variants))
    else return none

end KubeSchema.Node
