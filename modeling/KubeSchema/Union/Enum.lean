import KubeSchema.Traced

/-!
# Enums stated as unions

A `oneOf` whose variants list values is an enum; its values belong to the `enum` of the parent.

* `hoistEnumVariants`: a `oneOf` of enums only, all of one type, becomes `type` and `enum`.
* `hoistEnumValues`: the variants that have an `enum`, among others, move into the parent's.

Both give `none` if there is nothing to do.
-/

namespace KubeSchema.Node

/-! ## A union of enums only -/

/-- The variants are schema objects with a type, the first of them at an index. -/
def typedVariants (path : Pointer) (index : Nat) :
    List Schema → Run (List (OneOrMany PrimitiveType × ObjectSchema))
  | [] => pure []
  | .bool _ :: _ => Run.violate (.booleanVariant .oneOf) (path ++ [Union.oneOf.name, Pointer.index index])
  | .object v :: r =>
    match v.types with
    | none => do
      let variant ← Run.encoded (toJson v)
      Run.violate (.missingType variant) (path ++ [Union.oneOf.name, Pointer.index index])
    | some t => do return (t, v) :: (← typedVariants path (index + 1) r)

/-- The type of a schema object as it is written, together with all the rest. -/
def writtenType (n : ObjectSchema) : Run Json := do
  match Members.get? (← Run.encoded (encode n)) Keyword.type.name with
  | some t => return t
  | none => Run.encoded (.error (.unwritten .type))

/-- The variants have the type of the first one. -/
def checkTypes (path : Pointer) (first : OneOrMany PrimitiveType × ObjectSchema) (index : Nat) :
    List (OneOrMany PrimitiveType × ObjectSchema) → Run Unit
  | [] => pure ()
  | (t, v) :: r =>
    if t = first.1 then checkTypes path first (index + 1) r
    else do
      let found ← writtenType v
      let declared ← writtenType first.2
      Run.violate (.variantType found declared) (path ++ [Union.oneOf.name, Pointer.index index])

/-- The values that a variant lists: its `enum`, or else its `const`. -/
def listedValues? (v : ObjectSchema) : Option (List Json) :=
  match v.enum with
  | some values => some values
  | none => (Members.get? v.other "const").map (fun value => [value])

/-- The values of the variants, in order. -/
def collectValues (path : Pointer) (index : Nat) :
    List (OneOrMany PrimitiveType × ObjectSchema) → Run (List Json)
  | [] => pure []
  | (_, v) :: r =>
    match listedValues? v with
    | some values => do return values ++ (← collectValues path (index + 1) r)
    | none => do
      let variant ← Run.encoded (toJson v)
      Run.violate (.missingValues variant) (path ++ [Union.oneOf.name, Pointer.index index])

/-- Whether a variant is about objects. -/
def isObjectVariant : Schema → Bool
  | .bool _ => false
  | .object v => v.isAboutObjects

/-- Makes a `oneOf` of enums the type and the enum of the parent, whose own values come first. -/
def hoistEnumVariants (path : Pointer) (n : ObjectSchema) : Run (Option ObjectSchema) :=
  match n.oneOf.getD [] with
  | [] => pure none
  | variant :: variants =>
    if (variant :: variants).any isObjectVariant then pure none
    else do
      match ← typedVariants path 0 (variant :: variants) with
      | [] => return none
      | (first, v) :: typed =>
        checkTypes path (first, v) 1 typed
        let values ← collectValues path 0 ((first, v) :: typed)
        Traced.report (.variantsHoisted (typed.length + 1) path)
        return some { n with enum := some (n.enum.getD [] ++ values), types := some first, oneOf := none }

/-! ## Enums among other variants -/

/-- The type of a parent after a variant with an enum: the same as the variant's, where both have one. -/
def agreedType (path : Pointer) (values : List Json) (parent variant : ObjectSchema) :
    Run (Option (OneOrMany PrimitiveType)) :=
  match parent.types, variant.types with
  | some p, some t =>
    if p = t then pure (some p)
    else do
      let found ← writtenType variant
      let declared ← writtenType parent
      Run.violate (.enumType (.arr values) found declared) path
  | none, t => pure t
  | p, none => pure p

/-- Moves the enums of the variants into a parent; the variants that remain. -/
def takeEnums (path : Pointer) (index : Nat) (n : ObjectSchema) : List Schema → Run (ObjectSchema × List Schema)
  | [] => pure (n, [])
  | .object v :: r =>
    match v.enum with
    | some values => do
      let types ← agreedType (path ++ [Union.oneOf.name, Pointer.index index]) values n v
      takeEnums path (index + 1) { n with types, enum := some (n.enum.getD [] ++ values) } r
    | none => do
      let (n, kept) ← takeEnums path (index + 1) n r
      return (n, .object v :: kept)
  | .bool b :: r => do
    let (n, kept) ← takeEnums path (index + 1) n r
    return (n, .bool b :: kept)

/-- Whether a variant has an enum. -/
def hasEnum : Schema → Bool
  | .bool _ => false
  | .object v => v.enum.isSome

/-- Moves the enums among the variants of the `oneOf` into the parent. -/
def hoistEnumValues (path : Pointer) (n : ObjectSchema) : Run (Option ObjectSchema) :=
  let variants := n.oneOf.getD []
  if variants.any hasEnum then do
    let (n, kept) ← takeEnums path 0 n variants
    return some { n with oneOf := some kept }
  else pure none

end KubeSchema.Node
