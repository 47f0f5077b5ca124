import KubeSchema.Cleanup
import KubeSchema.Union.Enum
import KubeSchema.Union.Optional
import KubeSchema.Union.Properties

/-!
# Making a document structural

Every schema of a document is restructured after the schemas below it. A value in the place of a schema that is not
one stays as it is, apart from the schemas below it; so does a schema whose restructuring cannot be written.

* `Options.settle`: the restructuring of one schema object.
* `Options.restructure`: the restructuring of a document.
-/

namespace KubeSchema

/-- What a restructuring does, and with which vendor keyword. -/
structure Options where
  /-- The vendor keyword for objects that keep unknown fields. -/
  preserveKey : String := preserveKeyword
  /-- Whether `uniqueItems` is taken out. -/
  dropUniqueItems : Bool := true
  /-- Whether `null` is taken out of the values of nullable schemas. -/
  dropEnumNull : Bool := true
  deriving DecidableEq, Repr

namespace Options

/-! ## One schema -/

/-- Takes `null` out of the values of a nullable schema, if asked for. -/
def cleanEnum (o : Options) (n : ObjectSchema) : ObjectSchema := if o.dropEnumNull then n.dropEnumNull.getD n else n

/-- Takes `uniqueItems` out, if asked for. -/
def cleanItems (o : Options) (n : ObjectSchema) : ObjectSchema :=
  if o.dropUniqueItems then n.dropUniqueItems.getD n else n

/-- Hoists what the variants of the unions declare. -/
def hoistUnions (path : Pointer) (n : ObjectSchema) : Run ObjectSchema := do
  let n := (← n.hoistProperties .oneOf path).getD n
  let n := (← n.hoistEnumValues path).getD n
  let n := n.dropEmptyOneOf
  return (← n.hoistProperties .anyOf path).getD n

/-- Restructures the unions of a schema object. Those that an optional carries along were settled with its entry. -/
def settleUnions (o : Options) (path : Pointer) (n : ObjectSchema) : Run ObjectSchema := do
  let n := (← n.hoistEnumVariants path).getD n
  match ← n.hoistOptional path with
  | none => hoistUnions path (o.cleanEnum n)
  | some ⟨n, carried⟩ => return if carried then o.cleanEnum n else (o.cleanEnum n).dropEmptyOneOf

/-- Restructures a schema object. -/
def settle (o : Options) (path : Pointer) (n : ObjectSchema) : Run ObjectSchema :=
  if n.hasConflictingUnions then Run.violate .conflictingUnions path
  else do
    let n ← o.settleUnions path n
    return o.cleanItems ((n.preserveUnknownFields o.preserveKey).getD n)

/-- The members of a schema object, if they read as one. -/
def readable (n : ObjectSchema) : Except Misfit (Members Json) := do
  let ms ← n.encode.mapError .encode
  let _ ← (Node.decode (.obj ms)).mapError .decode
  return ms

/-- Restructures an object in the place of a schema, after the schemas below it. -/
def restructureMembers (o : Options) (path : Pointer) (ms : Members Json) : Run (Members Json) :=
  match Node.decode (.obj ms) with
  | .error e => do
    Traced.report (.schemaSkipped e path)
    return ms
  | .ok n => do
    match readable (← o.settle path n) with
    | .ok ms => return ms
    | .error e => do
      Traced.report (.resultDiscarded e path)
      return ms

/-! ## Documents -/

mutual

/-- Restructures a value in the place of a schema. -/
def restructureAt (o : Options) (path : Pointer) : Json → Run Json
  | .obj ms => do return .obj (← o.restructureMembers path (← o.restructureSlots path ms))
  | v => pure v
  termination_by structural v => v

/-- Restructures the schemas below a schema. -/
def restructureSlots (o : Options) (path : Pointer) : List (String × Json) → Run (List (String × Json))
  | [] => pure []
  | (keyword, v) :: r => do
    let v ←
      match Slot.ofKeyword? keyword, v with
      | some .schema, v => o.restructureAt (path ++ [keyword]) v
      | some .list, .arr xs => .arr <$> o.restructureItems (path ++ [keyword]) 0 xs
      | some .map, .obj ms => .obj <$> o.restructureEntries (path ++ [keyword]) ms
      | some .schemaOrList, .arr xs => .arr <$> o.restructureItems (path ++ [keyword]) 0 xs
      | some .schemaOrList, v => o.restructureAt (path ++ [keyword]) v
      | _, v => pure v
    return (keyword, v) :: (← o.restructureSlots path r)
  termination_by structural ms => ms

/-- Restructures schemas in a list, the first of them at an index. -/
def restructureItems (o : Options) (path : Pointer) (index : Nat) : List Json → Run (List Json)
  | [] => pure []
  | v :: r => do
    let v ← o.restructureAt (path ++ [Pointer.index index]) v
    return v :: (← o.restructureItems path (index + 1) r)
  termination_by structural vs => vs

/-- Restructures schemas under names. -/
def restructureEntries (o : Options) (path : Pointer) : List (String × Json) → Run (List (String × Json))
  | [] => pure []
  | (name, v) :: r => do
    let v ← o.restructureAt (path ++ [name]) v
    return (name, v) :: (← o.restructureEntries path r)
  termination_by structural ms => ms

end

/-- Restructures a document. -/
def restructure (o : Options) (v : Json) : Run Json := o.restructureAt [] v

end Options

end KubeSchema
