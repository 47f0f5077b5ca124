import KubeSchema.Traced

/-!
# Optionals stated as unions

An `anyOf` of two entries, one of which only admits `null`, is an optional: it admits `null` beside what the other
entry admits. The other entry's keywords move to the parent, which becomes nullable.

* `hoistOptional`: gives `none` if the schema is no optional.
-/

namespace KubeSchema

/-- The entry of an optional that admits `null`. -/
def nullEntry : Json := .obj [(Keyword.enum.name, .arr [.null]), (nullableKeyword, .bool true)]

/-- Whether a schema is written as the entry that admits `null`. -/
def Schema.isNullEntry (s : Schema) : Except EncodeError Bool := do
  return decide ((← s.encode).Alike nullEntry)

/-- An optional after its entry has moved to the parent. -/
structure Optional where
  node : ObjectSchema
  /-- Whether the entry had keywords beside those that replace the parent's. -/
  carried : Bool

namespace Node

/-- The keywords of an entry that replace those of the parent. -/
def replacedKeywords : List String := [Keyword.description.name, Keyword.type.name, Keyword.enum.name]

/-- Puts a keyword of the entry among those of the parent, which must not state it differently. -/
def mergeKeyword (path : Pointer) (ms : Members Json) (keyword : String × Json) : Run (Members Json) :=
  match Members.get? ms keyword.1 with
  | some existing =>
    if existing.Alike keyword.2 then pure (Members.set ms keyword.1 keyword.2)
    else Run.violate (.keywordConflict keyword.1 existing keyword.2) path
  | none => pure (Members.set ms keyword.1 keyword.2)

/-- Puts the keywords of an entry among those of the parent. -/
def mergeKeywords (path : Pointer) (n : ObjectSchema) (keywords : Members Json) : Run ObjectSchema := do
  let own ← Run.encoded n.encode
  let merged ← keywords.foldlM (mergeKeyword path) own
  Run.decoded (Node.decode (.obj merged))

/-- Moves the entry at an index of the `anyOf` to the parent. -/
def hoistEntry (path : Pointer) (n : ObjectSchema) (index : Nat) (entry : Schema) : Run Optional := do
  let place := path ++ [Union.anyOf.name, Pointer.index index]
  match entry with
  | .bool _ => Run.violate (.booleanVariant .anyOf) place
  | .object entry =>
    let keywords := Members.eraseAll (← Run.encoded (encode entry)) replacedKeywords
    let own : ObjectSchema := { n with anyOf := none }
    let merged ← if keywords.isEmpty then pure own else mergeKeywords place own keywords
    Traced.report (.optionalHoisted path)
    return {
      node := { merged with
        description := entry.description
        types := entry.types
        enum := entry.enum
        extensions := Members.set merged.extensions nullableKeyword (.bool true) }
      carried := !keywords.isEmpty }

/-- Moves the entry of an optional to the parent. -/
def hoistOptional (path : Pointer) (n : ObjectSchema) : Run (Option Optional) :=
  match n.anyOf with
  | some [a, b] => do
    match ← Run.encoded a.isNullEntry, ← Run.encoded b.isNullEntry with
    | true, true => Run.violate .contradictoryNullable (path ++ [Union.anyOf.name])
    | true, false => some <$> hoistEntry path n 1 b
    | false, true => some <$> hoistEntry path n 0 a
    | false, false => return none
  | _ => pure none

end Node

end KubeSchema
