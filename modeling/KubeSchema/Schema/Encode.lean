import KubeSchema.Json.Printer
import KubeSchema.Schema.Basic

/-!
# Writing schemas

The modeled keywords are written in the order of `Keyword.all`, those that are missing or empty left out; then follow
the vendor keywords and the others. No keyword may occur twice.

* `Node.encode`: the members of a schema object.
* `Schema.encode`: a schema as a JSON value.
-/

namespace KubeSchema

/-! ## Errors -/

/-- Why a schema cannot be written. -/
inductive EncodeError
  /-- A keyword is modeled and carried along, or a vendor's and another's. -/
  | repeated (name : String)
  | notCount (keyword : Keyword) (found : Json)
  | notText (keyword : Keyword) (found : Json)
  | notList (keyword : Keyword) (found : Json)
  | notTruth (keyword : Keyword)
  | notNames (keyword : Keyword)
  /-- A value that is neither by itself nor in a list. -/
  | notOneOrMany (keyword : Keyword) (found : Json)
  | unknownType (found : Json)
  | notSchema (found : Json)
  /-- A value in the place of a list that consists of nothing. -/
  | noElements (found : Json)
  /-- A value in the place of an object. -/
  | noMembers (found : Json)
  /-- A keyword that is looked up in what was written is not there. -/
  | unwritten (keyword : Keyword)
  deriving DecidableEq, Repr

def EncodeError.message : EncodeError → String
  | .repeated name => s!"Keyword {Text.quote name} is defined more than once"
  | .notCount keyword found => s!"'{keyword.name}' must be a non-negative integer, got {found.literal}"
  | .notText keyword found => s!"'{keyword.name}' must be a string, got {found.kindName}"
  | .notList keyword found => s!"'{keyword.name}' must be a list, got {found.kindName}"
  | .notTruth keyword => s!"'{keyword.name}' must be a boolean"
  | .notNames keyword => s!"'{keyword.name}' entries must be strings"
  | .notOneOrMany keyword found => s!"'{keyword.name}' must be Single or Many, got {found.kindName}"
  | .unknownType found => s!"Unknown instance type {found.literal}"
  | .notSchema found => s!"Expected a boolean or a SchemaObject, got {found.kindName}"
  | .noElements found => s!"'{found.kindName}' object is not iterable"
  | .noMembers found => s!"'{found.kindName}' object has no attribute 'items'"
  | .unwritten keyword => s!"'{keyword.name}'"

/-! ## Keywords -/

/-- A modeled keyword to be written: its value, none if it is left out, or what is wrong with it. -/
abbrev Entry := Keyword × Except EncodeError (Option Json)

/-- The members of the modeled keywords that are present. -/
def modeledMembers : List Entry → Except EncodeError (Members Json)
  | [] => .ok []
  | (k, value) :: r => do
    match ← value with
    | none => modeledMembers r
    | some v => return (k.name, v) :: (← modeledMembers r)

/-- Adds keywords, none of which may be there already. -/
def addMembers (ms : Members Json) : Members Json → Except EncodeError (Members Json)
  | [] => .ok ms
  | (name, v) :: r => if Members.has ms name then .error (.repeated name) else addMembers (ms ++ [(name, v)]) r

/-- The members of a schema object from its modeled keywords and the others. -/
def assemble (modeled : List Entry) (extensions other : Members Json) : Except EncodeError (Members Json) := do
  addMembers (← modeledMembers modeled) (extensions ++ other)

/-- A count is not negative. -/
def encodeCount (k : Keyword) : Option Int → Except EncodeError (Option Json)
  | none => .ok none
  | some n => if 0 ≤ n then .ok (some (.int n)) else .error (.notCount k (.int n))

def PrimitiveType.encode (t : PrimitiveType) : Json := .str t.name

/-- One type by itself or several in a list. -/
def encodeTypes : OneOrMany PrimitiveType → Json
  | .one t => t.encode
  | .many ts => .arr (ts.map PrimitiveType.encode)

/-- The names in increasing order, left out if there are none. -/
def NameSet.encode (s : NameSet) : Option Json := if s.isEmpty then none else some (.arr (s.names.map .str))

/-- An object, left out if it has no members. -/
def encodeMap (ms : Members Json) : Option Json := if ms.isEmpty then none else some (.obj ms)

/-! ## Schemas -/

mutual

/-- A schema as a JSON value. -/
def Schema.encode : Schema → Except EncodeError Json
  | .bool b => .ok (.bool b)
  | .object n => .obj <$> assemble (schemaEntries n) n.extensions n.other
  termination_by structural s => s

/-- The modeled keywords of a schema object, in order. -/
def schemaEntries : Node Schema → List Entry
  | { description, default, types, format, enum, anyOf, oneOf, items, additionalItems, maxItems, minItems,
      uniqueItems, contains, maxProperties, minProperties, required, properties, patternProperties,
      additionalProperties, propertyNames, .. } =>
    [(.description, .ok (description.map .str)),
      (.default, .ok default),
      (.type, .ok (types.map encodeTypes)),
      (.format, .ok (format.map .str)),
      (.enum, .ok (enum.map .arr)),
      (.anyOf, encodeSchemas anyOf),
      (.oneOf, encodeSchemas oneOf),
      (.items, encodeSchemaOrList items),
      (.additionalItems, encodeSchema additionalItems),
      (.maxItems, encodeCount .maxItems maxItems),
      (.minItems, encodeCount .minItems minItems),
      (.uniqueItems, .ok (uniqueItems.map .bool)),
      (.contains, encodeSchema contains),
      (.maxProperties, encodeCount .maxProperties maxProperties),
      (.minProperties, encodeCount .minProperties minProperties),
      (.required, .ok required.encode),
      (.properties, encodeMap <$> encodeMembers properties),
      (.patternProperties, encodeMap <$> encodeMembers patternProperties),
      (.additionalProperties, encodeSchema additionalProperties),
      (.propertyNames, encodeSchema propertyNames)]
  termination_by structural n => n

/-- A child schema that may be missing. -/
def encodeSchema : Option Schema → Except EncodeError (Option Json)
  | none => .ok none
  | some s => some <$> s.encode
  termination_by structural s => s

/-- Child schemas in a list that may be missing. -/
def encodeSchemas : Option (List Schema) → Except EncodeError (Option Json)
  | none => .ok none
  | some l => (some ∘ .arr) <$> encodeItems l
  termination_by structural l => l

/-- A child schema by itself or several in a list. -/
def encodeSchemaOrList : Option (OneOrMany Schema) → Except EncodeError (Option Json)
  | none => .ok none
  | some (.one s) => some <$> s.encode
  | some (.many l) => (some ∘ .arr) <$> encodeItems l
  termination_by structural s => s

/-- Schemas in a list. -/
def encodeItems : List Schema → Except EncodeError (List Json)
  | [] => .ok []
  | s :: r => do return (← s.encode) :: (← encodeItems r)
  termination_by structural l => l

/-- Schemas under names. -/
def encodeMembers : List (String × Schema) → Except EncodeError (List (String × Json))
  | [] => .ok []
  | (name, s) :: r => do return (name, ← s.encode) :: (← encodeMembers r)
  termination_by structural l => l

end

namespace Node

/-- The members of a schema object. -/
def encode (n : ObjectSchema) : Except EncodeError (Members Json) := assemble (schemaEntries n) n.extensions n.other

/-- A schema object as a JSON value. -/
def toJson (n : ObjectSchema) : Except EncodeError Json := .obj <$> encode n

end Node

theorem Schema.encode_object (n : ObjectSchema) : (Schema.object n).encode = Node.toJson n := rfl

/-! ## Comparing schemas -/

/-- Whether two schemas are written alike, up to the order of members. -/
def Schema.isAlike (a b : Schema) : Except EncodeError Bool := do
  return decide ((← a.encode).Alike (← b.encode))

end KubeSchema
